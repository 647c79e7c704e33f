import SyntaxForest.Double.Basic
import SyntaxForest.Kind.Classes
import SyntaxForest.Position
import SyntaxForest.Property.List
/-!
# Nodes

A node is a record of its kind and payload, four links to other nodes, and what passes attach to it:
properties, a source position and the text of a type. The children of a node form a chain from its
first child along the sibling links to its last child.
-/

namespace SyntaxForest

/-- The value that a node carries itself. -/
inductive Payload
  | generic
  | text (value : String)
  | number (value : Double)
  deriving DecidableEq, Repr

namespace Payload

/-- Which of the three forms a payload has. -/
def shape : Payload → Shape
  | .generic => .generic
  | .text _ => .text
  | .number _ => .number

/-- The text of a text payload. -/
def text? : Payload → Option String
  | .text value => some value
  | _ => none

/-- The number of a number payload. -/
def number? : Payload → Option Double
  | .number value => some value
  | _ => none

/-- Whether two payloads have equal values; numbers are compared by value, not by bit pattern. -/
def same : Payload → Payload → Bool
  | .generic, .generic => true
  | .text a, .text b => a == b
  | .number a, .number b => a.equal b
  | _, _ => false

end Payload

/-- One node of a forest. -/
structure Node where
  kind : Kind
  payload : Payload
  position : Position := .unknown
  parent : Option NodeId := none
  firstChild : Option NodeId := none
  lastChild : Option NodeId := none
  nextSibling : Option NodeId := none
  properties : PropertyList := {}
  /-- The text of the node's type. A type is an object that nodes share with a type checker; a forest stores, copies
  and prints it and asks nothing else of it, so only the text that it prints is kept and not its identity. -/
  typeText : Option String := none
  deriving DecidableEq, Repr

namespace Node

/-- Whether the node has neither a parent nor a sibling link, and so may be attached. -/
def isDetached (node : Node) : Bool := node.parent.isNone && node.nextSibling.isNone

/-- Whether the node has a child. -/
def hasChildren (node : Node) : Bool := node.firstChild.isSome

/-- Whether the node has exactly one child. -/
def hasOneChild (node : Node) : Bool :=
  node.firstChild.isSome && node.firstChild == node.lastChild

/-- The node without its links. -/
def detachedCopy (node : Node) : Node :=
  { node with parent := none, firstChild := none, lastChild := none, nextSibling := none }

end Node

end SyntaxForest
