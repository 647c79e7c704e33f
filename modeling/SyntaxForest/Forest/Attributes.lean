import SyntaxForest.Forest.Basic
/-!
# What a node carries

Reading and writing of payloads, positions, properties and type texts. A payload keeps its shape: text
is written only to text nodes, and numbers only to number nodes.
-/

namespace SyntaxForest

namespace Forest

variable (f : Forest)

/-- The text of a text node. -/
def text (id : NodeId) : Except Fault String := do
  let node ← f.node id
  match node.payload with
  | .text value => return value
  | _ => throw (.payload .readText node.kind)

/-- The number of a number node. -/
def number (id : NodeId) : Except Fault Double := do
  let node ← f.node id
  match node.payload with
  | .number value => return value
  | _ => throw (.payload .readNumber node.kind)

/-- Whether two nodes have equal payloads. -/
def samePayload (a b : NodeId) : Except Fault Bool := do
  let left ← f.node a
  let right ← f.node b
  return left.payload.same right.payload

/-- The source position of a node. -/
def position (id : NodeId) : Except Fault Position := return (← f.node id).position

/-- The properties of a node. -/
def properties (id : NodeId) : Except Fault PropertyList := return (← f.node id).properties

/-- Whether two nodes have the same properties. -/
def sameProperties (a b : NodeId) : Except Fault Bool := do
  let left ← f.node a
  let right ← f.node b
  return left.properties.same right.properties

/-- The type text of a node. -/
def typeText (id : NodeId) : Except Fault (Option String) := return (← f.node id).typeText

end Forest

namespace Edit

/-- Writes the text of a text node. -/
def setText (id : NodeId) (value : String) : Edit Unit := do
  let node ← ask (·.node id)
  match node.payload with
  | .text _ => change id fun n => { n with payload := .text value }
  | _ => throw (.payload .writeText node.kind)

/-- Writes the number of a number node. -/
def setNumber (id : NodeId) (value : Double) : Edit Unit := do
  let node ← ask (·.node id)
  match node.payload with
  | .number _ => change id fun n => { n with payload := .number value }
  | _ => throw (.payload .writeNumber node.kind)

/-- Writes the source position of a node. -/
def setPosition (id : NodeId) (position : Position) : Edit Unit :=
  change id fun n => { n with position := position }

/-- Gives a node the source position of another. -/
def copyPosition (id source : NodeId) : Edit Unit := do
  setPosition id (← ask (·.position source))

/-- Changes the properties of a node. -/
def changeProperties (id : NodeId) (update : PropertyList → PropertyList) : Edit Unit :=
  change id fun n => { n with properties := update n.properties }

/-- Sets or clears a flag of a node. -/
def putBool (id : NodeId) (key : PropertyKey) (value : Bool) : Edit Unit :=
  changeProperties id (·.putBool key value)

/-- Sets the integer half of a property of a node. -/
def putInt (id : NodeId) (key : PropertyKey) (value : Int) : Edit Unit :=
  changeProperties id (·.putInt key value)

/-- Sets the object half of a property of a node. -/
def putObject (id : NodeId) (key : PropertyKey) (value : PropertyObject) : Edit Unit :=
  changeProperties id (·.putObject key value)

/-- Unsets a property of a node. -/
def removeProperty (id : NodeId) (key : PropertyKey) : Edit Unit :=
  changeProperties id (·.erase key)

/-- Writes or clears the type text of a node. -/
def setTypeText (id : NodeId) (text : Option String) : Edit Unit :=
  change id fun n => { n with typeText := text }

end Edit

end SyntaxForest
