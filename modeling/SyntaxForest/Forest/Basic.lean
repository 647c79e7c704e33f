import SyntaxForest.Fault
import SyntaxForest.Node
/-!
# Forests and edits

A forest owns every node of a family of trees, in order of allocation; nodes are never freed. A query
reads a forest and gives a value or a fault. An edit also changes the forest, and what it leaves behind
is part of its result even when it stops with a fault.
-/

namespace SyntaxForest

/-- All nodes ever allocated, attached or not. -/
structure Forest where
  nodes : Array Node := #[]
  deriving DecidableEq, Repr

/-- A computation that may change a forest and may stop with a fault. -/
abbrev Edit (α : Type) := EStateM Fault Forest α

namespace Forest

/-- The forest without nodes. -/
def empty : Forest := {}

instance : Inhabited Forest := ⟨empty⟩

/-- How many nodes were ever allocated. -/
def size (f : Forest) : Nat := f.nodes.size

/-- Whether no node was ever allocated. -/
def isEmpty (f : Forest) : Bool := f.nodes.isEmpty

/-- The handle that the next node will get. -/
def nextId (f : Forest) : NodeId := ⟨f.size⟩

/-- The handles of all nodes, in order of allocation. -/
def ids (f : Forest) : List NodeId := (List.range f.size).map NodeId.mk

/-- Whether the handle is of this forest. -/
def Has (f : Forest) (id : NodeId) : Prop := id.index < f.size

instance (f : Forest) (id : NodeId) : Decidable (f.Has id) := inferInstanceAs (Decidable (_ < _))

/-- The node under a handle, or the fault that the handle is not of this forest. -/
def node (f : Forest) (id : NodeId) : Except Fault Node :=
  match f.nodes[id.index]? with
  | some node => .ok node
  | none => .error (.outOfRange f.size id.index)

/-- The forest with one node more. -/
def push (f : Forest) (node : Node) : Forest := ⟨f.nodes.push node⟩

/-- The forest with one node changed. -/
def modifyNode (f : Forest) (id : NodeId) (update : Node → Node) : Forest :=
  ⟨f.nodes.modify id.index update⟩

end Forest

namespace Edit

/-- Runs a query. -/
@[inline] def ask {α : Type} (query : Forest → Except Fault α) : Edit α := fun f =>
  match query f with
  | .ok a => .ok a f
  | .error e => .error e f

/-- How many nodes the forest has now. -/
def size : Edit Nat := ask fun f => .ok f.size

/-- Changes the node under a handle. -/
@[inline] def change (id : NodeId) (update : Node → Node) : Edit Unit := fun f =>
  if id.index < f.size then .ok () (f.modifyNode id update)
  else .error (.outOfRange f.size id.index) f

/-- Allocates a node and returns its handle. It always succeeds: that 32 bits give handles for `2 ^ 32 - 1` nodes
only, and that a forest aborts past them, is left out. -/
def allocate (node : Node) : Edit NodeId := fun f => .ok f.nextId (f.push node)

/-- Stops with a fault in the links of a node. -/
def refuse {α : Type} (id : NodeId) (operation : Operation) (cause : LinkFault) : Edit α :=
  throw (.link id operation cause)

/-- The forest that an edit leaves behind, whether or not it stops with a fault. -/
def after {α : Type} (edit : Edit α) (f : Forest) : Forest :=
  match edit f with
  | .ok _ g => g
  | .error _ g => g

/-- What an edit answers. -/
def answer {α : Type} (edit : Edit α) (f : Forest) : Except Fault α :=
  match edit f with
  | .ok a _ => .ok a
  | .error e _ => .error e

end Edit

end SyntaxForest
