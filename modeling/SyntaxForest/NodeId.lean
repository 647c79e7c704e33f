/-!
# Handles on nodes

Nodes refer to each other by handles. A handle is a plain number, so a handle on a node that was never
allocated can be written down; looking at it is an error of the looking operation.
-/

namespace SyntaxForest

/-- A handle on a node: its place in the forest's order of allocation. Places are unbounded here; a handle of
32 bits, one pattern of which means that there is no node, ends at place `2 ^ 32 - 2`. -/
structure NodeId where
  index : Nat
  deriving DecidableEq, Repr

/-- A handle as diagnostics print it. -/
def NodeId.render (id : NodeId) : String := s!"#{id.index}"

instance : ToString NodeId := ⟨NodeId.render⟩

end SyntaxForest
