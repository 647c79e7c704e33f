import SyntaxForest.Forest.Queries
/-!
# Well-formed forests

What the links of a forest promise to whoever follows them: no link leaves the forest, the children of a
node form a chain that ends at its last child and holds exactly the nodes that name it as parent, and
no node is above itself.
-/

namespace SyntaxForest

namespace Forest

/-- `f.Ancestor a b`: going up from `b` by one or more parent links leads to `a`. -/
inductive Ancestor (f : Forest) : NodeId → NodeId → Prop
  | parent {a b : NodeId} : f.parent b = .ok (some a) → Ancestor f a b
  | above {a b c : NodeId} : f.parent c = .ok (some b) → Ancestor f a b → Ancestor f a c

/-- The links of a node, in whatever direction. -/
def links (n : Node) : List (Option NodeId) := [n.parent, n.firstChild, n.lastChild, n.nextSibling]

/-- The promises that the links of a forest keep. -/
structure WellFormed (f : Forest) : Prop where
  /-- Every link names a node of the forest. -/
  links_has : ∀ id n target, f.node id = .ok n → some target ∈ links n → f.Has target
  /-- The children of a node are finitely many and distinct, the last of them is its last child, and
  they are exactly the nodes whose parent it is. -/
  children_ok : ∀ id n, f.node id = .ok n → ∃ ids, f.children id = .ok ids ∧ ids.Nodup ∧
    n.firstChild = ids.head? ∧ n.lastChild = ids.getLast? ∧
    ∀ child, child ∈ ids ↔ f.parent child = .ok (some id)
  /-- A node without a parent has no sibling. -/
  alone : ∀ id n, f.node id = .ok n → n.parent = none → n.nextSibling = none
  /-- No node is its own ancestor. -/
  acyclic : ∀ id, ¬ f.Ancestor id id

end Forest

end SyntaxForest
