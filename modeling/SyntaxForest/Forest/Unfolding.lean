import SyntaxForest.Forest.Copy
import SyntaxForest.Forest.Render
import SyntaxForest.Forest.Traversal
import SyntaxForest.Tree
/-!
# Trees in a forest

When a forest has a given tree, and what visiting, comparing and rendering mean by recursion on that
tree. The walks of `Traversal`, `Copy` and `Render` keep lists of pending work instead.
-/

namespace SyntaxForest

namespace Tree

mutual

/-- Whether a forest has the tree: each node of the tree has exactly the children that the tree gives
it, in the same order. -/
def In (f : Forest) : Tree → Prop
  | .node id ts => f.children id = .ok (roots ts) ∧ AllIn f ts

/-- Whether a forest has all of a list of trees. -/
def AllIn (f : Forest) : List Tree → Prop
  | [] => True
  | t :: ts => t.In f ∧ AllIn f ts

end

mutual

/-- Visits a tree: enters its root, visits the trees below unless they are skipped, leaves the root. -/
def visit {σ : Type} (f : Forest) (visitor : Visitor σ) : Tree → σ → Except Fault σ
  | .node id ts, state => do
    match ← visitor.enter f id state with
    | (.skip, state) => visitor.leave f id state
    | (.descend, state) => do
      let state ← visitAll f visitor ts state
      visitor.leave f id state

/-- Visits a list of trees, one after the other. -/
def visitAll {σ : Type} (f : Forest) (visitor : Visitor σ) : List Tree → σ → Except Fault σ
  | [], state => .ok state
  | t :: ts, state => do
    let state ← visit f visitor t state
    visitAll f visitor ts state

end

/-- Whether two nodes agree in kind and payload. -/
def SameNode (f : Forest) (a b : NodeId) : Prop :=
  ∃ m n, f.node a = .ok m ∧ f.node b = .ok n ∧ m.kind = n.kind ∧ m.payload.same n.payload = true

mutual

/-- Whether two trees have the same shape and agree node by node. -/
def Same (f : Forest) : Tree → Tree → Prop
  | .node a as, .node b bs => SameNode f a b ∧ AllSame f as bs

/-- Whether two lists of trees are equally long and agree tree by tree. -/
def AllSame (f : Forest) : List Tree → List Tree → Prop
  | [], [] => True
  | a :: as, b :: bs => Same f a b ∧ AllSame f as bs
  | _, _ => False

end

mutual

/-- The lines of a tree: that of its root, then those of the trees below, one level deeper. -/
def render (f : Forest) (options : RenderOptions) : Tree → (depth : Nat) → Except Fault String
  | .node id ts, depth => do
    let line ← f.renderListed options id depth
    let rest ← renderAll f options ts (depth + 1)
    return line ++ rest

/-- The lines of a list of trees. -/
def renderAll (f : Forest) (options : RenderOptions) : List Tree → (depth : Nat) → Except Fault String
  | [], _ => .ok ""
  | t :: ts, depth => do
    let first ← render f options t depth
    let rest ← renderAll f options ts depth
    return first ++ rest

end

theorem in_node {f : Forest} {id : NodeId} {ts : List Tree} :
    (node id ts).In f ↔ f.children id = .ok (roots ts) ∧ ∀ t ∈ ts, t.In f := by
  have all : ∀ ts : List Tree, AllIn f ts ↔ ∀ t ∈ ts, t.In f := by
    intro ts
    induction ts with
    | nil => simp [AllIn]
    | cons t ts ih => simp [AllIn, ih]
  rw [In, all]

end Tree

end SyntaxForest
