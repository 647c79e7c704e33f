import SyntaxForest.NodeId
/-!
# Trees of handles

The shape of the tree under a node, as a value: a handle and the trees of its children in order. Here
recursion goes along the tree itself, so these definitions say plainly what the walks along links have
to compute.
-/

namespace SyntaxForest

/-- A node and the trees of its children, in order. -/
inductive Tree
  | node (id : NodeId) (children : List Tree)

namespace Tree

/-- The node at the top. -/
def root : Tree → NodeId
  | .node id _ => id

/-- The nodes at the top of each of a list of trees. -/
def roots (ts : List Tree) : List NodeId := ts.map root

mutual

/-- The nodes of a tree, each before its children. -/
def preorder : Tree → List NodeId
  | .node id ts => id :: preorderAll ts

/-- The nodes of a list of trees, tree after tree. -/
def preorderAll : List Tree → List NodeId
  | [] => []
  | t :: ts => t.preorder ++ preorderAll ts

end

mutual

/-- The nodes of a tree, each after its children. -/
def postorder : Tree → List NodeId
  | .node id ts => postorderAll ts ++ [id]

/-- The nodes of a list of trees, tree after tree, each after its children. -/
def postorderAll : List Tree → List NodeId
  | [] => []
  | t :: ts => t.postorder ++ postorderAll ts

end

mutual

/-- How many nodes a tree has. -/
def size : Tree → Nat
  | .node _ ts => sizeAll ts + 1

/-- How many nodes a list of trees has. -/
def sizeAll : List Tree → Nat
  | [] => 0
  | t :: ts => t.size + sizeAll ts

end

@[simp] theorem root_node (id : NodeId) (ts : List Tree) : (node id ts).root = id := rfl

@[simp] theorem roots_nil : roots [] = [] := rfl

@[simp] theorem roots_cons (t : Tree) (ts : List Tree) : roots (t :: ts) = t.root :: roots ts := rfl

@[simp] theorem roots_append (ts us : List Tree) : roots (ts ++ us) = roots ts ++ roots us := List.map_append

@[simp] theorem length_roots (ts : List Tree) : (roots ts).length = ts.length := by simp [roots]

theorem preorderAll_eq_flatMap (ts : List Tree) : preorderAll ts = ts.flatMap preorder := by
  induction ts with
  | nil => rfl
  | cons t ts ih => simp [preorderAll, ih]

mutual

@[simp] theorem length_preorder : (t : Tree) → t.preorder.length = t.size
  | .node id ts => by simp [preorder, size, length_preorderAll ts]

@[simp] theorem length_preorderAll : (ts : List Tree) → (preorderAll ts).length = sizeAll ts
  | [] => rfl
  | t :: ts => by simp [preorderAll, sizeAll, length_preorder t, length_preorderAll ts]

end

theorem size_pos (t : Tree) : 0 < t.size := by
  cases t with
  | node id ts => simp [size]

theorem root_mem_preorder (t : Tree) : t.root ∈ t.preorder := by
  cases t with
  | node id ts => simp [preorder]

theorem mem_preorder_of_mem {id x : NodeId} {t : Tree} {ts : List Tree} (ht : t ∈ ts) (hx : x ∈ t.preorder) :
    x ∈ (node id ts).preorder := by
  rw [preorder, preorderAll_eq_flatMap]
  exact List.mem_cons_of_mem _ (List.mem_flatMap.2 ⟨t, ht, hx⟩)

end Tree

end SyntaxForest
