import SyntaxForest.Forest.Attach
/-!
# Copies and structural comparison

Both work through a list of pairs still to be handled, last in first out, so the depth of a tree costs
no call depth. A tree holds at most as many nodes as its forest, which bounds the number of pairs.
-/

namespace SyntaxForest

namespace Edit

/-- Allocates a copy of a node without its links. -/
def copyNode (id : NodeId) : Edit NodeId := do
  allocate (← ask (·.node id)).detachedCopy

/-- Copies each of a list of nodes behind the last child of `parent`, and puts each pair of node and
copy in front of `pending`. -/
def copyChildren (parent : NodeId) :
    List NodeId → (pending : List (NodeId × NodeId)) → Edit (List (NodeId × NodeId))
  | [], pending => return pending
  | child :: rest, pending => do
    let copy ← copyNode child
    linkBack parent copy
    copyChildren parent rest ((child, copy) :: pending)

/-- Gives each copy in `pending` copies of its node's children, and so on down; `steps` more pairs are
allowed. -/
def copyPending : (steps : Nat) → (pending : List (NodeId × NodeId)) → Edit Unit
  | _, [] => return ()
  | 0, _ :: _ => throw .endless
  | steps + 1, (id, copy) :: pending => do
    let children ← ask (·.children id)
    copyPending steps (← copyChildren copy children pending)

/-- Allocates a copy of the tree under a node and returns its root, which stands alone. -/
def copyTree (root : NodeId) : Edit NodeId := do
  let steps ← size
  let copy ← copyNode root
  copyPending steps [(root, copy)]
  return copy

end Edit

namespace Forest

/-- Puts the pairs of two lists in front of `pending`, if the lists are equally long. -/
def pairUp? : List NodeId → List NodeId → (pending : List (NodeId × NodeId)) →
    Option (List (NodeId × NodeId))
  | [], [], pending => some pending
  | a :: as, b :: bs, pending => pairUp? as bs ((a, b) :: pending)
  | _, _, _ => none

/-- Whether the trees of each pair in `pending` agree; `steps` more pairs are allowed. -/
def comparePending (f : Forest) :
    (steps : Nat) → (pending : List (NodeId × NodeId)) → Except Fault Bool
  | _, [] => return true
  | 0, _ :: _ => throw .endless
  | steps + 1, (a, b) :: pending => do
    let left ← f.node a
    let right ← f.node b
    if left.kind = right.kind ∧ left.payload.same right.payload then
      match pairUp? (← f.children a) (← f.children b) pending with
      | some pending => comparePending f steps pending
      | none => return false
    else return false

/-- Whether the trees under two nodes have the same kinds, equal payloads and the same shape. -/
def equivalent (f : Forest) (a b : NodeId) : Except Fault Bool :=
  f.comparePending (f.size + 1) [(a, b)]

end Forest

end SyntaxForest
