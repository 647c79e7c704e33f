import SyntaxForest.Forest.Queries
/-!
# Traversal

Nodes of a tree in pre-order, found by stepping from each node to the next along links alone; counts
built on that order; and walks that call a visitor on the way into and out of each node.
-/

namespace SyntaxForest

namespace Forest

variable (f : Forest)

/-- The next node after the subtree of `id`, inside the tree under `root`: its sibling, or that of the
nearest ancestor that has one. -/
def climb (root : NodeId) : (steps : Nat) → NodeId → Except Fault (Option NodeId)
  | 0, _ => .error .endless
  | steps + 1, id => do
    if id = root then return none
    else
      let node ← f.node id
      match node.nextSibling, node.parent with
      | some sibling, _ => return some sibling
      | none, some parent => climb root steps parent
      | none, none => return none

/-- The node after `id` in the pre-order of the tree under `root`. -/
def successor (root id : NodeId) : Except Fault (Option NodeId) := do
  match ← f.firstChild id with
  | some child => return some child
  | none => f.climb root f.size id

/-- The pre-order from a node on, behind the nodes of `met` in reverse. -/
def preorderFrom (root : NodeId) :
    (steps : Nat) → Option NodeId → (met : List NodeId) → Except Fault (List NodeId)
  | _, none, met => .ok met.reverse
  | 0, some _, _ => .error .endless
  | steps + 1, some id, met => do
    preorderFrom root steps (← f.successor root id) (id :: met)

/-- The nodes of the tree under `root`, each before its children. -/
def preorder (root : NodeId) : Except Fault (List NodeId) :=
  f.preorderFrom root (f.size + 1) (some root) []

/-- How many nodes the tree under `root` has. -/
def countNodes (root : NodeId) : Except Fault Nat := return (← f.preorder root).length

end Forest

/-- How often each kind occurs, in the order of kinds; a kind that does not occur has no entry. -/
structure Histogram where
  entries : List (Kind × Nat) := []
  deriving DecidableEq, Repr

namespace Histogram

/-- Counts one more in a list of entries. -/
def bump (kind : Kind) : List (Kind × Nat) → List (Kind × Nat)
  | [] => [(kind, 1)]
  | (k, n) :: rest =>
    if k = kind then (k, n + 1) :: rest
    else if kind.index < k.index then (kind, 1) :: (k, n) :: rest
    else (k, n) :: bump kind rest

/-- Counts one more node of a kind. -/
def add (h : Histogram) (kind : Kind) : Histogram := ⟨bump kind h.entries⟩

/-- How often a kind occurs, if it does. -/
def count? (h : Histogram) (kind : Kind) : Option Nat := h.entries.lookup kind

end Histogram

namespace Forest

/-- How often each kind occurs in the tree under `root`. -/
def histogram (f : Forest) (root : NodeId) : Except Fault Histogram := do
  (← f.preorder root).foldlM (fun h id => return h.add (← f.kind id)) {}

end Forest

/-- A visitor's answer on entering a node: go on to the children, or leave at once. -/
inductive Descent
  | descend | skip
  deriving DecidableEq, Repr

/-- What is done on entering and on leaving a node, with a state that is handed on from call to call. -/
structure Visitor (σ : Type) where
  enter : Forest → NodeId → σ → Except Fault (Descent × σ) := fun _ _ state => .ok (.descend, state)
  leave : Forest → NodeId → σ → Except Fault σ := fun _ _ state => .ok state

/-- A call of a visitor that is still to be made. -/
inductive Visit
  | enter (id : NodeId)
  | leave (id : NodeId)
  deriving DecidableEq, Repr

namespace Forest

/-- Makes the calls in `pending` and those they lead to; `steps` more calls from the list are allowed. -/
def walkPending {σ : Type} (f : Forest) (visitor : Visitor σ) :
    (steps : Nat) → (pending : List Visit) → σ → Except Fault σ
  | _, [], state => .ok state
  | 0, _ :: _, _ => .error .endless
  | steps + 1, .leave id :: pending, state => do
    walkPending f visitor steps pending (← visitor.leave f id state)
  | steps + 1, .enter id :: pending, state => do
    match ← visitor.enter f id state with
    | (.skip, state) => walkPending f visitor steps pending (← visitor.leave f id state)
    | (.descend, state) =>
      let children ← f.children id
      walkPending f visitor steps (children.map .enter ++ .leave id :: pending) state

/-- Visits the tree under `root`: enters each node, then its children unless they are skipped, then
leaves it. Each node is handled at most twice. -/
def walk {σ : Type} (f : Forest) (root : NodeId) (visitor : Visitor σ) (state : σ) : Except Fault σ :=
  f.walkPending visitor (2 * f.size + 1) [.enter root] state

end Forest

end SyntaxForest
