import SyntaxForest.Forest.Basic
/-!
# Queries on links

Children, siblings, ancestors and roots, all read off the four links of each node. Lists are gathered
by following one link from node to node. In a forest such a walk visits no node twice, so it is cut
off with the fault `endless` after as many steps as there are nodes.
-/

namespace SyntaxForest

namespace Forest

variable (f : Forest)

/-- The kind of a node. -/
def kind (id : NodeId) : Except Fault Kind := return (← f.node id).kind

/-- The payload of a node. -/
def payload (id : NodeId) : Except Fault Payload := return (← f.node id).payload

/-- The parent of a node. -/
def parent (id : NodeId) : Except Fault (Option NodeId) := return (← f.node id).parent

/-- The first child of a node. -/
def firstChild (id : NodeId) : Except Fault (Option NodeId) := return (← f.node id).firstChild

/-- The last child of a node. -/
def lastChild (id : NodeId) : Except Fault (Option NodeId) := return (← f.node id).lastChild

/-- The sibling right after a node. -/
def nextSibling (id : NodeId) : Except Fault (Option NodeId) := return (← f.node id).nextSibling

/-- Whether a node has a child. -/
def hasChildren (id : NodeId) : Except Fault Bool := return (← f.node id).hasChildren

/-- Whether a node has exactly one child. -/
def hasOneChild (id : NodeId) : Except Fault Bool := return (← f.node id).hasOneChild

/-- Whether a node has neither a parent nor a sibling link. -/
def isDetached (id : NodeId) : Except Fault Bool := return (← f.node id).isDetached

/-- The nodes met by following `link`, behind those of `met` in reverse; `steps` more are allowed. -/
def follow (link : Node → Option NodeId) :
    (steps : Nat) → Option NodeId → (met : List NodeId) → Except Fault (List NodeId)
  | _, none, met => .ok met.reverse
  | 0, some _, _ => .error .endless
  | steps + 1, some id, met => do
    let node ← f.node id
    follow link steps (link node) (id :: met)

/-- The children of a node, in order. -/
def children (id : NodeId) : Except Fault (List NodeId) := do
  f.follow (·.nextSibling) f.size (← f.firstChild id) []

/-- The proper ancestors of a node, nearest first. -/
def ancestors (id : NodeId) : Except Fault (List NodeId) := do
  f.follow (·.parent) f.size (← f.parent id) []

/-- How many children a node has. -/
def childCount (id : NodeId) : Except Fault Nat := return (← f.children id).length

/-- The child at a place, from zero. -/
def childAt (id : NodeId) (index : Nat) : Except Fault (Option NodeId) :=
  return (← f.children id)[index]?

/-- The element right before `id` in a list. -/
def predecessor? (id : NodeId) : List NodeId → Option NodeId
  | a :: b :: rest => if b = id then some a else predecessor? id (b :: rest)
  | _ => none

/-- The sibling right before a node. -/
def previousSibling (id : NodeId) : Except Fault (Option NodeId) := do
  match ← f.parent id with
  | none => return none
  | some parent => return predecessor? id (← f.children parent)

/-- The place of a node among the children of its parent. -/
def indexOfChild (id : NodeId) : Except Fault (Option Nat) := do
  match ← f.parent id with
  | none => return none
  | some parent => return (← f.children parent).idxOf? id

/-- Whether `ancestor` is a proper ancestor of `id`. -/
def isAncestorOf (ancestor id : NodeId) : Except Fault Bool :=
  return (← f.ancestors id).contains ancestor

/-- The topmost ancestor of a node, or the node itself when it has no parent. -/
def rootOf (id : NodeId) : Except Fault NodeId := return (← f.ancestors id).getLastD id

/-- Whether linking `child` under `parent` would close a cycle. -/
def wouldCreateCycle (parent child : NodeId) : Except Fault Bool :=
  if parent = child then .ok true else f.isAncestorOf child parent

end Forest

end SyntaxForest
