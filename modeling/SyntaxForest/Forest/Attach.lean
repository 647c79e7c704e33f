import SyntaxForest.Forest.Queries
/-!
# Attaching nodes

A node may be linked under a parent when it stands alone and when the link closes no cycle. All checks
come before the first change.
-/

namespace SyntaxForest

namespace Forest

/-- Whether `child` may be linked under `parent`. A node without children cannot be an ancestor, so the
walk up from `parent` is made only for a child with children. The walk is a debug assertion: this is the check
of a build with debug assertions. A build without them leaves the walk out, and would link a node under its own
descendant. -/
def checkAttachable (f : Forest) (operation : Operation) (parent child : NodeId) :
    Except Fault Unit := do
  let node ← f.node child
  if node.parent.isSome then .error (.link child operation .hasParent)
  else if node.nextSibling.isSome then .error (.link child operation .hasSibling)
  else if parent = child then .error (.link child operation .ownParent)
  else if node.hasChildren then do
    if ← f.isAncestorOf child parent then .error (.link child operation .ownDescendant) else .ok ()
  else .ok ()

/-- Whether all of a list may be linked under `parent`, given those `seen` before it. -/
def checkAllAttachable (f : Forest) (operation : Operation) (parent : NodeId) (seen : List NodeId) :
    List NodeId → Except Fault Unit
  | [] => .ok ()
  | child :: rest => do
    f.checkAttachable operation parent child
    if seen.contains child then .error (.link child operation .listedTwice)
    else checkAllAttachable f operation parent (child :: seen) rest

/-- Whether all of a list stand alone and occur once, given those `seen` before it. -/
def checkAllDetached (f : Forest) (operation : Operation) (seen : List NodeId) :
    List NodeId → Except Fault Unit
  | [] => .ok ()
  | child :: rest => do
    if ← f.isDetached child then
      if seen.contains child then .error (.link child operation .listedTwice)
      else checkAllDetached f operation (child :: seen) rest
    else .error (.link child operation .attached)

end Forest

namespace Edit

/-- Points the link to a place among the children of `parent` at `target`. That is the sibling link of
the node before the place, or the first-child link of `parent` when no node is before it. -/
def point (parent : NodeId) (before target : Option NodeId) : Edit Unit :=
  match before with
  | some before => change before fun n => { n with nextSibling := target }
  | none => change parent fun n => { n with firstChild := target }

/-- Links `child` behind the last child of `parent`, unchecked. -/
def linkBack (parent child : NodeId) : Edit Unit := do
  let last ← ask (·.lastChild parent)
  change child fun n => { n with parent := some parent }
  point parent last (some child)
  change parent fun n => { n with lastChild := some child }

/-- Links `child` as the first child of `parent`. -/
def prependChild (parent child : NodeId) : Edit Unit := do
  ask (·.checkAttachable .prependChild parent child)
  let first ← ask (·.firstChild parent)
  change child fun n => { n with parent := some parent, nextSibling := first }
  change parent fun n =>
    { n with firstChild := some child, lastChild := n.lastChild.or (some child) }

/-- Links `child` as the last child of `parent`. -/
def appendChild (parent child : NodeId) : Edit Unit := do
  ask (·.checkAttachable .appendChild parent child)
  linkBack parent child

/-- Links all of `children` behind the last child of `parent`, in order; all or none. -/
def appendChildren (parent : NodeId) (children : List NodeId) : Edit Unit := do
  ask (·.checkAllAttachable .appendChildren parent [] children)
  children.forM (linkBack parent)

/-- Links `child` right after `sibling`, under the same parent. -/
def insertAfter (child sibling : NodeId) : Edit Unit := do
  match ← ask (·.parent sibling) with
  | none => refuse sibling .insertAfter .siblingHasNoParent
  | some parent =>
    ask (·.checkAttachable .insertAfter parent child)
    let next ← ask (·.nextSibling sibling)
    change child fun n => { n with parent := some parent, nextSibling := next }
    change sibling fun n => { n with nextSibling := some child }
    change parent fun n =>
      { n with lastChild := if n.lastChild = some sibling then some child else n.lastChild }

/-- Links `child` right before `sibling`, under the same parent. -/
def insertBefore (child sibling : NodeId) : Edit Unit := do
  match ← ask (·.parent sibling) with
  | none => refuse sibling .insertBefore .siblingHasNoParent
  | some parent =>
    match ← ask (·.previousSibling sibling) with
    | some previous => insertAfter child previous
    | none => prependChild parent child

end Edit

end SyntaxForest
