import SyntaxForest.Forest.Attach
/-!
# Detaching and replacing nodes

A detached node has neither a parent nor a sibling link, and keeps its own children.
-/

namespace SyntaxForest

namespace Edit

/-- Takes `child` out of the chain of `parent`'s children, unchecked. -/
def unlink (parent child : NodeId) : Edit Unit := do
  let previous ← ask (·.previousSibling child)
  let next ← ask (·.nextSibling child)
  point parent previous next
  change parent fun n =>
    { n with lastChild := if n.lastChild = some child then previous else n.lastChild }
  change child fun n => { n with parent := none, nextSibling := none }

/-- Takes a node away from its parent. -/
def detach (id : NodeId) : Edit Unit := do
  match ← ask (·.parent id) with
  | none => refuse id .detach .noParent
  | some parent => unlink parent id

/-- Takes `child` away from `parent`. -/
def removeChild (parent child : NodeId) : Edit Unit := do
  if (← ask (·.parent child)) = some parent then unlink parent child
  else refuse child .removeChild (.notChildOf parent)

/-- Takes the first child away, if there is one. -/
def removeFirstChild (parent : NodeId) : Edit (Option NodeId) := do
  match ← ask (·.firstChild parent) with
  | none => return none
  | some first =>
    unlink parent first
    return some first

/-- Takes all children away and returns them in order. -/
def detachChildren (parent : NodeId) : Edit (List NodeId) := do
  let children ← ask (·.children parent)
  children.forM fun child => change child fun n => { n with parent := none, nextSibling := none }
  change parent fun n => { n with firstChild := none, lastChild := none }
  return children

/-- Puts `replacement` in the place of `old` and detaches `old`. -/
def replaceWith (old replacement : NodeId) : Edit Unit := do
  match ← ask (·.parent old) with
  | none => refuse old .replaceWith .noParent
  | some parent =>
    ask (·.checkAttachable .replaceWith parent replacement)
    let previous ← ask (·.previousSibling old)
    let next ← ask (·.nextSibling old)
    change replacement fun n => { n with parent := some parent, nextSibling := next }
    point parent previous (some replacement)
    change parent fun n =>
      { n with lastChild := if n.lastChild = some old then some replacement else n.lastChild }
    change old fun n => { n with parent := none, nextSibling := none }

end Edit

end SyntaxForest
