import SyntaxForest.Forest.Traversal
/-!
# Logs of walks

A visitor that writes down each call, and that skips the children of chosen kinds and nodes.
-/

namespace SyntaxForest

/-- Which calls are logged, and whose children are skipped. -/
structure WalkLog where
  onEnter : Bool := true
  onLeave : Bool := true
  skipKinds : List Kind := []
  skipNodes : List NodeId := []

namespace WalkLog

/-- One line of a log: a sign for the direction, the node and its kind. -/
def line (sign : String) (f : Forest) (id : NodeId) : Except Fault String := do
  let kind ← f.kind id
  return s!"{sign}{id.index} {kind}"

/-- The visitor that writes the log. A call that is not logged does nothing and skips nothing. -/
def visitor (log : WalkLog) : Visitor (Array String) where
  enter f id lines :=
    if log.onEnter then do
      let lines := lines.push (← line "+" f id)
      let skip := log.skipKinds.contains (← f.kind id) || log.skipNodes.contains id
      return (if skip then .skip else .descend, lines)
    else .ok (.descend, lines)
  leave f id lines :=
    if log.onLeave then return lines.push (← line "-" f id) else .ok lines

/-- The log of a walk through the tree under `root`. -/
def run (log : WalkLog) (f : Forest) (root : NodeId) : Except Fault (Array String) :=
  f.walk root log.visitor #[]

end WalkLog

end SyntaxForest
