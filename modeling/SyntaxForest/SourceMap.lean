import SyntaxForest.Forest.Basic
/-!
# Source maps

A printer registers, for each node it writes, the range of output that the node produced. Ranges must
come in the order of their starts. The first one out of order breaks the stream for good.
-/

namespace SyntaxForest

/-- A line and a column of generated text, ordered by line first. -/
structure FilePosition where
  line : Nat
  column : Nat
  deriving DecidableEq, Repr

namespace FilePosition

/-- Whether `a` comes strictly before `b`. -/
def Before (a b : FilePosition) : Prop := a.line < b.line ∨ (a.line = b.line ∧ a.column < b.column)

instance (a b : FilePosition) : Decidable (a.Before b) := inferInstanceAs (Decidable (_ ∨ _))

instance : Ord FilePosition :=
  ⟨fun a b => if a.Before b then .lt else if b.Before a then .gt else .eq⟩

/-- `line:column`. -/
def render (p : FilePosition) : String := s!"{p.line}:{p.column}"

instance : ToString FilePosition := ⟨render⟩

end FilePosition

/-- A range of generated text with the source position and the source name it came from. -/
structure Mapping where
  node : NodeId
  source : Position
  name : Option String
  start : FilePosition
  stop : FilePosition
  deriving DecidableEq, Repr

/-- The mappings registered so far, and what the next one has to respect. -/
structure Recorder where
  mappings : Array Mapping := #[]
  lastStart : Option FilePosition := none
  aborted : Bool := false
  deriving DecidableEq, Repr

/-- Why a mapping was refused. -/
inductive MappingFault
  /-- The range ends before it starts. -/
  | invalidRange (start stop : FilePosition)
  /-- The range starts before the latest accepted one. -/
  | outOfOrder (previous attempted : FilePosition)
  /-- An earlier range was out of order. -/
  | aborted
  /-- The node could not be looked at. -/
  | node (fault : Fault)
  deriving DecidableEq, Repr

/-- The wording of a refusal. -/
def MappingFault.message : MappingFault → String
  | .invalidRange start stop => s!"mapping range ends at {stop} before it starts at {start}"
  | .outOfOrder previous attempted =>
    s!"mapping at {attempted} registered after a mapping at {previous}"
  | .aborted => "mapping stream was aborted by an earlier ordering violation"
  | .node fault => fault.message

namespace Recorder

/-- The start of the latest accepted range, if `start` comes before it. -/
def overtaken? (r : Recorder) (start : FilePosition) : Option FilePosition :=
  r.lastStart.filter (start.Before ·)

/-- Registers that `node` produced the text from `start` to `stop`, and says how that went. The start of
an accepted range counts from then on, even when the node has no known position and so no mapping,
and even when there is no such node. -/
def record (r : Recorder) (f : Forest) (node : NodeId) (start stop : FilePosition) :
    Except MappingFault Unit × Recorder :=
  if r.aborted then (.error .aborted, r)
  else if stop.Before start then (.error (.invalidRange start stop), r)
  else
    match r.overtaken? start with
    | some previous => (.error (.outOfOrder previous start), { r with aborted := true })
    | none =>
      let r := { r with lastStart := some start }
      match f.node node with
      | .error fault => (.error (.node fault), r)
      | .ok n =>
        if n.position.isKnown then
          (.ok (), { r with
            mappings := r.mappings.push ⟨node, n.position, n.payload.text?, start, stop⟩ })
        else (.ok (), r)

end Recorder

end SyntaxForest
