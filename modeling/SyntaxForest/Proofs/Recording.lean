import SyntaxForest.SourceMap
/-!
# Histories of a recorder

What a recorder does with a registration depends on its history: on whether an earlier one was out of order,
and on the start of the latest accepted one, which is also the largest. Registrations of nodes without a
known position count here, and so do registrations of nodes that do not exist. Hence the mappings are always
in order of their starts. After one registration out of order they never change again.
-/

namespace SyntaxForest

/-! ## Registrations and their log -/

/-- One registration, with the forest as it is at that moment. Between two registrations the forest may
change in any way. -/
structure Registration where
  forest : Forest
  node : NodeId
  start : FilePosition
  stop : FilePosition

namespace Registration

/-- The mapping that the registration makes, if its node exists and has a known position. -/
def mapping? (c : Registration) : Option Mapping :=
  match c.forest.node c.node with
  | .ok n =>
    if n.position.isKnown then some ⟨c.node, n.position, n.payload.text?, c.start, c.stop⟩ else none
  | .error _ => none

/-- How the registration goes once its range is accepted. -/
def reading (c : Registration) : Except MappingFault Unit :=
  match c.forest.node c.node with
  | .ok _ => .ok ()
  | .error fault => .error (.node fault)

end Registration

/-- A registration and how it went. -/
structure LogEntry where
  call : Registration
  outcome : Except MappingFault Unit

namespace LogEntry

/-- Whether the range was accepted. A node that does not exist is noticed only after that. -/
def accepted (e : LogEntry) : Bool :=
  match e.outcome with
  | .ok _ | .error (.node _) => true
  | .error (.invalidRange _ _) | .error (.outOfOrder _ _) | .error .aborted => false

/-- Whether the range was out of order. -/
def violates (e : LogEntry) : Bool :=
  match e.outcome with
  | .error (.outOfOrder _ _) => true
  | _ => false

end LogEntry

namespace Recorder

/-- Makes a registration. -/
def register (r : Recorder) (c : Registration) : Except MappingFault Unit × Recorder :=
  r.record c.forest c.node c.start c.stop

/-- The recorder after registrations made one after the other. -/
def feed (r : Recorder) (calls : List Registration) : Recorder :=
  calls.foldl (fun r c => (r.register c).2) r

/-- How registrations go that are made one after the other. -/
def log (r : Recorder) : List Registration → List LogEntry
  | [] => []
  | c :: rest => ⟨c, (r.register c).1⟩ :: log (r.register c).2 rest

end Recorder

/-- The accepted registrations of a log. -/
def acceptedCalls (log : List LogEntry) : List Registration := (log.filter (·.accepted)).map (·.call)

/-- The start of the latest accepted registration. -/
def latestStart (log : List LogEntry) : Option FilePosition := (acceptedCalls log).getLast?.map (·.start)

/-- Whether some registration was out of order. -/
def Violated (log : List LogEntry) : Prop := ∃ e ∈ log, e.violates = true

/-! ## One registration -/

variable {r : Recorder} {c : Registration} {log : List LogEntry}

theorem FilePosition.not_before_self (a : FilePosition) : ¬ a.Before a := by
  unfold Before
  omega

theorem FilePosition.not_before_trans {a b c : FilePosition} (hab : ¬ b.Before a) (hbc : ¬ c.Before b) :
    ¬ c.Before a := by
  unfold Before at *
  omega

theorem acceptedCalls_concat (log : List LogEntry) (e : LogEntry) :
    acceptedCalls (log ++ [e]) = acceptedCalls log ++ if e.accepted then [e.call] else [] := by
  by_cases h : e.accepted <;> simp [acceptedCalls, List.filter_append, h]

theorem violated_concat {e : LogEntry} : Violated (log ++ [e]) ↔ Violated log ∨ e.violates = true := by
  simp [Violated, or_and_right, exists_or]

namespace Recorder

theorem register_of_aborted (h : r.aborted = true) : r.register c = (.error .aborted, r) := by
  simp [register, record, h]

theorem register_of_reversed (h : r.aborted = false) (hrange : c.stop.Before c.start) :
    r.register c = (.error (.invalidRange c.start c.stop), r) := by
  simp [register, record, h, hrange]

theorem register_of_overtaken {latest : FilePosition} (h : r.aborted = false)
    (hrange : ¬ c.stop.Before c.start) (hlast : r.lastStart = some latest)
    (hbefore : c.start.Before latest) :
    r.register c = (.error (.outOfOrder latest c.start), { r with aborted := true }) := by
  have hsome : r.overtaken? c.start = some latest := by
    simp [overtaken?, hlast, Option.filter, hbefore]
  simp [register, record, h, hrange, hsome]

theorem register_of_ordered (h : r.aborted = false) (hrange : ¬ c.stop.Before c.start)
    (hlast : ∀ latest, r.lastStart = some latest → ¬ c.start.Before latest) :
    r.register c = (c.reading,
      { r with lastStart := some c.start, mappings := r.mappings ++ c.mapping?.toArray }) := by
  have hnone : r.overtaken? c.start = none := by
    simpa [overtaken?] using hlast
  cases hn : c.forest.node c.node with
  | error fault =>
    simp [register, record, h, hrange, hnone, Registration.reading, Registration.mapping?, hn]
  | ok n =>
    by_cases hk : n.position.isKnown <;>
      simp [register, record, h, hrange, hnone, Registration.reading, Registration.mapping?, hn, hk]

end Recorder

theorem Registration.accepted_reading (c : Registration) : (⟨c, c.reading⟩ : LogEntry).accepted = true := by
  unfold reading LogEntry.accepted
  cases c.forest.node c.node <;> rfl

theorem Registration.not_violates_reading (c : Registration) :
    (⟨c, c.reading⟩ : LogEntry).violates = false := by
  unfold reading LogEntry.violates
  cases c.forest.node c.node <;> rfl

/-! ## The recorder agrees with its log -/

/-- What a recorder keeps of its log. -/
structure Recorder.Agrees (r : Recorder) (log : List LogEntry) : Prop where
  lastStart : r.lastStart = latestStart log
  aborted : r.aborted = true ↔ Violated log
  mappings : r.mappings.toList = (acceptedCalls log).filterMap (·.mapping?)
  ordered : (acceptedCalls log).Pairwise fun a b => ¬ b.start.Before a.start
  ranges : ∀ c ∈ acceptedCalls log, ¬ c.stop.Before c.start

namespace Recorder

theorem agrees_new : Agrees {} [] where
  lastStart := rfl
  aborted := by simp [Violated]
  mappings := rfl
  ordered := .nil
  ranges := nofun

namespace Agrees

/-- The accepted registrations are in order of their starts, so the latest start is the largest. -/
theorem largest (h : r.Agrees log) {latest : FilePosition} (hlast : latestStart log = some latest)
    (hc : c ∈ acceptedCalls log) : ¬ latest.Before c.start := by
  obtain ⟨d, hd, rfl⟩ := Option.map_eq_some_iff.1 hlast
  obtain ⟨before, hcalls⟩ := List.getLast?_eq_some_iff.1 hd
  have hordered := h.ordered
  rw [hcalls] at hordered hc
  rcases List.mem_append.1 hc with hc | hc
  · exact (List.pairwise_append.1 hordered).2.2 c hc d List.mem_cons_self
  · rw [List.mem_singleton.1 hc]
    exact d.start.not_before_self

theorem not_aborted (h : r.Agrees log) (hv : ¬ Violated log) : r.aborted = false := by
  have := mt h.aborted.1 hv
  simpa using this

/-- A range that does not start before the latest accepted one starts before none of them. -/
theorem not_before_accepted (h : r.Agrees log)
    (hlast : ∀ latest, latestStart log = some latest → ¬ c.start.Before latest) {d : Registration}
    (hd : d ∈ acceptedCalls log) : ¬ c.start.Before d.start := by
  cases hl : latestStart log with
  | none =>
    have hempty : acceptedCalls log = [] := by simpa [latestStart] using hl
    simp [hempty] at hd
  | some latest => exact FilePosition.not_before_trans (h.largest hl hd) (hlast latest hl)

/-- A registration that is not accepted can only break the stream. -/
theorem refused (h : r.Agrees log) {e : LogEntry} {b : Bool} (haccepted : e.accepted = false)
    (hb : b = true ↔ r.aborted = true ∨ e.violates = true) :
    { r with aborted := b }.Agrees (log ++ [e]) := by
  have hcalls : acceptedCalls (log ++ [e]) = acceptedCalls log := by
    simp [acceptedCalls_concat, haccepted]
  constructor
  · rw [latestStart, hcalls]
    exact h.lastStart
  · rw [violated_concat, ← h.aborted]
    exact hb
  · rw [hcalls]
    exact h.mappings
  · rw [hcalls]
    exact h.ordered
  · rw [hcalls]
    exact h.ranges

/-- An accepted registration becomes the latest one and adds its mapping. -/
theorem ordered_concat (h : r.Agrees log) (hrange : ¬ c.stop.Before c.start)
    (hlast : ∀ latest, latestStart log = some latest → ¬ c.start.Before latest) :
    { r with lastStart := some c.start, mappings := r.mappings ++ c.mapping?.toArray }.Agrees
      (log ++ [(⟨c, c.reading⟩ : LogEntry)]) := by
  have hcalls : acceptedCalls (log ++ [⟨c, c.reading⟩]) = acceptedCalls log ++ [c] := by
    simp [acceptedCalls_concat, c.accepted_reading]
  constructor
  · simp [latestStart, hcalls]
  · simp [violated_concat, c.not_violates_reading, h.aborted]
  · rw [hcalls, List.filterMap_append, ← h.mappings]
    cases hm : c.mapping? <;> simp [hm]
  · rw [hcalls]
    refine List.pairwise_append.2 ⟨h.ordered, List.pairwise_singleton _ _, ?_⟩
    intro d hd c' hc'
    rw [List.mem_singleton.1 hc']
    exact h.not_before_accepted hlast hd
  · intro d hd
    rw [hcalls] at hd
    rcases List.mem_append.1 hd with hd | hd
    · exact h.ranges d hd
    · rw [List.mem_singleton.1 hd]
      exact hrange

/-- One more registration. -/
theorem register (h : r.Agrees log) (c : Registration) :
    (r.register c).2.Agrees (log ++ [⟨c, (r.register c).1⟩]) := by
  cases habort : r.aborted with
  | true =>
    rw [register_of_aborted habort]
    exact h.refused rfl (by simp [LogEntry.violates])
  | false =>
    by_cases hrange : c.stop.Before c.start
    · rw [register_of_reversed habort hrange]
      exact h.refused rfl (by simp [LogEntry.violates])
    by_cases hover : ∃ latest, r.lastStart = some latest ∧ c.start.Before latest
    · obtain ⟨latest, hlast, hbefore⟩ := hover
      rw [register_of_overtaken habort hrange hlast hbefore]
      exact h.refused rfl (by simp [LogEntry.violates])
    · have hlast : ∀ latest, r.lastStart = some latest → ¬ c.start.Before latest :=
        fun latest hl hb => hover ⟨latest, hl, hb⟩
      rw [register_of_ordered habort hrange hlast]
      exact h.ordered_concat hrange (h.lastStart ▸ hlast)

/-- Any number of registrations more. -/
theorem feed (h : r.Agrees log) (calls : List Registration) :
    (r.feed calls).Agrees (log ++ r.log calls) := by
  induction calls generalizing r log with
  | nil => simpa [Recorder.feed, Recorder.log] using h
  | cons c rest ih => simpa [Recorder.feed, Recorder.log] using ih (h.register c)

end Agrees

/-- After a registration out of order every later one is refused, and the recorder stays as it is. -/
theorem feed_of_aborted (h : r.aborted = true) (later : List Registration) :
    (∀ e ∈ r.log later, e.outcome = .error .aborted) ∧ r.feed later = r := by
  induction later with
  | nil => simp [Recorder.log, Recorder.feed]
  | cons c rest ih => simpa [Recorder.log, Recorder.feed, register_of_aborted h] using ih

end Recorder

theorem Registration.range_of_mapping? {m : Mapping} (h : c.mapping? = some m) :
    m.start = c.start ∧ m.stop = c.stop := by
  unfold mapping? at h
  cases hn : c.forest.node c.node with
  | error fault => simp [hn] at h
  | ok n =>
    obtain ⟨-, rfl⟩ : n.position.isKnown = true ∧ _ = m := by simpa [hn] using h
    exact ⟨rfl, rfl⟩

/-! ## The contract -/

/-- What a recorder with the given log does next, and what its mappings are. -/
structure Recorder.KeepsOrder (r : Recorder) (log : List LogEntry) : Prop where
  /-- A range that ends before it starts is refused and changes nothing, wherever it starts. -/
  reversed : ∀ c : Registration, ¬ Violated log → c.stop.Before c.start →
    r.register c = (.error (.invalidRange c.start c.stop), r)
  /-- A range that starts before the latest accepted one is out of order. -/
  overtaken : ∀ (c : Registration) (latest : FilePosition), ¬ Violated log → ¬ c.stop.Before c.start →
    latestStart log = some latest → c.start.Before latest →
    (r.register c).1 = .error (.outOfOrder latest c.start) ∧ (r.register c).2.mappings = r.mappings
  /-- Any other range is accepted and becomes the latest one. It adds one mapping if its node has a known
  position, and none otherwise. -/
  accepted : ∀ c : Registration, ¬ Violated log → ¬ c.stop.Before c.start →
    (∀ latest, latestStart log = some latest → ¬ c.start.Before latest) →
    latestStart (log ++ [⟨c, (r.register c).1⟩]) = some c.start ∧
    (∀ n, c.forest.node c.node = .ok n → (r.register c).1 = .ok () ∧
      (r.register c).2.mappings = if n.position.isKnown
        then r.mappings.push ⟨c.node, n.position, n.payload.text?, c.start, c.stop⟩ else r.mappings) ∧
    (∀ fault, c.forest.node c.node = .error fault →
      (r.register c).1 = .error (.node fault) ∧ (r.register c).2.mappings = r.mappings)
  /-- The latest accepted start is the largest. -/
  largest : ∀ latest, latestStart log = some latest → ∀ c ∈ acceptedCalls log, ¬ latest.Before c.start
  /-- After a range out of order every registration is refused and nothing changes any more. -/
  broken : Violated log → ∀ later : List Registration,
    (∀ e ∈ r.log later, e.outcome = .error .aborted) ∧ r.feed later = r
  /-- The mappings are those of the accepted registrations, in their order. -/
  mappings : r.mappings.toList = (acceptedCalls log).filterMap (·.mapping?)
  /-- The mappings are in order of their starts. -/
  sorted : r.mappings.toList.Pairwise fun a b => ¬ b.start.Before a.start
  /-- No mapping ends before it starts. -/
  ranges : ∀ m ∈ r.mappings.toList, ¬ m.stop.Before m.start

theorem Recorder.Agrees.keepsOrder (h : r.Agrees log) : r.KeepsOrder log where
  reversed c hv hrange := register_of_reversed (h.not_aborted hv) hrange
  overtaken c latest hv hrange hlast hbefore := by
    rw [register_of_overtaken (h.not_aborted hv) hrange (h.lastStart.trans hlast) hbefore]
    exact ⟨rfl, rfl⟩
  accepted c hv hrange hlast := by
    have hagrees := h.ordered_concat hrange hlast
    rw [register_of_ordered (h.not_aborted hv) hrange (h.lastStart ▸ hlast)]
    refine ⟨hagrees.lastStart.symm, fun n hn => ?_, fun fault hn => ?_⟩
    · by_cases hk : n.position.isKnown <;>
        simp [Registration.reading, Registration.mapping?, hn, hk]
    · simp [Registration.reading, Registration.mapping?, hn]
  largest latest hlast c hc := h.largest hlast hc
  broken hv := feed_of_aborted (h.aborted.2 hv)
  mappings := h.mappings
  sorted := by
    rw [h.mappings, List.pairwise_filterMap]
    refine h.ordered.imp fun hab m hm n hn => ?_
    rw [(Registration.range_of_mapping? hm).1, (Registration.range_of_mapping? hn).1]
    exact hab
  ranges m hm := by
    rw [h.mappings] at hm
    obtain ⟨c, hc, hm⟩ := List.mem_filterMap.1 hm
    obtain ⟨hstart, hstop⟩ := Registration.range_of_mapping? hm
    rw [hstart, hstop]
    exact h.ranges c hc

/-- Every recorder keeps its contract on order, whatever registrations it has seen and however the forest
changed in between. -/
theorem recorder_keepsOrder (calls : List Registration) :
    (Recorder.feed {} calls).KeepsOrder (Recorder.log {} calls) := by
  have h := Recorder.agrees_new.feed calls
  rw [List.nil_append] at h
  exact h.keepsOrder

/-- A node that does not exist is noticed only after its range counts, so the next range is out of order. -/
example : (Recorder.log {} [⟨{}, ⟨0⟩, ⟨2, 0⟩, ⟨2, 4⟩⟩, ⟨{}, ⟨0⟩, ⟨1, 0⟩, ⟨1, 4⟩⟩]).map (·.violates) =
    [false, true] := by decide

end SyntaxForest
