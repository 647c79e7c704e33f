import SyntaxForest.Proofs.Payloads
import SyntaxForest.Proofs.Runs
/-!
# Kinds decide about payloads

The kind that a node is allocated with says for good what can be read from the node and written to it. A
value that is written stays until another is written over it, whatever else is done in between.
-/

namespace SyntaxForest

open Edit

variable {f : Forest} {x : NodeId} {k : Kind} {p : Payload} {commands : List Command}

/-! ## Reading and writing -/

namespace Forest

/-- The payload of `x` has the given shape. -/
def Carries (f : Forest) (x : NodeId) (shape : Shape) : Prop := ∃ p, f.payload x = .ok p ∧ p.shape = shape

theorem WellShaped.carries_iff (hf : f.WellShaped) {shape : Shape} :
    f.Carries x shape ↔ ∃ k, f.kind x = .ok k ∧ k.shape = shape := by
  constructor
  · rintro ⟨p, hp, hshape⟩
    obtain ⟨n, hn, rfl⟩ := read_eq_ok_iff.1 hp
    exact ⟨n.kind, read_eq_ok_iff.2 ⟨n, hn, rfl⟩, (hf hn).symm.trans hshape⟩
  · rintro ⟨k, hk, hshape⟩
    obtain ⟨n, hn, rfl⟩ := read_eq_ok_iff.1 hk
    exact ⟨n.payload, read_eq_ok_iff.2 ⟨n, hn, rfl⟩, (hf hn).trans hshape⟩

/-- Of the kinds only one asks for a number. -/
theorem WellShaped.carries_number_iff (hf : f.WellShaped) :
    f.Carries x .number ↔ f.kind x = .ok .numberLit := by
  rw [hf.carries_iff]
  constructor
  · rintro ⟨k, hk, hshape⟩
    rw [hk, Kind.eq_numberLit_of_shape hshape]
  · intro hk
    exact ⟨_, hk, rfl⟩

theorem exists_text_iff : (∃ value, f.text x = .ok value) ↔ f.Carries x .text := by
  constructor
  · rintro ⟨value, hvalue⟩
    exact ⟨.text value, read_eq_ok_iff.2 (text_eq_ok_iff.1 hvalue), rfl⟩
  · rintro ⟨p, hp, hshape⟩
    cases p with
    | text value => exact ⟨value, text_eq_ok_iff.2 (read_eq_ok_iff.1 hp)⟩
    | generic | number _ => cases hshape

theorem exists_number_iff : (∃ value, f.number x = .ok value) ↔ f.Carries x .number := by
  constructor
  · rintro ⟨value, hvalue⟩
    exact ⟨.number value, read_eq_ok_iff.2 (number_eq_ok_iff.1 hvalue), rfl⟩
  · rintro ⟨p, hp, hshape⟩
    cases p with
    | number value => exact ⟨value, number_eq_ok_iff.2 (read_eq_ok_iff.1 hp)⟩
    | generic | text _ => cases hshape

end Forest

namespace Edit

/-- The edit replaces a payload of `x` by `p`, if it has the shape of `p`, and fails otherwise. -/
structure Overwrites (edit : Edit Unit) (x : NodeId) (p : Payload) (f : Forest) : Prop where
  answer : edit.answer f = .ok () ↔ f.Carries x p.shape
  payload : edit.answer f = .ok () → (edit.after f).payload x = .ok p

theorem overwrites_of_cases {k : Node → Edit Unit}
    (hwrite : ∀ n, n.payload.shape = p.shape → k n = change x fun n => { n with payload := p })
    (hrefuse : ∀ n, n.payload.shape ≠ p.shape → ∃ e, k n = throw e) :
    (ask (·.node x) >>= k).Overwrites x p f := by
  have hok : ∀ {g}, (ask (·.node x) >>= k) f = .ok () g ↔
      f.Carries x p.shape ∧ g = f.modifyNode x fun n => { n with payload := p } := by
    intro g
    rw [bind_eq_ok]
    constructor
    · rintro ⟨n, f', hn, hk⟩
      obtain ⟨hn, rfl⟩ := ask_eq_ok.1 hn
      by_cases hshape : n.payload.shape = p.shape
      · rw [hwrite n hshape] at hk
        exact ⟨⟨n.payload, Forest.read_eq_ok_iff.2 ⟨n, hn, rfl⟩, hshape⟩, (change_eq_ok.1 hk).2⟩
      · obtain ⟨e, he⟩ := hrefuse n hshape
        rw [he] at hk
        cases hk
    · rintro ⟨⟨q, hq, hshape⟩, rfl⟩
      obtain ⟨n, hn, rfl⟩ := Forest.read_eq_ok_iff.1 hq
      refine ⟨n, f, ask_eq_ok.2 ⟨hn, rfl⟩, ?_⟩
      rw [hwrite n hshape]
      exact change_eq_ok.2 ⟨.of_node hn, rfl⟩
  constructor
  · rw [answer_eq_ok_iff]
    constructor
    · intro h
      exact (hok.1 h).1
    · intro h
      have hrun := hok.2 ⟨h, rfl⟩
      rw [after, hrun]
  · intro h
    obtain ⟨⟨q, hq, -⟩, hafter⟩ := hok.1 (answer_eq_ok_iff.1 h)
    obtain ⟨n, hn, -⟩ := Forest.read_eq_ok_iff.1 hq
    rw [hafter]
    exact Forest.read_eq_ok_iff.2 ⟨_, Forest.node_modifyNode_self hn, rfl⟩

theorem setText_overwrites (x : NodeId) (value : String) : (setText x value).Overwrites x (.text value) f := by
  refine overwrites_of_cases (fun n hn => ?_) fun n hn => ?_
  · cases hp : n.payload with
    | text _ => rfl
    | generic | number _ => simp [hp, Payload.shape] at hn
  · cases hp : n.payload with
    | text _ => simp [hp, Payload.shape] at hn
    | generic | number _ => exact ⟨_, rfl⟩

theorem setNumber_overwrites (x : NodeId) (value : Double) :
    (setNumber x value).Overwrites x (.number value) f := by
  refine overwrites_of_cases (fun n hn => ?_) fun n hn => ?_
  · cases hp : n.payload with
    | number _ => rfl
    | generic | text _ => simp [hp, Payload.shape] at hn
  · cases hp : n.payload with
    | number _ => simp [hp, Payload.shape] at hn
    | generic | text _ => exact ⟨_, rfl⟩

theorem after_done (edit : Edit Unit) (f : Forest) :
    (edit >>= fun _ => pure Reply.done).after f = edit.after f := by
  rw [after_bind]
  cases edit.answer f <;> rfl

end Edit

/-! ## Runs -/

namespace Command

/-- The command writes the payload of `x`: it is there for that, and it does not fail. -/
def Writes (command : Command) (x : NodeId) (f : Forest) : Prop :=
  x ∈ command.rewrites ∧ (command.run.answer f).isOk = true

/-- No command of the run writes the payload of `x`, as the forest is when the command comes. -/
def Unwritten (x : NodeId) : List Command → Forest → Prop
  | [], _ => True
  | command :: rest, f => ¬ command.Writes x f ∧ Unwritten x rest (command.run.after f)

instance decidableUnwritten (x : NodeId) :
    (commands : List Command) → (f : Forest) → Decidable (Unwritten x commands f)
  | [], _ => isTrue trivial
  | command :: rest, f =>
    have := decidableUnwritten x rest (command.run.after f)
    inferInstanceAs (Decidable (¬ (_ ∧ _) ∧ _))

theorem runAll_kind (hk : f.kind x = .ok k) : (runAll commands f).kind x = .ok k := by
  induction commands generalizing f with
  | nil => exact hk
  | cons command rest ih =>
    obtain ⟨n, hn, rfl⟩ := Forest.read_eq_ok_iff.1 hk
    obtain ⟨m, hm, hkind, -⟩ := (command.run_keepsPayloads f).kept hn
    exact ih (Forest.read_eq_ok_iff.2 ⟨m, hm, hkind⟩)

theorem run_payload (hf : f.Reachable) {command : Command} (hw : ¬ command.Writes x f)
    (hp : f.payload x = .ok p) : (command.run.after f).payload x = .ok p := by
  by_cases hx : x ∈ command.rewrites
  · cases hanswer : command.run.answer f with
    | ok reply => exact absurd ⟨hx, by rw [hanswer]; rfl⟩ hw
    | error e =>
      obtain ⟨s, hs⟩ := hf.realizes
      rw [((command.run_leads hs).error (answer_eq_error_iff.1 hanswer)).2]
      exact hp
  · obtain ⟨n, hn, rfl⟩ := Forest.read_eq_ok_iff.1 hp
    obtain ⟨m, hm, -, hpayload⟩ := (command.run_keepsPayloads f).kept hn
    exact Forest.read_eq_ok_iff.2 ⟨m, hm, hpayload hx⟩

theorem runAll_payload (hf : f.Reachable) (hw : Unwritten x commands f) (hp : f.payload x = .ok p) :
    (runAll commands f).payload x = .ok p := by
  induction commands generalizing f with
  | nil => exact hp
  | cons command rest ih => exact ih (.step command hf) hw.2 (run_payload hf hw.1 hp)

end Command

/-! ## Kinds and payloads -/

namespace Forest

/-- What the kinds of the nodes say about their payloads, now and along the runs from here. -/
structure PayloadsFollowKinds (f : Forest) : Prop where
  kind : ∀ {x k} commands, f.kind x = .ok k → (Command.runAll commands f).kind x = .ok k
  shape : ∀ {x k p}, f.kind x = .ok k → f.payload x = .ok p → p.shape = k.shape
  text : ∀ x, (∃ value, f.text x = .ok value) ↔ ∃ k, f.kind x = .ok k ∧ k.shape = .text
  setText : ∀ x value, (setText x value).answer f = .ok () ↔ ∃ k, f.kind x = .ok k ∧ k.shape = .text
  number : ∀ x, (∃ value, f.number x = .ok value) ↔ f.kind x = .ok .numberLit
  setNumber : ∀ x value, (setNumber x value).answer f = .ok () ↔ f.kind x = .ok .numberLit
  /-- A payload changes only when a command succeeds in writing it. -/
  payload : ∀ {x p commands}, f.payload x = .ok p → Command.Unwritten x commands f →
    (Command.runAll commands f).payload x = .ok p
  /-- A text that is written is read back until another is written. -/
  text_after : ∀ {x value commands}, (Edit.setText x value).answer f = .ok () →
    Command.Unwritten x commands ((Command.setText x value).run.after f) →
    (Command.runAll (.setText x value :: commands) f).text x = .ok value
  number_after : ∀ {x value commands}, (Edit.setNumber x value).answer f = .ok () →
    Command.Unwritten x commands ((Command.setNumber x value).run.after f) →
    (Command.runAll (.setNumber x value :: commands) f).number x = .ok value

end Forest

/-- In a reachable forest, kinds are for good, and they decide which payloads are found, read and written. -/
theorem reachable_payloadsFollowKinds (hf : f.Reachable) : f.PayloadsFollowKinds := by
  have hshaped : f.WellShaped := hf.wellShaped
  constructor
  · intro x k commands hk
    exact Command.runAll_kind hk
  · intro x k p hk hp
    obtain ⟨n, hn, rfl⟩ := Forest.read_eq_ok_iff.1 hk
    obtain ⟨m, hm, rfl⟩ := Forest.read_eq_ok_iff.1 hp
    rw [hn] at hm
    cases hm
    exact hshaped hn
  · intro x
    exact Forest.exists_text_iff.trans hshaped.carries_iff
  · intro x value
    exact (setText_overwrites x value).answer.trans hshaped.carries_iff
  · intro x
    exact Forest.exists_number_iff.trans hshaped.carries_number_iff
  · intro x value
    exact (setNumber_overwrites x value).answer.trans hshaped.carries_number_iff
  · intro x p commands hp hw
    exact Command.runAll_payload hf hw hp
  · intro x value commands h hw
    have hp := (setText_overwrites x value).payload h
    rw [← after_done] at hp
    have hrun := Command.runAll_payload (.step (.setText x value) hf) hw hp
    exact Forest.text_eq_ok_iff.2 (Forest.read_eq_ok_iff.1 hrun)
  · intro x value commands h hw
    have hp := (setNumber_overwrites x value).payload h
    rw [← after_done] at hp
    have hrun := Command.runAll_payload (.step (.setNumber x value) hf) hw hp
    exact Forest.number_eq_ok_iff.2 (Forest.read_eq_ok_iff.1 hrun)

-- in between, a number is refused by the node, its tree is copied and the copy is written to
theorem sampleForest_payloadsFollowKinds :
    (setText ⟨1⟩ "y").answer sampleForest = .ok () ∧
      Command.Unwritten ⟨1⟩ [.setNumber ⟨1⟩ ⟨0⟩, .copyTree ⟨3⟩, .setText ⟨12⟩ "z", .detach ⟨1⟩]
        ((Command.setText ⟨1⟩ "y").run.after sampleForest) ∧
      (Command.runAll [.setText ⟨1⟩ "y", .setNumber ⟨1⟩ ⟨0⟩, .copyTree ⟨3⟩, .setText ⟨12⟩ "z", .detach ⟨1⟩]
        sampleForest).text ⟨1⟩ = .ok "y" := by
  have h : (setText ⟨1⟩ "y").answer sampleForest = .ok () := by decide +kernel
  have hw : Command.Unwritten ⟨1⟩ [.setNumber ⟨1⟩ ⟨0⟩, .copyTree ⟨3⟩, .setText ⟨12⟩ "z", .detach ⟨1⟩]
      ((Command.setText ⟨1⟩ "y").run.after sampleForest) := by decide +kernel
  exact ⟨h, hw, (reachable_payloadsFollowKinds reachable_sampleForest).text_after h hw⟩

end SyntaxForest
