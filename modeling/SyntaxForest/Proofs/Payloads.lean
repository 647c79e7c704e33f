import SyntaxForest.Proofs.Writes
/-!
# Kinds and payloads

No write changes the kind of a node, and only the one that is there for payloads changes a payload, to one of the
same shape. New nodes have the payload that their kind asks for, so in a reachable forest every node has.
-/

namespace SyntaxForest

variable {α : Type} {f g : Forest} {id x : NodeId} {n : Node} {written : List NodeId}

namespace Forest

/-- Each payload has the shape that the kind of its node asks for. -/
def WellShaped (f : Forest) : Prop := ∀ {id n}, f.node id = .ok n → n.payload.shape = n.kind.shape

/-- From `f` to `g` no node has changed its kind, and only those of `written` their payload. -/
structure KeepsPayloads (f : Forest) (written : List NodeId) (g : Forest) : Prop where
  kept : ∀ {x n}, f.node x = .ok n →
    ∃ m, g.node x = .ok m ∧ m.kind = n.kind ∧ (x ∉ written → m.payload = n.payload)
  shaped : f.WellShaped → g.WellShaped

namespace KeepsPayloads

theorem refl (f : Forest) (written : List NodeId) : f.KeepsPayloads written f where
  kept hn := ⟨_, hn, rfl, fun _ => rfl⟩
  shaped h := h

theorem trans {h : Forest} (h₁ : f.KeepsPayloads written g) (h₂ : g.KeepsPayloads written h) :
    f.KeepsPayloads written h where
  kept hn := by
    obtain ⟨m, hm, hkind, hpayload⟩ := h₁.kept hn
    obtain ⟨o, ho, hkind', hpayload'⟩ := h₂.kept hm
    exact ⟨o, ho, hkind'.trans hkind, fun hx => (hpayload' hx).trans (hpayload hx)⟩
  shaped hf := h₂.shaped (h₁.shaped hf)

end KeepsPayloads

theorem keepsPayloads_push (hn : f.WellShaped → n.payload.shape = n.kind.shape) :
    f.KeepsPayloads written (f.push n) where
  kept hx := ⟨_, by rw [node_push_of_has (.of_node hx), hx], rfl, fun _ => rfl⟩
  shaped hf := by
    intro x m hm
    rcases node_push hm with hm | ⟨-, rfl⟩
    · exact hf hm
    · exact hn hf

end Forest

/-! ## Reading -/

theorem Kind.eq_numberLit_of_shape {kind : Kind} (h : kind.shape = .number) : kind = .numberLit := by
  cases kind <;> simp_all [Kind.shape]

namespace Forest

theorem text_eq_ok_iff {value : String} :
    f.text x = .ok value ↔ ∃ n, f.node x = .ok n ∧ n.payload = .text value := by
  unfold text
  cases f.node x with
  | error e => simp [bind, Except.bind]
  | ok n =>
    simp only [bind, Except.bind, Except.ok.injEq, exists_eq_left']
    cases n.payload <;> simp [pure, Except.pure, throw, throwThe, MonadExceptOf.throw]

theorem number_eq_ok_iff {value : Double} :
    f.number x = .ok value ↔ ∃ n, f.node x = .ok n ∧ n.payload = .number value := by
  unfold number
  cases f.node x with
  | error e => simp [bind, Except.bind]
  | ok n =>
    simp only [bind, Except.bind, Except.ok.injEq, exists_eq_left']
    cases n.payload <;> simp [pure, Except.pure, throw, throwThe, MonadExceptOf.throw]

end Forest

/-! ## Writes -/

namespace Forest

theorem keepsPayloads_write {update : Node → Node} (hkind : ∀ n, (update n).kind = n.kind)
    (hshape : ∀ n, f.node id = .ok n → (update n).payload.shape = n.payload.shape)
    (hpayload : id ∉ written → ∀ n, (update n).payload = n.payload) :
    f.KeepsPayloads written ((Edit.change id update).after f) := by
  have hw := Edit.rewritten_after_change id update f
  constructor
  · intro x n hn
    refine ⟨_, hw.node hn, ?_⟩
    split
    · rename_i he
      exact ⟨hkind n, fun hx => hpayload (he ▸ hx) n⟩
    · exact ⟨rfl, fun _ => rfl⟩
  · intro hf x m hm
    obtain ⟨n, hn, rfl⟩ := hw.exists_node hm
    split
    · rename_i he
      rw [hshape n (he ▸ hn), hkind, hf hn]
    · exact hf hn

/-- A change of anything else. -/
theorem keepsPayloads_change {update : Node → Node}
    (hu : ∀ n, (update n).kind = n.kind ∧ (update n).payload = n.payload) :
    f.KeepsPayloads written ((Edit.change id update).after f) :=
  keepsPayloads_write (fun n => (hu n).1) (fun n _ => by rw [(hu n).2]) fun _ n => (hu n).2

theorem Write.keepsPayloads (h : f.Write written g) : f.KeepsPayloads written g := by
  cases h with
  | @relink id update same =>
    refine keepsPayloads_change fun n => ⟨?_, ?_⟩
    · show (update n).detachedCopy.kind = n.detachedCopy.kind
      rw [same]
    · show (update n).detachedCopy.payload = n.detachedCopy.payload
      rw [same]
  | create position shape => exact keepsPayloads_push fun _ => shape
  | @copy id n original =>
    refine keepsPayloads_push fun hf => ?_
    have hshape : n.payload.shape = n.kind.shape := hf original
    exact hshape
  | @setPayload id n payload named old shape =>
    refine keepsPayloads_write (fun _ => rfl) (fun m hm => ?_) fun hid => absurd named hid
    rw [old] at hm
    cases hm
    exact shape
  | setPosition | setProperties | setTypeText => exact keepsPayloads_change fun _ => ⟨rfl, rfl⟩

end Forest

/-- What the edit leaves behind keeps kinds and payloads, whether or not it stops with a fault. -/
def Edit.KeepsPayloads (edit : Edit α) (f : Forest) (written : List NodeId) : Prop :=
  f.KeepsPayloads written (edit.after f)

theorem Edit.Writes.keepsPayloads {edit : Edit α} (h : edit.Writes f written) :
    edit.KeepsPayloads f written := by
  unfold Writes at h
  unfold KeepsPayloads
  generalize edit.after f = g at h
  induction h with
  | refl => exact .refl f written
  | tail _ hwrite ih => exact ih.trans hwrite.keepsPayloads

/-- No command changes a kind, and a command changes only the payload that it is there to write. -/
theorem Command.run_keepsPayloads (f : Forest) (command : Command) :
    command.run.KeepsPayloads f command.rewrites :=
  (command.run_writes f).keepsPayloads

theorem Forest.Reachable.wellShaped (h : f.Reachable) : f.WellShaped := by
  apply h.of_writes
  · exact fun hn => nomatch Forest.Has.of_node hn
  · exact fun hwrite => hwrite.keepsPayloads.shaped

end SyntaxForest
