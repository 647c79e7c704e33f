import SyntaxForest.Proofs.Realization
/-!
# Effects of edits

Two ways to say what an edit does from a forest. `Succeeds` says that it gives an answer, and what then
holds. `Leads` says what holds if it gives an answer, and that otherwise it has changed nothing. An edit
that first asks and then writes leads somewhere when its writes succeed, so the rules below take an
edit apart: questions are followed by `Leads`, and from the first write on by `Succeeds`.
-/

namespace SyntaxForest

/-- The faults that a forest with a layout can give: no walk along links is endless there, and no
parentless node has a sibling. -/
def Fault.Ordinary : Fault → Prop
  | .link _ _ .hasSibling => False
  | .endless => False
  | _ => True

namespace Forest

/-- `g` is `f` with each node changed by `update`. -/
def Rewritten (f g : Forest) (update : NodeId → Node → Node) : Prop :=
  ∀ id, g.node id = (f.node id).map (update id)

/-- What a node carries, without its links. -/
def contents (f : Forest) (id : NodeId) : Except Fault Node := (f.node id).map Node.detachedCopy

/-- Each node carries the same in `g` as in `f`; only links may differ. -/
def SameContents (f g : Forest) : Prop := ∀ id, g.contents id = f.contents id

variable {f g h : Forest} {id : NodeId} {n m : Node} {u v : NodeId → Node → Node}

/-- What is read from a node apart from its links is read from its contents. -/
theorem read_eq_contents {α : Type} {view : Node → α} (hview : ∀ n, view n.detachedCopy = view n) (f : Forest)
    (id : NodeId) : (return view (← f.node id) : Except Fault α) = (f.contents id).map view := by
  unfold contents
  cases f.node id with
  | ok n => exact congrArg Except.ok (hview n).symm
  | error e => rfl

theorem SameContents.refl (f : Forest) : f.SameContents f := fun _ => rfl

theorem SameContents.symm (h : f.SameContents g) : g.SameContents f := fun id => (h id).symm

theorem SameContents.trans (h₁ : f.SameContents g) (h₂ : g.SameContents h) : f.SameContents h :=
  fun id => (h₂ id).trans (h₁ id)

theorem SameContents.has (h : f.SameContents g) : g.Has id ↔ f.Has id := by
  have hc := h id
  unfold contents at hc
  rw [has_iff_node, has_iff_node]
  cases hf : f.node id <;> cases hg : g.node id <;> simp_all [Except.map]

theorem SameContents.size (h : f.SameContents g) : g.size = f.size := by
  have hf : g.Has ⟨f.size⟩ ↔ f.Has ⟨f.size⟩ := h.has
  have hg : g.Has ⟨g.size⟩ ↔ f.Has ⟨g.size⟩ := h.has
  simp only [Has] at hf hg
  omega

theorem rewritten_modifyNode (f : Forest) (id : NodeId) (update : Node → Node) :
    f.Rewritten (f.modifyNode id update) fun x n => if x = id then update n else n := by
  intro x
  cases hx : f.node x with
  | ok n =>
    by_cases he : x = id
    · subst he
      simp [node_modifyNode_self hx, Except.map]
    · simp [node_modifyNode_of_ne he, hx, he, Except.map]
  | error e =>
    rw [node_eq_error_iff] at hx
    exact node_eq_error_iff.2 (by simpa using hx)

namespace Rewritten

theorem node (hw : f.Rewritten g u) (hn : f.node id = .ok n) : g.node id = .ok (u id n) := by
  rw [hw, hn]
  rfl

theorem exists_node (hw : f.Rewritten g u) (hm : g.node id = .ok m) :
    ∃ n, f.node id = .ok n ∧ m = u id n := by
  rw [hw] at hm
  cases hn : f.node id with
  | ok n =>
    rw [hn] at hm
    cases hm
    exact ⟨n, rfl, rfl⟩
  | error e =>
    rw [hn] at hm
    cases hm

theorem has (hw : f.Rewritten g u) : g.Has id ↔ f.Has id := by
  rw [has_iff_node, has_iff_node]
  constructor
  · rintro ⟨m, hm⟩
    obtain ⟨n, hn, -⟩ := hw.exists_node hm
    exact ⟨n, hn⟩
  · rintro ⟨n, hn⟩
    exact ⟨_, hw.node hn⟩

theorem trans (h₁ : f.Rewritten g u) (h₂ : g.Rewritten h v) :
    f.Rewritten h fun x n => v x (u x n) := by
  intro x
  rw [h₂, h₁]
  cases f.node x <;> rfl

theorem congr (hw : f.Rewritten g u) (hu : ∀ x n, f.node x = .ok n → u x n = v x n) :
    f.Rewritten g v := by
  intro x
  rw [hw]
  cases hx : f.node x with
  | ok n => exact congrArg Except.ok (hu x n hx)
  | error e => rfl

theorem sameContents (hw : f.Rewritten g u) (hu : ∀ x n, (u x n).detachedCopy = n.detachedCopy) :
    f.SameContents g := by
  intro x
  unfold contents
  rw [hw]
  cases f.node x with
  | ok n => exact congrArg Except.ok (hu x n)
  | error e => rfl

/-- Changed links realize another layout when they change each node as that layout asks. -/
theorem realizes {s t : Layout} (hw : f.Rewritten g u) (hf : f.Realizes s)
    (hu : ∀ x n, s.Describes x n → t.Describes x (u x n))
    (ht : ∀ {p c}, t.parent c = some p → f.Has p ∧ f.Has c) : g.Realizes t where
  links hm := by
    obtain ⟨n, hn, rfl⟩ := hw.exists_node hm
    exact hu _ n (hf.links hn)
  has hp := ⟨hw.has.2 (ht hp).1, hw.has.2 (ht hp).2⟩

end Rewritten

end Forest

theorem ordinary_of_node {f : Forest} {id : NodeId} {e : Fault} (h : f.node id = .error e) :
    e.Ordinary := by
  rw [(Forest.node_eq_error_iff.1 h).2]
  trivial

theorem ordinary_of_read {α : Type} {f : Forest} {id : NodeId} {view : Node → α} {e : Fault}
    (h : (return view (← f.node id) : Except Fault α) = .error e) : e.Ordinary := by
  rw [(Forest.read_eq_error_iff.1 h).2]
  trivial

theorem has_of_read {α : Type} {f : Forest} {id : NodeId} {view : Node → α} {a : α}
    (h : (return view (← f.node id) : Except Fault α) = .ok a) : f.Has id := by
  obtain ⟨n, hn, -⟩ := Forest.read_eq_ok_iff.1 h
  exact .of_node hn

namespace Edit

variable {α β : Type} {f : Forest} {Q : α → Forest → Prop} {R : β → Forest → Prop}

/-- The edit gives an answer, and it and the forest left behind satisfy `Q`. -/
def Succeeds (edit : Edit α) (f : Forest) (Q : α → Forest → Prop) : Prop :=
  ∃ a g, edit f = .ok a g ∧ Q a g

/-- An answer and the forest left behind satisfy `Q`; a fault is ordinary and leaves all as it was. -/
structure Leads (edit : Edit α) (f : Forest) (Q : α → Forest → Prop) : Prop where
  ok : ∀ {a g}, edit f = .ok a g → Q a g
  error : ∀ {e g}, edit f = .error e g → e.Ordinary ∧ g = f

theorem answer_eq_ok_iff {edit : Edit α} {a : α} :
    edit.answer f = .ok a ↔ edit f = .ok a (edit.after f) := by
  unfold answer after
  cases edit f <;> simp

theorem answer_eq_error_iff {edit : Edit α} {e : Fault} :
    edit.answer f = .error e ↔ edit f = .error e (edit.after f) := by
  unfold answer after
  cases edit f <;> simp

theorem answer_bind (edit : Edit β) (k : β → Edit α) (f : Forest) :
    (edit >>= k).answer f =
      match edit.answer f with
      | .ok b => (k b).answer (edit.after f)
      | .error e => .error e := by
  unfold answer after
  simp only [bind, EStateM.bind]
  cases edit f <;> rfl

theorem after_bind (edit : Edit β) (k : β → Edit α) (f : Forest) :
    (edit >>= k).after f =
      match edit.answer f with
      | .ok b => (k b).after (edit.after f)
      | .error _ => edit.after f := by
  unfold answer after
  simp only [bind, EStateM.bind]
  cases edit f <;> rfl

theorem after_ask (query : Forest → Except Fault α) (f : Forest) : (ask query).after f = f := by
  unfold after ask
  cases query f <;> rfl

theorem answer_ask (query : Forest → Except Fault α) (f : Forest) : (ask query).answer f = query f := by
  unfold answer ask
  cases query f <;> rfl

theorem answer_change (id : NodeId) (update : Node → Node) (f : Forest) :
    (change id update).answer f =
      if id.index < f.size then .ok () else .error (.outOfRange f.size id.index) := by
  unfold answer change
  by_cases hid : id.index < f.size <;> simp [hid]

theorem size_after_change (id : NodeId) (update : Node → Node) (f : Forest) :
    ((change id update).after f).size = f.size := by
  unfold after change
  by_cases hid : id.index < f.size <;> simp [hid]

/-- What a change makes of each record. On a handle from outside it is refused, and that has no record. -/
theorem rewritten_after_change (id : NodeId) (update : Node → Node) (f : Forest) :
    f.Rewritten ((change id update).after f) fun x n => if x = id then update n else n := by
  unfold after change
  by_cases hid : id.index < f.size
  · simp only [hid, if_true]
    exact f.rewritten_modifyNode id update
  · simp only [hid, if_false]
    intro x
    cases hx : f.node x with
    | error e => rfl
    | ok n =>
      have hne : x ≠ id := by
        rintro rfl
        exact hid (Forest.Has.of_node hx)
      simp [Except.map, hne]

/-! ## Edits that succeed -/

theorem Succeeds.mono {Q' : α → Forest → Prop} {edit : Edit α} (h : edit.Succeeds f Q)
    (hq : ∀ a g, Q a g → Q' a g) : edit.Succeeds f Q' := by
  obtain ⟨a, g, he, ha⟩ := h
  exact ⟨a, g, he, hq a g ha⟩

theorem Succeeds.answer_after {edit : Edit α} (h : edit.Succeeds f Q) :
    ∃ a, edit.answer f = .ok a ∧ Q a (edit.after f) := by
  obtain ⟨a, g, he, hq⟩ := h
  refine ⟨a, ?_, ?_⟩
  · rw [answer, he]
  · rwa [after, he]

theorem succeeds_pure {a : α} (h : Q a f) : (pure a : Edit α).Succeeds f Q := ⟨a, f, rfl, h⟩

theorem Succeeds.bind {edit : Edit β} {k : β → Edit α} (h : edit.Succeeds f R)
    (hk : ∀ b g, R b g → (k b).Succeeds g Q) : (edit >>= k).Succeeds f Q := by
  obtain ⟨b, g, he, hb⟩ := h
  obtain ⟨a, g', ha, hq⟩ := hk b g hb
  exact ⟨a, g', bind_eq_ok.2 ⟨b, g, he, ha⟩, hq⟩

theorem succeeds_ask {query : Forest → Except Fault β} {b : β} {k : β → Edit α} (h : query f = .ok b)
    (hk : (k b).Succeeds f Q) : (ask query >>= k).Succeeds f Q := by
  obtain ⟨a, g, ha, hq⟩ := hk
  exact ⟨a, g, bind_eq_ok.2 ⟨b, f, ask_eq_ok.2 ⟨h, rfl⟩, ha⟩, hq⟩

theorem succeeds_change {id : NodeId} (h : f.Has id) (update : Node → Node) :
    (change id update).Succeeds f fun _ g => f.Rewritten g fun x n => if x = id then update n else n :=
  ⟨(), _, change_eq_ok.2 ⟨h, rfl⟩, f.rewritten_modifyNode id update⟩

/-- Changing each of a list of distinct nodes. -/
theorem succeeds_changes {ids : List NodeId} (hids : ∀ id ∈ ids, f.Has id) (hn : ids.Nodup)
    (update : Node → Node) :
    (ids.forM fun id => change id update).Succeeds f fun _ g =>
      f.Rewritten g fun x n => if x ∈ ids then update n else n := by
  induction ids generalizing f with
  | nil =>
    refine succeeds_pure fun x => ?_
    cases f.node x <;> rfl
  | cons id ids ih =>
    rw [List.nodup_cons] at hn
    -- the rest of the list does not name this node again, so it is changed once
    refine (succeeds_change (hids id List.mem_cons_self) update).bind fun _ g₁ h₁ => ?_
    have hids' : ∀ x ∈ ids, g₁.Has x := fun x hx => h₁.has.2 (hids x (List.mem_cons_of_mem _ hx))
    refine (ih hids' hn.2).mono fun _ g₂ h₂ => (h₁.trans h₂).congr fun x n _ => ?_
    by_cases hx : x = id
    · subst hx
      simp [hn.1]
    · simp [hx]

/-! ## Edits that lead somewhere -/

theorem Succeeds.leads {edit : Edit α} (h : edit.Succeeds f Q) : edit.Leads f Q := by
  obtain ⟨a, g, he, ha⟩ := h
  constructor
  · intro a' g' he'
    rw [he] at he'
    cases he'
    exact ha
  · intro e g' he'
    rw [he] at he'
    cases he'

theorem leads_pure {a : α} (h : Q a f) : (pure a : Edit α).Leads f Q := (succeeds_pure h).leads

theorem Leads.mono {Q' : α → Forest → Prop} {edit : Edit α} (h : edit.Leads f Q)
    (hq : ∀ a g, Q a g → Q' a g) : edit.Leads f Q' :=
  ⟨fun he => hq _ _ (h.ok he), h.error⟩

theorem Leads.after {P : Forest → Prop} {edit : Edit α} (h : edit.Leads f fun _ g => P g) (hf : P f) :
    P (edit.after f) := by
  unfold Edit.after
  split
  · rename_i he
    exact h.ok he
  · rename_i he
    rwa [(h.error he).2]

theorem leads_throw {e : Fault} (h : e.Ordinary) : (throw e : Edit α).Leads f Q := by
  constructor
  · intro a g he
    cases he
  · intro e' g he
    cases he
    exact ⟨h, rfl⟩

theorem leads_ask {query : Forest → Except Fault β} {k : β → Edit α}
    (he : ∀ e, query f = .error e → e.Ordinary) (hk : ∀ b, query f = .ok b → (k b).Leads f Q) :
    (ask query >>= k).Leads f Q := by
  constructor
  · intro a g h
    obtain ⟨b, g', hb, hg⟩ := bind_eq_ok.1 h
    obtain ⟨hb, rfl⟩ := ask_eq_ok.1 hb
    exact (hk b hb).ok hg
  · intro e g h
    rcases bind_eq_error.1 h with h | ⟨b, g', hb, hg⟩
    · obtain ⟨h, rfl⟩ := ask_eq_error.1 h
      exact ⟨he e h, rfl⟩
    · obtain ⟨hb, rfl⟩ := ask_eq_ok.1 hb
      exact (hk b hb).error hg

/-- After an edit that may have written, the rest has to succeed. -/
theorem Leads.bind {edit : Edit β} {k : β → Edit α} (h : edit.Leads f R)
    (hk : ∀ b g, R b g → (k b).Succeeds g Q) : (edit >>= k).Leads f Q := by
  constructor
  · intro a g ha
    obtain ⟨b, g', hb, hg⟩ := bind_eq_ok.1 ha
    exact (hk b g' (h.ok hb)).leads.ok hg
  · intro e g he
    rcases bind_eq_error.1 he with he | ⟨b, g', hb, hg⟩
    · exact h.error he
    · obtain ⟨a, g'', ha, -⟩ := hk b g' (h.ok hb)
      rw [ha] at hg
      cases hg

/-- After an edit that only looked, the rest may still fail. -/
theorem Leads.bind_of_read {P : β → Prop} {edit : Edit β} {k : β → Edit α}
    (h : edit.Leads f fun b g => g = f ∧ P b) (hk : ∀ b, P b → (k b).Leads f Q) :
    (edit >>= k).Leads f Q := by
  constructor
  · intro a g ha
    obtain ⟨b, g', hb, hg⟩ := bind_eq_ok.1 ha
    obtain ⟨rfl, hp⟩ := h.ok hb
    exact (hk b hp).ok hg
  · intro e g he
    rcases bind_eq_error.1 he with he | ⟨b, g', hb, hg⟩
    · exact h.error he
    · obtain ⟨rfl, hp⟩ := h.ok hb
      exact (hk b hp).error hg

theorem Leads.map {edit : Edit β} {view : β → α} (h : edit.Leads f fun b => Q (view b)) :
    (view <$> edit).Leads f Q := by
  have hb := h.bind fun b g hq => succeeds_pure (f := g) (a := view b) hq
  simpa using hb

end Edit

end SyntaxForest
