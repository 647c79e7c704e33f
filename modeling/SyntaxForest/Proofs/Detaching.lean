import SyntaxForest.Forest.Detach
import SyntaxForest.Proofs.Attaching
/-!
# Detaching and replacing edits

A detached node is pruned from its place, and a replacement is grafted in the place of what it
replaces. These edits are refused when there is no such place, and then change nothing.
-/

namespace SyntaxForest

variable {s : Layout} {f g : Forest} {p c old : NodeId} {before after : List NodeId}

/-- `g` is `f` with `c`, which stands alone and does not have `p` below it, put in the place of `old` under
`p`. -/
structure Layout.Replaces (s : Layout) (f g : Forest) (p : NodeId) (before : List NodeId) (old c : NodeId)
    (after : List NodeId) : Prop where
  place : s.children p = before ++ [old] ++ after
  alone : s.parent c = none
  clear : ¬ s.Covers c p
  has_child : f.Has c
  rewritten : f.Rewritten g fun x n => grafted p before c after x (pruned p before [old] after x n)

theorem Layout.Replaces.fits (h : s.Replaces f g p before old c after) :
    (s.prune p before [old] after h.place).Fits p before [c] after :=
  fits_of_prune h.place h.alone h.clear

theorem Layout.Replaces.realizes (h : s.Replaces f g p before old c after) (hf : f.Realizes s) :
    g.Realizes ((s.prune p before [old] after h.place).graft p before [c] after h.fits) := by
  have hold : s.parent old = some p := parent_of_place h.place List.mem_cons_self
  refine h.rewritten.realizes hf (fun x n hn => (hn.pruned h.place).grafted h.fits) fun {q y} hq => ?_
  rw [parent_graft, parent_prune] at hq
  split at hq
  · rename_i hy
    cases hq
    rw [List.mem_singleton.1 hy]
    exact ⟨(hf.has hold).1, h.has_child⟩
  · split at hq
    · cases hq
    · exact hf.has hq

theorem Layout.Replaces.sameContents (h : s.Replaces f g p before old c after) : f.SameContents g :=
  h.rewritten.sameContents fun _ _ => rfl

theorem Forest.children_of_not_has (hp : ¬ f.Has p) :
    f.children p = .error (.outOfRange f.size p.index) := by
  simp only [children, firstChild, node_eq_error_iff.2 ⟨hp, rfl⟩, bind, Except.bind]

namespace Edit

theorem unlink_succeeds (h : f.Realizes s) (hplace : s.children p = before ++ [c] ++ after) :
    (unlink p c).Succeeds f fun _ g => s.Prunes f g p before [c] after := by
  have hmid : s.children p = before ++ c :: after := by simpa using hplace
  have hc := Layout.parent_of_middle hmid
  obtain ⟨hp, hhas⟩ := h.has hc
  have hcp : c ≠ p := Layout.ne_of_parent hc
  have hlast : before.getLast? ≠ some c := fun e =>
    (Layout.not_mem_of_middle hmid).1 (List.mem_of_getLast? e)
  have hprev : ∀ b, before.getLast? = some b → f.Has b := fun b hb =>
    h.has_child (hmid ▸ List.mem_append_left _ (List.mem_of_getLast? hb))
  refine succeeds_ask (h.previousSibling_eq hmid) ?_
  refine succeeds_ask (h.nextSibling_eq hhas) ?_
  refine (point_succeeds hp hprev _).bind fun _ g₁ h₁ => ?_
  refine (succeeds_change (h₁.has.2 hp) _).bind fun _ g₂ h₂ => ?_
  refine (succeeds_change (h₂.has.2 (h₁.has.2 hhas)) _).mono fun _ g₃ h₃ => ?_
  refine ⟨hplace, ((h₁.trans h₂).trans h₃).congr fun x n hn => ?_⟩
  rw [Layout.next_of_middle hmid]
  by_cases hxc : x = c
  · subst hxc
    simp [pruned, pointed, hcp]
  · by_cases hxp : x = p
    · subst hxp
      have hl : n.lastChild = some c ↔ after = [] := by
        rw [(h.links hn).lastChild, Layout.last_iff_of_middle hmid]
      simp [pruned, pointed, hxc, hl]
    · simp [pruned, pointed, hxc, hxp]

theorem detach_succeeds (h : f.Realizes s) (hplace : s.children p = before ++ c :: after) :
    (detach c).Succeeds f fun _ g => s.Prunes f g p before [c] after := by
  have hc := Layout.parent_of_middle hplace
  refine succeeds_ask (h.parent_eq (h.has hc).2) ?_
  rw [hc]
  exact unlink_succeeds h (by simpa using hplace)

theorem removeChild_succeeds (h : f.Realizes s) (hplace : s.children p = before ++ c :: after) :
    (removeChild p c).Succeeds f fun _ g => s.Prunes f g p before [c] after := by
  have hc := Layout.parent_of_middle hplace
  refine succeeds_ask (h.parent_eq (h.has hc).2) ?_
  rw [if_pos hc]
  exact unlink_succeeds h (by simpa using hplace)

/-- The first child is taken away, if there is one. -/
theorem removeFirstChild_succeeds (h : f.Realizes s) (hp : f.Has p) :
    (removeFirstChild p).Succeeds f fun first g =>
      (s.children p = [] ∧ first = none ∧ g = f) ∨
        ∃ c rest, first = some c ∧ s.Prunes f g p [] [c] rest := by
  refine succeeds_ask (h.firstChild_eq hp) ?_
  cases hcs : s.children p with
  | nil => exact succeeds_pure (.inl ⟨rfl, rfl, rfl⟩)
  | cons c rest =>
    have hu : (unlink p c).Succeeds f fun _ g => s.Prunes f g p [] [c] rest := unlink_succeeds h hcs
    exact hu.bind fun _ g hg => succeeds_pure (.inr ⟨c, rest, rfl, hg⟩)

/-- A replaced node is taken away, and the replacement is put in its place. -/
theorem replaceWith_succeeds (h : f.Realizes s) (hc : f.Has c)
    (hplace : s.children p = before ++ [old] ++ after) (hn : s.parent c = none)
    (hv : ¬ s.Covers c p) :
    (replaceWith old c).Succeeds f fun _ g => s.Replaces f g p before old c after := by
  have hmid : s.children p = before ++ old :: after := by simpa using hplace
  have hold := Layout.parent_of_middle hmid
  obtain ⟨hp, hhas⟩ := h.has hold
  have hop : old ≠ p := Layout.ne_of_parent hold
  have hcp : c ≠ p := fun e => hv (e ▸ Layout.Covers.refl s c)
  have hco : c ≠ old := by
    rintro rfl
    rw [hn] at hold
    cases hold
  have hbefore : ∀ b, before.getLast? = some b → s.parent b = some p := fun b hb => by
    rw [← s.mem_children, hmid]
    exact List.mem_append_left _ (List.mem_of_getLast? hb)
  have hlast : before.getLast? ≠ some c := fun e => by
    rw [hbefore c e] at hn
    cases hn
  have hlast' : before.getLast? ≠ some old := fun e =>
    (Layout.not_mem_of_middle hmid).1 (List.mem_of_getLast? e)
  refine succeeds_ask (h.parent_eq hhas) ?_
  rw [hold]
  refine succeeds_ask (h.checkAttachable_of_free hp hc hn hv) ?_
  refine succeeds_ask (h.previousSibling_eq hmid) ?_
  refine succeeds_ask (h.nextSibling_eq hhas) ?_
  rw [Layout.next_of_middle hmid]
  refine (succeeds_change hc _).bind fun _ g₁ h₁ => ?_
  refine (point_succeeds (h₁.has.2 hp) (fun b hb => h₁.has.2 (h.has (hbefore b hb)).2) _).bind
    fun _ g₂ h₂ => ?_
  refine (succeeds_change (h₂.has.2 (h₁.has.2 hp)) _).bind fun _ g₃ h₃ => ?_
  refine (succeeds_change (h₃.has.2 (h₂.has.2 (h₁.has.2 hhas))) _).mono fun _ g₄ h₄ => ?_
  refine ⟨hplace, hn, hv, hc, (((h₁.trans h₂).trans h₃).trans h₄).congr fun x n hnode => ?_⟩
  -- four records may be written: the replacement, the old node, its previous sibling and the parent
  rw [grafted_pruned]
  by_cases hxc : x = c
  · subst hxc
    simp [grafted, pointed, hcp, hco, hlast]
  · by_cases hxo : x = old
    · subst hxo
      simp [grafted, pointed, hxc, hop, hlast']
    · by_cases hxp : x = p
      · subst hxp
        have hl : n.lastChild = some old ↔ after = [] := by
          rw [(h.links hnode).lastChild, Layout.last_iff_of_middle hmid]
        simp [grafted, pointed, hxc, hxo, hl]
      · simp [grafted, pointed, hxc, hxo, hxp]

theorem detachChildren_succeeds (h : f.Realizes s) (hp : f.Has p) :
    (detachChildren p).Succeeds f fun ids g =>
      ids = s.children p ∧ s.Prunes f g p [] (s.children p) [] := by
  have hcs : ∀ c ∈ s.children p, f.Has c := fun c hc => h.has_child hc
  have hp' : p ∉ s.children p := fun hm => Layout.ne_of_parent (s.mem_children.1 hm) rfl
  refine succeeds_ask (h.children_eq hp) ?_
  refine (succeeds_changes hcs (s.nodup p) _).bind fun _ g₁ h₁ => ?_
  refine (succeeds_change (h₁.has.2 hp) _).bind fun _ g₂ h₂ => ?_
  refine succeeds_pure ⟨rfl, by simp, (h₁.trans h₂).congr fun x n _ => ?_⟩
  by_cases hx : x = p
  · subst hx
    simp [pruned, hp']
  · by_cases hc : x ∈ s.children p <;> simp [pruned, hx, hc]

/-! ## Refusals -/

theorem detach_leads (h : f.Realizes s) (c : NodeId) :
    (detach c).Leads f fun _ g => ∃ p before after, s.Prunes f g p before [c] after := by
  cases hc : s.parent c with
  | none => exact leads_of_parentless h hc (leads_throw trivial)
  | some p =>
    obtain ⟨before, after, hplace⟩ := Layout.exists_place hc
    exact ((detach_succeeds h hplace).mono fun _ g hg => ⟨p, before, after, hg⟩).leads

theorem removeChild_leads (h : f.Realizes s) (p c : NodeId) :
    (removeChild p c).Leads f fun _ g => ∃ before after, s.Prunes f g p before [c] after := by
  by_cases hc : s.parent c = some p
  · obtain ⟨before, after, hplace⟩ := Layout.exists_place hc
    exact ((removeChild_succeeds h hplace).mono fun _ g hg => ⟨before, after, hg⟩).leads
  · refine leads_parent h fun _ => ?_
    rw [if_neg hc]
    exact leads_throw trivial

theorem removeFirstChild_leads (h : f.Realizes s) (p : NodeId) :
    (removeFirstChild p).Leads f fun first g =>
      (s.children p = [] ∧ first = none ∧ g = f) ∨
        ∃ c rest, first = some c ∧ s.Prunes f g p [] [c] rest := by
  by_cases hp : f.Has p
  · exact (removeFirstChild_succeeds h hp).leads
  · exact leads_ask (fun e => ordinary_of_read) fun _ hf => absurd (has_of_read hf) hp

theorem detachChildren_leads (h : f.Realizes s) (p : NodeId) :
    (detachChildren p).Leads f fun ids g =>
      ids = s.children p ∧ s.Prunes f g p [] (s.children p) [] := by
  by_cases hp : f.Has p
  · exact (detachChildren_succeeds h hp).leads
  · have hcs := Forest.children_of_not_has hp
    refine leads_ask (fun e he => ?_) fun ids hids => ?_
    · rw [hcs] at he
      cases he
      trivial
    · rw [hcs] at hids
      cases hids

theorem replaceWith_leads (h : f.Realizes s) (old c : NodeId) :
    (replaceWith old c).Leads f fun _ g => ∃ p before after, s.Replaces f g p before old c after := by
  cases hs : s.parent old with
  | none => exact leads_of_parentless h hs (leads_throw trivial)
  | some p =>
    obtain ⟨before, after, hplace⟩ := Layout.exists_place hs
    by_cases hk : f.checkAttachable .replaceWith p c = .ok ()
    · obtain ⟨hc, hn, hv⟩ := h.checkAttachable_ok hk
      have hr := replaceWith_succeeds h hc (by simpa using hplace) hn hv
      exact (hr.mono fun _ g hg => ⟨p, before, after, hg⟩).leads
    · refine leads_parent h fun _ => ?_
      rw [hs]
      exact leads_ask (fun e => h.checkAttachable_error) fun _ hk' => absurd hk' hk

end Edit

end SyntaxForest
