import SyntaxForest.Proofs.Insertion
/-!
# Edits taken back

Pruning what was grafted gives the old layout back, and so does grafting in its old place what was pruned. No
edit of links takes away anything that a node carries, so an edit and then its counterpart leave the forest
as it was before, down to every link. No guard stands in the way: what stood under a node does not have that
node below it, however large its own tree is.
-/

namespace SyntaxForest

open Edit

variable {s : Layout} {f g g' : Forest} {p c n old : NodeId} {before cs after : List NodeId}

/-! ## Layouts there and back -/

namespace Layout

theorem Grafts.taken_back (hg : s.Grafts f g p before c after) (hf : f.Realizes s)
    (hback : (s.graft p before [c] after hg.fits).Prunes g g' p before [c] after) : g' = f := by
  have hrealizes := hback.realizes (hg.realizes hf)
  rw [prune_graft hg.fits] at hrealizes
  exact hf.eq_of_layout hrealizes (hg.sameContents.trans hback.sameContents)

theorem Prunes.taken_back (hg : s.Prunes f g p before [c] after) (hf : f.Realizes s)
    (hback : (s.prune p before [c] after hg.place).Grafts g g' p before c after) : g' = f := by
  have hrealizes := hback.realizes (hg.realizes hf)
  rw [graft_prune hg.place] at hrealizes
  exact hf.eq_of_layout hrealizes (hg.sameContents.trans hback.sameContents)

theorem Prunes.all_taken_back (hg : s.Prunes f g p [] cs []) (hf : f.Realizes s)
    (hback : (s.prune p [] cs [] hg.place).Appends g g' p cs) : g' = f := by
  have hrealizes := hback.realizes
  have hsame : (s.prune p [] cs [] hg.place).graft p _ cs [] hback.fits = s := by
    refine ext_children fun q => ?_
    by_cases hq : q = p <;> simp [children_graft, children_prune, hq, hg.place]
  rw [hsame] at hrealizes
  exact hf.eq_of_layout hrealizes (hg.sameContents.trans hback.sameContents)

theorem Replaces.taken_back (hg : s.Replaces f g p before old c after) (hf : f.Realizes s)
    (hback : ((s.prune p before [old] after hg.place).graft p before [c] after hg.fits).Replaces g g'
      p before c old after) : g' = f := by
  have hrealizes := hback.realizes (hg.realizes hf)
  have hsame : ((((s.prune p before [old] after hg.place).graft p before [c] after hg.fits).prune p before
      [c] after hback.place).graft p before [old] after hback.fits) = s := by
    refine ext_children fun q => ?_
    by_cases hq : q = p <;> simp [children_graft, children_prune, hq, hg.place]
  rw [hsame] at hrealizes
  exact hf.eq_of_layout hrealizes (hg.sameContents.trans hback.sameContents)

end Layout

/-! ## Edits there and back -/

namespace Edit

/-- Whatever edit has attached a node, detaching takes it back. -/
theorem attached_then_detached {edit : Edit Unit} (h : f.Realizes s)
    (hl : edit.Leads f fun _ g => ∃ p before after, s.Grafts f g p before c after)
    (ha : edit.answer f = .ok ()) : (do edit; detach c) f = .ok () f := by
  have he := answer_eq_ok_iff.1 ha
  obtain ⟨p, before, after, hg⟩ := hl.ok he
  have hplace := Layout.place_graft hg.fits
  rw [List.append_assoc, List.singleton_append] at hplace
  obtain ⟨_, g', hdetached, hg'⟩ := detach_succeeds (hg.realizes h) hplace
  rw [bind_of_ok he, hdetached, hg.taken_back h hg']

theorem detached_then_appended (h : f.Realizes s) (hplace : s.children p = before ++ [c]) :
    (do detach c; appendChild p c) f = .ok () f := by
  obtain ⟨hp, hc⟩ := h.has (Layout.parent_of_middle hplace)
  obtain ⟨_, g, he, hg⟩ := detach_succeeds h hplace
  have hrest : (s.prune p before [c] [] hg.place).children p = before := by
    simp [Layout.children_prune]
  obtain ⟨_, g', he', hg'⟩ := appendChild_succeeds (hg.realizes h) (hg.rewritten.has.2 hp)
    (hg.rewritten.has.2 hc) (Layout.fits_pruned hg.place).behind
  rw [hrest] at hg'
  rw [bind_of_ok he, he', hg.taken_back h hg']

theorem detached_then_inserted (h : f.Realizes s) (hplace : s.children p = before ++ c :: n :: after) :
    (do detach c; insertBefore c n) f = .ok () f := by
  have hc := (h.has (Layout.parent_of_middle hplace)).2
  obtain ⟨_, g, he, hg⟩ := detach_succeeds h hplace
  obtain ⟨_, g', he', hg'⟩ :=
    insertBefore_succeeds (hg.realizes h) (hg.rewritten.has.2 hc) (Layout.fits_pruned hg.place)
  rw [bind_of_ok he, he', hg.taken_back h hg']

theorem replaced_then_replaced (h : f.Realizes s) (ha : (replaceWith old c).answer f = .ok ()) :
    (do replaceWith old c; replaceWith c old) f = .ok () f := by
  have he := answer_eq_ok_iff.1 ha
  obtain ⟨p, before, after, hg⟩ := (replaceWith_leads h old c).ok he
  have hparent : s.parent old = some p := Layout.parent_of_place hg.place List.mem_cons_self
  have hne : old ≠ c := by
    rintro rfl
    rw [hg.alone] at hparent
    cases hparent
  -- the replaced node stands alone now, and it did not have its parent below it before
  have halone : ((s.prune p before [old] after hg.place).graft p before [c] after hg.fits).parent old =
      none := by
    simp [Layout.parent_graft, Layout.parent_prune, hne]
  have hclear : ¬ ((s.prune p before [old] after hg.place).graft p before [c] after hg.fits).Covers old p :=
    fun hv => Layout.not_covers_parent hparent
      (Layout.covers_of_prune hg.place (Layout.covers_of_graft hg.fits hv))
  obtain ⟨_, g', he', hg'⟩ := replaceWith_succeeds (hg.realizes h) (hg.rewritten.has.2 (h.has hparent).2)
    (Layout.place_graft hg.fits) halone hclear
  rw [bind_of_ok he, he', hg.taken_back h hg']

theorem allDetached_then_appended (h : f.Realizes s) (hp : f.Has p) :
    (do let cs ← detachChildren p; appendChildren p cs) f = .ok () f := by
  obtain ⟨_, g, he, rfl, hg⟩ := detachChildren_succeeds h hp
  have hcs : ∀ c ∈ s.children p, g.Has c := fun c hc => hg.rewritten.has.2 (h.has_child hc)
  obtain ⟨_, g', he', hg'⟩ := appendChildren_succeeds (hg.realizes h) (hg.rewritten.has.2 hp) hcs
    (Layout.fits_pruned hg.place).behind
  rw [bind_of_ok he, he', hg.all_taken_back h hg']

end Edit

/-- Every edit of links can be taken back: it and its counterpart, one after the other, succeed and leave the
forest as it was. -/
structure Forest.Reversible (f : Forest) : Prop where
  prependChild : ∀ p c, (prependChild p c).answer f = .ok () →
    (do Edit.prependChild p c; Edit.detach c) f = .ok () f
  appendChild : ∀ p c, (appendChild p c).answer f = .ok () →
    (do Edit.appendChild p c; Edit.detach c) f = .ok () f
  insertAfter : ∀ c sibling, (insertAfter c sibling).answer f = .ok () →
    (do Edit.insertAfter c sibling; Edit.detach c) f = .ok () f
  insertBefore : ∀ c sibling, (insertBefore c sibling).answer f = .ok () →
    (do Edit.insertBefore c sibling; Edit.detach c) f = .ok () f
  detach_last : ∀ p c, f.parent c = .ok (some p) → f.lastChild p = .ok (some c) →
    (do Edit.detach c; Edit.appendChild p c) f = .ok () f
  detach_before : ∀ p c n, f.parent c = .ok (some p) → f.nextSibling c = .ok (some n) →
    (do Edit.detach c; Edit.insertBefore c n) f = .ok () f
  replaceWith : ∀ old c, (replaceWith old c).answer f = .ok () →
    (do Edit.replaceWith old c; Edit.replaceWith c old) f = .ok () f
  detachChildren : ∀ p, f.Has p →
    (do let cs ← Edit.detachChildren p; Edit.appendChildren p cs) f = .ok () f

/-- In a reachable forest every edit of links can be taken back exactly. -/
theorem reachable_reversible (hf : f.Reachable) : f.Reversible := by
  obtain ⟨s, h⟩ := hf.realizes
  constructor
  · intro p c
    exact attached_then_detached h ((prependChild_leads h p c).mono fun _ g hg => ⟨p, _, _, hg⟩)
  · intro p c
    exact attached_then_detached h ((appendChild_leads h p c).mono fun _ g hg => ⟨p, _, _, hg⟩)
  · intro c sibling
    exact attached_then_detached h ((insertAfter_leads h c sibling).mono fun _ g ⟨p, _, _, hg⟩ =>
      ⟨p, _, _, hg⟩)
  · intro c sibling
    exact attached_then_detached h ((insertBefore_leads h c sibling).mono fun _ g ⟨p, _, _, hg⟩ =>
      ⟨p, _, _, hg⟩)
  · intro p c hp hlast
    obtain ⟨before, after, hplace⟩ := h.parent_eq_some_iff.1 hp
    rw [h.lastChild_eq (has_of_read hlast), Except.ok.injEq, Layout.last_iff_of_middle hplace] at hlast
    subst hlast
    exact detached_then_appended h hplace
  · intro p c n hp hnext
    obtain ⟨before, after, hplace⟩ := h.parent_eq_some_iff.1 hp
    rw [h.nextSibling_eq (has_of_read hnext), Except.ok.injEq, Layout.next_of_middle hplace] at hnext
    obtain ⟨rest, rfl⟩ := List.head?_eq_some_iff.1 hnext
    exact detached_then_inserted h hplace
  · exact fun old c => replaced_then_replaced h
  · exact fun p => allDetached_then_appended h

-- the last statement of the block, its first one, the copied block in place of a statement, and all at once
theorem sampleForest_reversible :
    sampleForest.Reversible ∧ (appendChild ⟨3⟩ ⟨6⟩).answer sampleForest = .ok () ∧
      sampleForest.lastChild ⟨4⟩ = .ok (some ⟨2⟩) ∧ sampleForest.nextSibling ⟨3⟩ = .ok (some ⟨2⟩) ∧
      (replaceWith ⟨3⟩ ⟨6⟩).answer sampleForest = .ok () ∧
      (replaceWith ⟨3⟩ ⟨6⟩).after sampleForest ≠ sampleForest ∧
      (detachChildren ⟨4⟩).after sampleForest ≠ sampleForest :=
  ⟨reachable_reversible reachable_sampleForest, by decide +kernel, by decide +kernel, by decide +kernel,
    by decide +kernel, by decide +kernel, by decide +kernel⟩

end SyntaxForest
