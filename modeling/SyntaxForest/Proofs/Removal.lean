import SyntaxForest.Proofs.Insertion
/-!
# Detaching and replacing as changes of lists

In a reachable forest a node can be detached exactly when it has a parent. Detaching takes nodes out of one
list of children, and replacing exchanges one node of such a list for another. A node taken out stands
alone and keeps its own children; no other list, no other parent and nothing that a node carries changes.
-/

namespace SyntaxForest

open Edit

variable {s t : Layout} {f g : Forest} {p c x old : NodeId} {before olds news after : List NodeId}

/-! ## Exchanged children in a layout -/

namespace Layout

/-- `t` is `s` with `olds` exchanged for `news`, which are others, between `before` and `after` under `p`. -/
structure Exchanges (s t : Layout) (p : NodeId) (before olds news after : List NodeId) : Prop where
  old_children : s.children p = before ++ olds ++ after
  new_children : t.children p = before ++ news ++ after
  other_children : ∀ q, q ≠ p → t.children q = s.children q
  disjoint : ∀ x ∈ olds, x ∉ news

namespace Exchanges

theorem parent_removed (h : s.Exchanges t p before olds news after) (hc : c ∈ olds) :
    t.parent c = none := by
  have hp : s.parent c = some p := parent_of_place h.old_children hc
  refine Option.eq_none_iff_forall_not_mem.2 fun q hq => ?_
  have hm : c ∈ t.children q := t.mem_children.2 hq
  by_cases hqp : q = p
  · -- under `p` only `news` are listed that were not listed before
    have hold := not_mem_around h.old_children hc
    have hnew := h.disjoint c hc
    subst hqp
    rw [h.new_children] at hm
    simp only [List.mem_append, not_or] at hm hold
    rcases hm with (hm | hm) | hm
    · exact hold.1 hm
    · exact hnew hm
    · exact hold.2 hm
  · rw [h.other_children q hqp, s.mem_children, hp] at hm
    exact hqp (Option.some.inj hm).symm

theorem parent_added (h : s.Exchanges t p before olds news after) (hc : c ∈ news) :
    t.parent c = some p := by
  rw [← t.mem_children, h.new_children]
  exact List.mem_append_left _ (List.mem_append_right _ hc)

theorem parent_other (h : s.Exchanges t p before olds news after) (hold : x ∉ olds) (hnew : x ∉ news) :
    t.parent x = s.parent x := by
  refine Option.ext fun q => ?_
  rw [← t.mem_children, ← s.mem_children]
  by_cases hq : q = p
  · subst hq
    simp [h.old_children, h.new_children, hold, hnew]
  · rw [h.other_children q hq]

end Exchanges

theorem exchanges_prune {cs : List NodeId} (h : s.children p = before ++ cs ++ after) :
    s.Exchanges (s.prune p before cs after h) p before cs [] after where
  old_children := h
  new_children := by rw [children_prune, if_pos rfl, List.append_nil]
  other_children q hq := by rw [children_prune, if_neg hq]
  disjoint _ _ := List.not_mem_nil

theorem Replaces.exchanges (h : s.Replaces f g p before old c after) :
    s.Exchanges ((s.prune p before [old] after h.place).graft p before [c] after h.fits) p
      before [old] [c] after where
  old_children := h.place
  new_children := by rw [children_graft, if_pos rfl]
  other_children q hq := by rw [children_graft, if_neg hq, children_prune, if_neg hq]
  disjoint x hx hxc := by
    have hp : s.parent x = some p := parent_of_place h.place hx
    rw [List.mem_singleton.1 hxc, h.alone] at hp
    cases hp

end Layout

/-! ## Exchanged children in a forest -/

namespace Forest

/-- `g` is `f` with `olds` exchanged for `news` between `before` and `after` among the children of `p`, and is
otherwise the same. Without `news`, this is how `olds` are taken away. -/
structure Exchanged (f g : Forest) (p : NodeId) (before olds news after : List NodeId) : Prop where
  old_children : f.children p = .ok (before ++ olds ++ after)
  new_children : g.children p = .ok (before ++ news ++ after)
  /-- A removed node stands alone and keeps its own children. -/
  removed : ∀ c ∈ olds,
    g.parent c = .ok none ∧ g.nextSibling c = .ok none ∧ g.children c = f.children c
  new_parent : ∀ c ∈ news, g.parent c = .ok (some p)
  other_children : ∀ q, q ≠ p → g.children q = f.children q
  other_parent : ∀ x, x ∉ olds → x ∉ news → g.parent x = f.parent x
  /-- Kind, payload, properties, position and type text of every node stay. -/
  contents : f.SameContents g

/-- Exchanged children of a layout, seen through the queries. -/
theorem Realizes.exchanged (hf : f.Realizes s) (hg : g.Realizes t) (hfg : f.SameContents g)
    (h : s.Exchanges t p before olds news after) (hp : f.Has p) (hnews : ∀ c ∈ news, f.Has c) :
    f.Exchanged g p before olds news after where
  old_children := by rw [hf.children_eq hp, h.old_children]
  new_children := by rw [hg.children_eq (hfg.has.2 hp), h.new_children]
  removed c hc := by
    have hcp : s.parent c = some p := Layout.parent_of_place h.old_children hc
    have hhas : g.Has c := hfg.has.2 (hf.has hcp).2
    have hnone := h.parent_removed hc
    refine ⟨by rw [hg.parent_eq hhas, hnone], ?_, ?_⟩
    · rw [hg.nextSibling_eq hhas, Layout.next_of_parentless hnone]
    · exact hf.children_congr hg hfg (h.other_children c (Layout.ne_of_parent hcp))
  new_parent c hc := by rw [hg.parent_eq (hfg.has.2 (hnews c hc)), h.parent_added hc]
  other_children q hq := hf.children_congr hg hfg (h.other_children q hq)
  other_parent x hold hnew := hf.parent_congr hg hfg (h.parent_other hold hnew)
  contents := hfg

end Forest

theorem Layout.Prunes.exchanged {cs : List NodeId} (hg : s.Prunes f g p before cs after)
    (hf : f.Realizes s) (hp : f.Has p) : f.Exchanged g p before cs [] after :=
  hf.exchanged (hg.realizes hf) hg.sameContents (exchanges_prune hg.place) hp nofun

theorem Layout.Replaces.exchanged (hg : s.Replaces f g p before old c after) (hf : f.Realizes s) :
    f.Exchanged g p before [old] [c] after := by
  have hold : s.parent old = some p := parent_of_place hg.place List.mem_cons_self
  refine hf.exchanged (hg.realizes hf) hg.sameContents hg.exchanges (hf.has hold).1 fun x hx => ?_
  rw [List.mem_singleton.1 hx]
  exact hg.has_child

/-! ## When detaching succeeds -/

namespace Forest

/-- What detaching and replacing edits do, and when they succeed. -/
structure ExactRemoval (f : Forest) : Prop where
  detach_iff : ∀ c, (detach c).answer f = .ok () ↔ ∃ p, f.parent c = .ok (some p)
  detach : ∀ p c, f.parent c = .ok (some p) →
    ∃ before after, f.Exchanged ((detach c).after f) p before [c] [] after
  removeChild_iff : ∀ p c, (removeChild p c).answer f = .ok () ↔ f.parent c = .ok (some p)
  removeChild : ∀ p c, f.parent c = .ok (some p) →
    ∃ before after, f.Exchanged ((removeChild p c).after f) p before [c] [] after
  /-- There is no child and nothing happens, or the first child is taken away and returned. -/
  removeFirstChild : ∀ p, f.Has p →
    (f.children p = .ok [] ∧ (removeFirstChild p).answer f = .ok none ∧
      (removeFirstChild p).after f = f) ∨
    ∃ c rest, (removeFirstChild p).answer f = .ok (some c) ∧
      f.Exchanged ((removeFirstChild p).after f) p [] [c] [] rest
  detachChildren : ∀ p, f.Has p → ∃ cs, (detachChildren p).answer f = .ok cs ∧
    f.Exchanged ((detachChildren p).after f) p [] cs [] []
  replaceWith : ∀ old c, (replaceWith old c).answer f = .ok () → ∃ p before after,
    f.parent old = .ok (some p) ∧ f.Exchanged ((replaceWith old c).after f) p before [old] [c] after

end Forest

theorem Layout.Prunes.has_parent (hg : s.Prunes f g p before [c] after) (hf : f.Realizes s) : f.Has p :=
  (hf.has (parent_of_place hg.place List.mem_cons_self)).1

theorem Layout.Prunes.parent_eq (hg : s.Prunes f g p before [c] after) (hf : f.Realizes s) :
    f.parent c = .ok (some p) :=
  hf.parent_eq_some_iff.2 ⟨before, after, by simpa using hg.place⟩

/-- In a reachable forest detaching deletes from one list of children, and replacing substitutes in it. -/
theorem reachable_exactRemoval (hf : f.Reachable) : f.ExactRemoval := by
  obtain ⟨s, h⟩ := hf.realizes
  constructor
  · intro c
    refine answer_iff (detach_leads h c) ?_ ?_
    · rintro g ⟨p, before, after, hg⟩
      exact ⟨p, hg.parent_eq h⟩
    · rintro ⟨p, hp⟩
      obtain ⟨before, after, hplace⟩ := h.parent_eq_some_iff.1 hp
      exact (detach_succeeds h hplace).mono fun _ g hg => ⟨p, before, after, hg⟩
  · intro p c hp
    obtain ⟨before, after, hplace⟩ := h.parent_eq_some_iff.1 hp
    obtain ⟨_, -, hg⟩ := (detach_succeeds h hplace).answer_after
    exact ⟨before, after, hg.exchanged h (hg.has_parent h)⟩
  · intro p c
    refine answer_iff (removeChild_leads h p c) ?_ ?_
    · rintro g ⟨before, after, hg⟩
      exact hg.parent_eq h
    · intro hp
      obtain ⟨before, after, hplace⟩ := h.parent_eq_some_iff.1 hp
      exact (removeChild_succeeds h hplace).mono fun _ g hg => ⟨before, after, hg⟩
  · intro p c hp
    obtain ⟨before, after, hplace⟩ := h.parent_eq_some_iff.1 hp
    obtain ⟨_, -, hg⟩ := (removeChild_succeeds h hplace).answer_after
    exact ⟨before, after, hg.exchanged h (hg.has_parent h)⟩
  · intro p hp
    obtain ⟨first, ha, hg⟩ := (removeFirstChild_succeeds h hp).answer_after
    rcases hg with ⟨hcs, rfl, hg⟩ | ⟨c, rest, rfl, hg⟩
    · exact .inl ⟨by rw [h.children_eq hp, hcs], ha, hg⟩
    · exact .inr ⟨c, rest, ha, hg.exchanged h hp⟩
  · intro p hp
    obtain ⟨cs, ha, rfl, hg⟩ := (detachChildren_succeeds h hp).answer_after
    exact ⟨_, ha, hg.exchanged h hp⟩
  · intro old c ha
    obtain ⟨p, before, after, hg⟩ := (replaceWith_leads h old c).ok (answer_eq_ok_iff.1 ha)
    have hplace : s.children p = before ++ old :: after := by simpa using hg.place
    exact ⟨p, before, after, h.parent_eq_some_iff.2 ⟨before, after, hplace⟩, hg.exchanged h⟩

-- the first statement of the copied block makes way for the block itself, and takes its own child along
theorem sampleForest_exactRemoval :
    sampleForest.ExactRemoval ∧ sampleForest.children ⟨6⟩ = .ok [⟨7⟩, ⟨8⟩] ∧
      (replaceWith ⟨7⟩ ⟨5⟩).answer sampleForest = .ok () ∧
      ((replaceWith ⟨7⟩ ⟨5⟩).after sampleForest).children ⟨6⟩ = .ok [⟨5⟩, ⟨8⟩] ∧
      (detach ⟨5⟩).answer sampleForest = .error (.link ⟨5⟩ .detach .noParent) ∧
      (detachChildren ⟨4⟩).answer sampleForest = .ok [⟨3⟩, ⟨2⟩] :=
  ⟨reachable_exactRemoval reachable_sampleForest, by decide +kernel, by decide +kernel, by decide +kernel,
    by decide +kernel, by decide +kernel⟩

end SyntaxForest
