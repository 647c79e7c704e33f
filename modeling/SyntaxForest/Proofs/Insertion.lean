import SyntaxForest.Proofs.Runs
/-!
# Attaching as insertion into lists

In a reachable forest an attaching edit succeeds exactly when the child has no parent and the link closes
no cycle. It then inserts the child in one list of children, and changes no other list, no other parent
and nothing that a node carries.
-/

namespace SyntaxForest

open Edit

variable {s t : Layout} {f g : Forest} {p c root id : NodeId} {before cs after : List NodeId}

/-! ## When attaching succeeds -/

namespace Forest

/-- `f.Within root id`: going down from `root` through lists of children leads to `id`. -/
inductive Within (f : Forest) (root : NodeId) : NodeId → Prop
  | root : Within f root root
  | child {id c : NodeId} {cs : List NodeId} :
      Within f root id → f.children id = .ok cs → c ∈ cs → Within f root c

/-- `c` has no parent, and linking it under `p` closes no cycle. -/
def MayAttach (f : Forest) (p c : NodeId) : Prop :=
  f.parent c = .ok none ∧ f.wouldCreateCycle p c = .ok false

theorem Realizes.within_iff (h : f.Realizes s) : f.Within root id ↔ s.Covers root id := by
  constructor
  · intro hw
    induction hw with
    | root => exact Layout.Covers.refl s root
    | @child id c cs _ hcs hc ih =>
      by_cases hid : f.Has id
      · rw [h.children_eq hid] at hcs
        cases hcs
        exact .tail ih (s.mem_children.1 hc)
      · rw [children_of_not_has hid] at hcs
        cases hcs
  · intro hv
    induction hv with
    | refl => exact .root
    | tail _ hp ih => exact .child ih (h.children_eq (h.has hp).1) (s.mem_children.2 hp)

open Classical in
theorem Realizes.wouldCreateCycle_within (h : f.Realizes s) (hp : f.Has p) (c : NodeId) :
    ∃ closes, f.wouldCreateCycle p c = .ok closes ∧ (closes = true ↔ f.Within c p) := by
  refine ⟨_, h.wouldCreateCycle_eq hp c, ?_⟩
  rw [decide_eq_true_iff, h.within_iff]

theorem Realizes.mayAttach_iff (h : f.Realizes s) :
    f.MayAttach p c ↔ f.Has p ∧ f.Has c ∧ s.parent c = none ∧ ¬ s.Covers c p := by
  constructor
  · rintro ⟨hparent, hcycle⟩
    have hc : f.Has c := has_of_read hparent
    -- a handle that is not of the forest gives no answer, unless it is the child itself
    have hp : f.Has p := by
      by_contra hp
      unfold wouldCreateCycle at hcycle
      rw [isAncestorOf_of_not_has hp] at hcycle
      split at hcycle <;> cases hcycle
    rw [h.parent_eq hc] at hparent
    rw [h.wouldCreateCycle_eq hp] at hcycle
    exact ⟨hp, hc, by simpa using hparent, by simpa using hcycle⟩
  · rintro ⟨hp, hc, hn, hv⟩
    refine ⟨by rw [h.parent_eq hc, hn], ?_⟩
    rw [h.wouldCreateCycle_eq hp]
    simpa using hv

/-- A node has a parent when it has a place among the parent's children. -/
theorem Realizes.parent_eq_some_iff (h : f.Realizes s) :
    f.parent c = .ok (some p) ↔ ∃ before after, s.children p = before ++ c :: after := by
  rw [h.parent_ok_iff]
  constructor
  · exact Layout.exists_place
  · rintro ⟨before, after, hplace⟩
    exact Layout.parent_of_middle hplace

/-- Which links the guard lets through. -/
structure ExactGuard (f : Forest) : Prop where
  prependChild : ∀ p c, (Edit.prependChild p c).answer f = .ok () ↔ f.MayAttach p c
  appendChild : ∀ p c, (Edit.appendChild p c).answer f = .ok () ↔ f.MayAttach p c
  insertAfter : ∀ c sibling, (Edit.insertAfter c sibling).answer f = .ok () ↔
    ∃ p, f.parent sibling = .ok (some p) ∧ f.MayAttach p c
  insertBefore : ∀ c sibling, (Edit.insertBefore c sibling).answer f = .ok () ↔
    ∃ p, f.parent sibling = .ok (some p) ∧ f.MayAttach p c
  replaceWith : ∀ old c, (Edit.replaceWith old c).answer f = .ok () ↔
    ∃ p, f.parent old = .ok (some p) ∧ f.MayAttach p c
  /-- No parentless node has a sibling, so nothing is refused for that. -/
  no_sibling : ∀ (command : Command) id operation,
    command.run.answer f ≠ .error (.link id operation .hasSibling)
  /-- A link closes a cycle when the parent is in the tree under the child. -/
  cycle : ∀ p c, f.Has p → ∃ closes, f.wouldCreateCycle p c = .ok closes ∧
    (closes = true ↔ f.Within c p)

end Forest

theorem Layout.Grafts.mayAttach (hg : s.Grafts f g p before c after) (h : f.Realizes s) :
    f.MayAttach p c :=
  h.mayAttach_iff.2 ⟨hg.has_parent, hg.has_child, hg.fits.alone c List.mem_cons_self,
    hg.fits.clear c List.mem_cons_self⟩

/-- Where a node is grafted, the nodes beside it had the same parent before. -/
theorem Layout.Grafts.parent_beside (hg : s.Grafts f g p before c after) (h : f.Realizes s)
    (hid : id ∈ before ++ after) : f.parent id = .ok (some p) := by
  rw [← hg.fits.place, s.mem_children] at hid
  exact h.parent_ok_iff.2 hid

namespace Edit

/-- When an edit succeeds, if it leads to `Q` and `Q` is what its success needs. -/
theorem answer_iff {edit : Edit Unit} {Q : Unit → Forest → Prop} {P : Prop} (hl : edit.Leads f Q)
    (hq : ∀ g, Q () g → P) (hs : P → edit.Succeeds f Q) : edit.answer f = .ok () ↔ P := by
  rw [answer_eq_ok_iff]
  constructor
  · intro he
    exact hq _ (hl.ok he)
  · intro hp
    obtain ⟨_, g, he, -⟩ := hs hp
    rw [after, he]

theorem prependChild_answer (h : f.Realizes s) (p c : NodeId) :
    (prependChild p c).answer f = .ok () ↔ f.MayAttach p c := by
  refine answer_iff (prependChild_leads h p c) (fun g hg => hg.mayAttach h) fun hm => ?_
  obtain ⟨hp, hc, hn, hv⟩ := h.mayAttach_iff.1 hm
  exact prependChild_succeeds h hp hc (Layout.fits_one rfl hn hv)

theorem appendChild_answer (h : f.Realizes s) (p c : NodeId) :
    (appendChild p c).answer f = .ok () ↔ f.MayAttach p c := by
  refine answer_iff (appendChild_leads h p c) (fun g hg => hg.mayAttach h) fun hm => ?_
  obtain ⟨hp, hc, hn, hv⟩ := h.mayAttach_iff.1 hm
  exact appendChild_succeeds h hp hc (Layout.fits_one (List.append_nil _).symm hn hv)

theorem insertAfter_answer (h : f.Realizes s) (c sibling : NodeId) :
    (insertAfter c sibling).answer f = .ok () ↔
      ∃ p, f.parent sibling = .ok (some p) ∧ f.MayAttach p c := by
  refine answer_iff (insertAfter_leads h c sibling) ?_ ?_
  · rintro g ⟨p, before, after, hg⟩
    exact ⟨p, hg.parent_beside h (by simp), hg.mayAttach h⟩
  · rintro ⟨p, hp, hm⟩
    obtain ⟨before, after, hplace⟩ := h.parent_eq_some_iff.1 hp
    obtain ⟨-, hc, hn, hv⟩ := h.mayAttach_iff.1 hm
    have hfit : s.Fits p (before ++ [sibling]) [c] after := Layout.fits_one (by simpa using hplace) hn hv
    exact (insertAfter_succeeds h hc hfit).mono fun _ g hg => ⟨p, before, after, hg⟩

theorem insertBefore_answer (h : f.Realizes s) (c sibling : NodeId) :
    (insertBefore c sibling).answer f = .ok () ↔
      ∃ p, f.parent sibling = .ok (some p) ∧ f.MayAttach p c := by
  refine answer_iff (insertBefore_leads h c sibling) ?_ ?_
  · rintro g ⟨p, before, after, hg⟩
    exact ⟨p, hg.parent_beside h (by simp), hg.mayAttach h⟩
  · rintro ⟨p, hp, hm⟩
    obtain ⟨before, after, hplace⟩ := h.parent_eq_some_iff.1 hp
    obtain ⟨-, hc, hn, hv⟩ := h.mayAttach_iff.1 hm
    exact (insertBefore_succeeds h hc (Layout.fits_one hplace hn hv)).mono fun _ g hg =>
      ⟨p, before, after, hg⟩

theorem replaceWith_answer (h : f.Realizes s) (old c : NodeId) :
    (replaceWith old c).answer f = .ok () ↔
      ∃ p, f.parent old = .ok (some p) ∧ f.MayAttach p c := by
  refine answer_iff (replaceWith_leads h old c) ?_ ?_
  · rintro g ⟨p, before, after, hg⟩
    have hplace : s.children p = before ++ old :: after := by simpa using hg.place
    have hp := (h.has (Layout.parent_of_middle hplace)).1
    exact ⟨p, h.parent_eq_some_iff.2 ⟨before, after, hplace⟩,
      h.mayAttach_iff.2 ⟨hp, hg.has_child, hg.alone, hg.clear⟩⟩
  · rintro ⟨p, hp, hm⟩
    obtain ⟨before, after, hplace⟩ := h.parent_eq_some_iff.1 hp
    obtain ⟨-, hc, hn, hv⟩ := h.mayAttach_iff.1 hm
    exact (replaceWith_succeeds h hc (by simpa using hplace) hn hv).mono fun _ g hg =>
      ⟨p, before, after, hg⟩

end Edit

/-- In a reachable forest attaching edits are refused exactly when they have to be. -/
theorem reachable_exactGuard (hf : f.Reachable) : f.ExactGuard := by
  obtain ⟨s, h⟩ := hf.realizes
  constructor
  · exact prependChild_answer h
  · exact appendChild_answer h
  · exact insertAfter_answer h
  · exact insertBefore_answer h
  · exact replaceWith_answer h
  · intro command id operation he
    exact ((command.run_leads h).error (answer_eq_error_iff.1 he)).1
  · exact fun p c hp => h.wouldCreateCycle_within hp c

theorem sampleForest_exactGuard :
    sampleForest.ExactGuard ∧ sampleForest.wouldCreateCycle ⟨1⟩ ⟨5⟩ = .ok true ∧
      (appendChild ⟨1⟩ ⟨5⟩).answer sampleForest = .error (.link ⟨5⟩ .appendChild .ownDescendant) ∧
      (appendChild ⟨1⟩ ⟨6⟩).answer sampleForest = .ok () :=
  ⟨reachable_exactGuard reachable_sampleForest, by decide +kernel, by decide +kernel, by decide +kernel⟩

/-! ## What attaching does -/

namespace Forest

/-- `g` is `f` with `cs` put between `before` and `after` among the children of `p`, and is otherwise the
same. -/
structure Inserted (f g : Forest) (p : NodeId) (before cs after : List NodeId) : Prop where
  old_children : f.children p = .ok (before ++ after)
  new_children : g.children p = .ok (before ++ cs ++ after)
  new_parent : ∀ c ∈ cs, g.parent c = .ok (some p)
  other_children : ∀ q, q ≠ p → g.children q = f.children q
  other_parent : ∀ x, x ∉ cs → g.parent x = f.parent x
  /-- Kind, payload, properties, position and type text of every node stay. -/
  contents : f.SameContents g

theorem Realizes.children_congr (hf : f.Realizes s) (hg : g.Realizes t) (hfg : f.SameContents g)
    (hid : t.children id = s.children id) : g.children id = f.children id := by
  by_cases hhas : f.Has id
  · rw [hg.children_eq (hfg.has.2 hhas), hf.children_eq hhas, hid]
  · rw [children_of_not_has hhas, children_of_not_has (mt hfg.has.1 hhas), hfg.size]

theorem Realizes.parent_congr (hf : f.Realizes s) (hg : g.Realizes t) (hfg : f.SameContents g)
    (hid : t.parent id = s.parent id) : g.parent id = f.parent id := by
  by_cases hhas : f.Has id
  · rw [hg.parent_eq (hfg.has.2 hhas), hf.parent_eq hhas, hid]
  · have he : f.parent id = .error (.outOfRange f.size id.index) := read_eq_error_iff.2 ⟨hhas, rfl⟩
    rw [he, ← hfg.size]
    exact read_eq_error_iff.2 ⟨mt hfg.has.1 hhas, rfl⟩

/-- A grafted layout, seen through the queries. -/
theorem Realizes.inserted (hf : f.Realizes s) (hfit : s.Fits p before cs after)
    (hg : g.Realizes (s.graft p before cs after hfit)) (hfg : f.SameContents g) (hp : f.Has p)
    (hcs : ∀ c ∈ cs, f.Has c) : f.Inserted g p before cs after where
  old_children := by rw [hf.children_eq hp, hfit.place]
  new_children := by rw [hg.children_eq (hfg.has.2 hp), Layout.children_graft, if_pos rfl]
  new_parent c hc := by rw [hg.parent_eq (hfg.has.2 (hcs c hc)), Layout.parent_graft, if_pos hc]
  other_children q hq := hf.children_congr hg hfg (by rw [Layout.children_graft, if_neg hq])
  other_parent x hx := hf.parent_congr hg hfg (by rw [Layout.parent_graft, if_neg hx])
  contents := hfg

end Forest

theorem Layout.Grafts.inserted (hg : s.Grafts f g p before c after) (hf : f.Realizes s) :
    f.Inserted g p before [c] after := by
  refine hf.inserted hg.fits (hg.realizes hf) hg.sameContents hg.has_parent fun x hx => ?_
  rw [List.mem_singleton.1 hx]
  exact hg.has_child

/-- Attaching edits that succeed on a reachable forest insert into one list of children. -/
theorem reachable_inserted (hf : f.Reachable) :
    -- in front of all children, or behind them
    (∀ p c, (prependChild p c).answer f = .ok () →
      ∃ children, f.Inserted ((prependChild p c).after f) p [] [c] children) ∧
    (∀ p c, (appendChild p c).answer f = .ok () →
      ∃ children, f.Inserted ((appendChild p c).after f) p children [c] []) ∧
    (∀ p cs, f.Has p → (appendChildren p cs).answer f = .ok () →
      ∃ children, f.Inserted ((appendChildren p cs).after f) p children cs []) ∧
    -- right after a sibling, or right before it
    (∀ c sibling, (insertAfter c sibling).answer f = .ok () → ∃ p before after,
      f.parent sibling = .ok (some p) ∧
        f.Inserted ((insertAfter c sibling).after f) p (before ++ [sibling]) [c] after) ∧
    (∀ c sibling, (insertBefore c sibling).answer f = .ok () → ∃ p before after,
      f.parent sibling = .ok (some p) ∧
        f.Inserted ((insertBefore c sibling).after f) p before [c] (sibling :: after)) := by
  obtain ⟨s, h⟩ := hf.realizes
  refine ⟨?_, ?_, ?_, ?_, ?_⟩
  · intro p c ha
    exact ⟨_, ((prependChild_leads h p c).ok (answer_eq_ok_iff.1 ha)).inserted h⟩
  · intro p c ha
    exact ⟨_, ((appendChild_leads h p c).ok (answer_eq_ok_iff.1 ha)).inserted h⟩
  · intro p cs hp ha
    have hg := (appendChildren_leads h p cs).ok (answer_eq_ok_iff.1 ha)
    exact ⟨_, h.inserted hg.fits hg.realizes hg.sameContents hp hg.has⟩
  · intro c sibling ha
    obtain ⟨p, before, after, hg⟩ := (insertAfter_leads h c sibling).ok (answer_eq_ok_iff.1 ha)
    exact ⟨p, before, after, hg.parent_beside h (by simp), hg.inserted h⟩
  · intro c sibling ha
    obtain ⟨p, before, after, hg⟩ := (insertBefore_leads h c sibling).ok (answer_eq_ok_iff.1 ha)
    exact ⟨p, before, after, hg.parent_beside h (by simp), hg.inserted h⟩

-- the copied block goes between the two statements of the block that it was copied from
theorem sampleForest_inserted :
    (insertBefore ⟨6⟩ ⟨2⟩).answer sampleForest = .ok () ∧ ∃ p before after,
      sampleForest.parent ⟨2⟩ = .ok (some p) ∧
        sampleForest.Inserted ((insertBefore ⟨6⟩ ⟨2⟩).after sampleForest) p before [⟨6⟩] (⟨2⟩ :: after) := by
  have h : (insertBefore ⟨6⟩ ⟨2⟩).answer sampleForest = .ok () := by decide +kernel
  exact ⟨h, (reachable_inserted reachable_sampleForest).2.2.2.2 ⟨6⟩ ⟨2⟩ h⟩

end SyntaxForest
