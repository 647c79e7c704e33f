import SyntaxForest.Proofs.Preorder
/-!
# The top of a tree

Going up from a node along parent links ends at a node without a parent, and only one such node is above it
or is the node itself. This is the node that `rootOf` answers.
-/

namespace SyntaxForest

variable {s : Layout} {f : Forest} {a b x id root : NodeId}

theorem Layout.eq_of_tops (ha : s.parent a = none) (hb : s.parent b = none) (hax : s.Covers a x)
    (hbx : s.Covers b x) : a = b := by
  rcases covers_total hax hbx with hab | hba
  · exact ((covers_of_parentless hb).1 hab).symm
  · exact (covers_of_parentless ha).1 hba

namespace Forest

/-- A walk along links ends at a node without a further link. -/
theorem follow_last {link : Node → Option NodeId} {steps : Nat} {start : Option NodeId}
    {met ids : List NodeId} (h : f.follow link steps start met = .ok ids) :
    (start = none ∧ ids = met.reverse) ∨
      ∃ r n, ids.getLast? = some r ∧ f.node r = .ok n ∧ link n = none := by
  refine follow_induct h ?_ ?_
  · intro steps met hids
    exact .inl ⟨rfl, hids⟩
  · intro steps id n met hn ih
    right
    rcases ih with ⟨hlink, rfl⟩ | hlast
    · exact ⟨id, n, by simp, hn, hlink⟩
    · exact hlast

theorem rootOf_of_not_has (hid : ¬ f.Has id) : f.rootOf id = .error (.outOfRange f.size id.index) := by
  simp only [rootOf, ancestors, parent, node_eq_error_iff.2 ⟨hid, rfl⟩, bind, Except.bind]

theorem has_of_rootOf (h : f.rootOf id = .ok root) : f.Has id := by
  by_contra hid
  rw [rootOf_of_not_has hid] at h
  cases h

namespace Realizes

theorem exists_top (h : f.Realizes s) (hid : f.Has id) :
    ∃ r, f.rootOf id = .ok r ∧ s.parent r = none ∧ s.Covers r id := by
  obtain ⟨up, hup, hmem⟩ := h.ancestors_eq hid
  have hroot : f.rootOf id = .ok (up.getLastD id) := by
    unfold rootOf
    rw [hup]
    rfl
  have hfollow : f.follow (·.parent) f.size (s.parent id) [] = .ok up := by
    unfold ancestors at hup
    rw [h.parent_eq hid] at hup
    exact hup
  rcases follow_last hfollow with ⟨hp, rfl⟩ | ⟨r, n, hlast, hn, hp⟩
  · exact ⟨id, hroot, hp, Layout.Covers.refl s id⟩
  · rw [List.getLastD_eq_getLast?, hlast] at hroot
    refine ⟨r, hroot, (h.links hn).parent.symm.trans hp, ?_⟩
    exact ((hmem r).1 (List.mem_of_getLast? hlast)).covers

/-- The root of a node has no parent, and is the node or above it. -/
theorem rootOf_eq_iff (h : f.Realizes s) :
    f.rootOf id = .ok root ↔ f.Has id ∧ s.parent root = none ∧ s.Covers root id := by
  by_cases hid : f.Has id
  · obtain ⟨r, hroot, htop, hcov⟩ := h.exists_top hid
    rw [hroot, Except.ok.injEq]
    constructor
    · rintro rfl
      exact ⟨hid, htop, hcov⟩
    · rintro ⟨-, htop', hcov'⟩
      exact Layout.eq_of_tops htop htop' hcov hcov'
  · rw [rootOf_of_not_has hid]
    simp [hid]

theorem rootOf_root (h : f.Realizes s) (hid : f.rootOf id = .ok root) : f.rootOf root = .ok root := by
  obtain ⟨hhas, htop, hcov⟩ := h.rootOf_eq_iff.1 hid
  exact h.rootOf_eq_iff.2 ⟨h.has_of_covered hhas hcov, htop, Layout.Covers.refl s root⟩

end Realizes

end Forest

end SyntaxForest
