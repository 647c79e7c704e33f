import SyntaxForest.Proofs.Effects
/-!
# Changes of records

Linking a node into a chain of children writes at most three records, and so does taking it out. Both
are said once, as what becomes of each record: records changed by `grafted` or `pruned` realize the
layout that is grafted or pruned in the same place, and they carry what they carried before.
-/

namespace SyntaxForest

/-! ## What becomes of each record -/

/-- The record of `x` once `c` is linked under `p`, between `before` and `after`. -/
def grafted (p : NodeId) (before : List NodeId) (c : NodeId) (after : List NodeId) (x : NodeId)
    (n : Node) : Node :=
  { n with
    parent := if x = c then some p else n.parent
    firstChild := if x = p ∧ before = [] then some c else n.firstChild
    lastChild := if x = p ∧ after = [] then some c else n.lastChild
    nextSibling :=
      if x = c then after.head? else if before.getLast? = some x then some c else n.nextSibling }

/-- The record of `x` once `cs` are taken away from under `p`, between `before` and `after`. -/
def pruned (p : NodeId) (before cs after : List NodeId) (x : NodeId) (n : Node) : Node :=
  { n with
    parent := if x ∈ cs then none else n.parent
    firstChild := if x = p ∧ before = [] then after.head? else n.firstChild
    lastChild := if x = p ∧ after = [] then before.getLast? else n.lastChild
    nextSibling :=
      if x ∈ cs then none else if before.getLast? = some x then after.head? else n.nextSibling }

variable {s : Layout} {f g : Forest} {p c x : NodeId} {before cs after : List NodeId} {n : Node}

/-- What is pruned from a place is not seen any more once another node is grafted there. -/
theorem grafted_pruned (p : NodeId) (before : List NodeId) (old c : NodeId) (after : List NodeId)
    (x : NodeId) (n : Node) :
    grafted p before c after x (pruned p before [old] after x n) =
      { grafted p before c after x n with
        parent := if x = c then some p else if x = old then none else n.parent
        nextSibling :=
          if x = c then after.head?
          else if before.getLast? = some x then some c else if x = old then none else n.nextSibling } := by
  have keep : ∀ (q : Prop) [Decidable q] (a b d : Option NodeId),
      (if q then a else if q then b else d) = if q then a else d := by
    intro q _ a b d
    split <;> rfl
  have skip : ∀ (q r : Prop) [Decidable q] [Decidable r] (a b d e : Option NodeId),
      (if q then a else if r then b else if q then d else e) =
        if q then a else if r then b else e := by
    intro q r _ _ a b d e
    by_cases hq : q <;> simp [hq]
  simp only [grafted, pruned, List.mem_singleton, keep, skip]

theorem Layout.Describes.grafted (hn : s.Describes x n) (h : s.Fits p before [c] after) :
    (s.graft p before [c] after h).Describes x (grafted p before c after x n) where
  parent := by
    simp [SyntaxForest.grafted, parent_graft, hn.parent]
  firstChild := by
    simp only [SyntaxForest.grafted, children_graft, hn.firstChild]
    by_cases hx : x = p
    · subst hx
      cases before <;> simp [h.place]
    · simp [hx]
  lastChild := by
    simp only [SyntaxForest.grafted, children_graft, hn.lastChild]
    by_cases hx : x = p
    · subst hx
      rcases List.eq_nil_or_concat' after with rfl | ⟨after, a, rfl⟩
      · simp
      · have hnew : (before ++ [c] ++ (after ++ [a])).getLast? = some a := by
          rw [← List.append_assoc, List.getLast?_concat]
        rw [if_pos rfl, hnew]
        simp [h.place]
    · simp [hx]
  nextSibling := by
    simp only [SyntaxForest.grafted, next_graft, hn.nextSibling, List.mem_singleton]
    by_cases hx : x = c
    · simp [hx, successor?]
    · simp [hx]

theorem Layout.Describes.pruned (hn : s.Describes x n) (h : s.children p = before ++ cs ++ after) :
    (s.prune p before cs after h).Describes x (pruned p before cs after x n) where
  parent := by
    simp [SyntaxForest.pruned, parent_prune, hn.parent]
  firstChild := by
    simp only [SyntaxForest.pruned, children_prune, hn.firstChild]
    by_cases hx : x = p
    · subst hx
      cases before <;> simp [h]
    · simp [hx]
  lastChild := by
    simp only [SyntaxForest.pruned, children_prune, hn.lastChild]
    by_cases hx : x = p
    · subst hx
      rcases List.eq_nil_or_concat after with rfl | ⟨after, a, rfl⟩
      · simp
      · simp [h]
    · simp [hx]
  nextSibling := by
    simp only [SyntaxForest.pruned, next_prune, hn.nextSibling]

/-- `g` is `f` with `c` linked under `p`, between `before` and `after`, where it fits. -/
structure Layout.Grafts (s : Layout) (f g : Forest) (p : NodeId) (before : List NodeId) (c : NodeId)
    (after : List NodeId) : Prop where
  fits : s.Fits p before [c] after
  has_parent : f.Has p
  has_child : f.Has c
  rewritten : f.Rewritten g (grafted p before c after)

/-- `g` is `f` with `cs` taken away from under `p`, between `before` and `after`. -/
structure Layout.Prunes (s : Layout) (f g : Forest) (p : NodeId) (before cs after : List NodeId) :
    Prop where
  place : s.children p = before ++ cs ++ after
  rewritten : f.Rewritten g (pruned p before cs after)

theorem Layout.Grafts.realizes (h : s.Grafts f g p before c after) (hf : f.Realizes s) :
    g.Realizes (s.graft p before [c] after h.fits) := by
  refine h.rewritten.realizes hf (fun x n hn => hn.grafted h.fits) fun {q y} hq => ?_
  rw [parent_graft] at hq
  split at hq
  · rename_i hy
    cases hq
    rw [List.mem_singleton.1 hy]
    exact ⟨h.has_parent, h.has_child⟩
  · exact hf.has hq

theorem Layout.Prunes.realizes (h : s.Prunes f g p before cs after) (hf : f.Realizes s) :
    g.Realizes (s.prune p before cs after h.place) := by
  refine h.rewritten.realizes hf (fun x n hn => hn.pruned h.place) fun {q y} hq => ?_
  rw [parent_prune] at hq
  split at hq
  · cases hq
  · exact hf.has hq

theorem Layout.Grafts.sameContents (h : s.Grafts f g p before c after) : f.SameContents g :=
  h.rewritten.sameContents fun _ _ => rfl

theorem Layout.Prunes.sameContents (h : s.Prunes f g p before cs after) : f.SameContents g :=
  h.rewritten.sameContents fun _ _ => rfl

end SyntaxForest
