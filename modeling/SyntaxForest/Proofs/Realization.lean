import Mathlib.Data.List.Perm.Subperm
import SyntaxForest.Forest.Lemmas
import SyntaxForest.Forest.WellFormed
import SyntaxForest.Proofs.Layout
/-!
# Forests that realize a layout

A forest realizes a layout when the links of each of its nodes are the ones that the layout gives it.
The queries then answer what the layout says: no walk along links runs out of steps, and no link leads
out of the forest. Such a forest is well formed.
-/

namespace SyntaxForest

/-- The links of `n` are those that the layout gives to `id`. -/
structure Layout.Describes (s : Layout) (id : NodeId) (n : Node) : Prop where
  parent : n.parent = s.parent id
  firstChild : n.firstChild = (s.children id).head?
  lastChild : n.lastChild = (s.children id).getLast?
  nextSibling : n.nextSibling = s.next id

namespace Forest

/-- The links of a forest are those of a layout, which places only nodes of the forest. -/
structure Realizes (f : Forest) (s : Layout) : Prop where
  links : ∀ {id n}, f.node id = .ok n → s.Describes id n
  has : ∀ {p c}, s.parent c = some p → f.Has p ∧ f.Has c

variable {f : Forest} {s : Layout} {id p c : NodeId} {n : Node}

/-! ## Reading one node -/

theorem read_eq_ok_iff {α : Type} {view : Node → α} {a : α} :
    (return view (← f.node id) : Except Fault α) = .ok a ↔ ∃ n, f.node id = .ok n ∧ view n = a := by
  cases f.node id <;> simp [bind, Except.bind, pure, Except.pure]

theorem read_eq_error_iff {α : Type} {view : Node → α} {e : Fault} :
    (return view (← f.node id) : Except Fault α) = .error e ↔
      ¬ f.Has id ∧ e = .outOfRange f.size id.index := by
  rw [← node_eq_error_iff]
  cases f.node id <;> simp [bind, Except.bind, pure, Except.pure]

/-- A query that answers for each element of a list answers along the list. -/
theorem mapM_of_forall₂ {α β : Type} {query : α → Except Fault β} {xs : List α} {ys : List β}
    (h : List.Forall₂ (fun x y => query x = .ok y) xs ys) : xs.mapM query = .ok ys := by
  induction h with
  | nil => rfl
  | cons hx _ ih =>
    rw [List.mapM_cons, hx, ih]
    rfl

theorem exists_forall₂ {α β : Type} {R : α → β → Prop} {xs : List α} (h : ∀ x ∈ xs, ∃ y, R x y) :
    ∃ ys, List.Forall₂ R xs ys := by
  induction xs with
  | nil => exact ⟨[], .nil⟩
  | cons x xs ih =>
    rw [List.forall_mem_cons] at h
    obtain ⟨y, hy⟩ := h.1
    obtain ⟨ys, hys⟩ := ih h.2
    exact ⟨y :: ys, .cons hy hys⟩

/-! ## What a realized layout says -/

theorem realizes_empty : empty.Realizes .scattered where
  links h := nomatch Has.of_node h
  has h := nomatch h

namespace Realizes

theorem has_child (h : f.Realizes s) (hc : c ∈ s.children p) : f.Has c := (h.has (s.mem_children.1 hc)).2

theorem has_of_covers (h : f.Realizes s) (hid : f.Has id) (hc : s.Covers id c) : f.Has c := by
  rcases Layout.covers_iff.1 hc with rfl | hc
  · exact hid
  · obtain ⟨p, hp, -⟩ := Layout.above_iff.1 hc
    exact (h.has hp).2

theorem has_of_covered (h : f.Realizes s) (hc : f.Has c) (hid : s.Covers id c) : f.Has id := by
  rcases Layout.covers_iff.1 hid with rfl | hid
  · exact hc
  · obtain ⟨b, hb, -⟩ := Relation.TransGen.head'_iff.1 hid
    exact (h.has hb).1

/-- A handle that is not of the forest stands alone in the layout. -/
theorem alone (h : f.Realizes s) (hid : ¬ f.Has id) : s.parent id = none ∧ s.children id = [] := by
  constructor
  · refine Option.eq_none_iff_forall_not_mem.2 fun p hp => ?_
    exact hid (h.has hp).2
  · refine List.eq_nil_iff_forall_not_mem.2 fun c hc => ?_
    exact hid (h.has (s.mem_children.1 hc)).1

theorem read_eq {α : Type} (h : f.Realizes s) (hid : f.Has id) (view : Node → α) {a : α}
    (hv : ∀ n, s.Describes id n → view n = a) : (return view (← f.node id) : Except Fault α) = .ok a := by
  obtain ⟨n, hn⟩ := has_iff_node.1 hid
  exact read_eq_ok_iff.2 ⟨n, hn, hv n (h.links hn)⟩

theorem parent_eq (h : f.Realizes s) (hid : f.Has id) : f.parent id = .ok (s.parent id) :=
  h.read_eq hid (·.parent) fun _ hn => hn.parent

theorem parent_ok_iff (h : f.Realizes s) : f.parent c = .ok (some p) ↔ s.parent c = some p := by
  constructor
  · intro hc
    obtain ⟨n, hn, hp⟩ := read_eq_ok_iff.1 hc
    rw [← (h.links hn).parent, hp]
  · intro hc
    rw [h.parent_eq (h.has hc).2, hc]

theorem firstChild_eq (h : f.Realizes s) (hid : f.Has id) :
    f.firstChild id = .ok (s.children id).head? :=
  h.read_eq hid (·.firstChild) fun _ hn => hn.firstChild

theorem lastChild_eq (h : f.Realizes s) (hid : f.Has id) :
    f.lastChild id = .ok (s.children id).getLast? :=
  h.read_eq hid (·.lastChild) fun _ hn => hn.lastChild

theorem nextSibling_eq (h : f.Realizes s) (hid : f.Has id) : f.nextSibling id = .ok (s.next id) :=
  h.read_eq hid (·.nextSibling) fun _ hn => hn.nextSibling

/-- A node stands alone when it has no parent: a sibling link comes only with one. -/
theorem isDetached_eq (h : f.Realizes s) (hid : f.Has id) :
    f.isDetached id = .ok (s.parent id).isNone := by
  refine h.read_eq hid (·.isDetached) fun n hn => ?_
  unfold Node.isDetached
  rw [hn.parent, hn.nextSibling]
  cases hp : s.parent id with
  | none => simp [Layout.next_of_parentless hp]
  | some p => rfl

end Realizes

/-! ## Walks along links -/

/-- Induction on a walk along links that gives an answer: it stops, or it takes one step and goes on. -/
@[elab_as_elim] theorem follow_induct {link : Node → Option NodeId} {ids : List NodeId}
    {P : Nat → Option NodeId → List NodeId → Prop} {steps : Nat} {start : Option NodeId} {met : List NodeId}
    (h : f.follow link steps start met = .ok ids) (stop : ∀ steps met, ids = met.reverse → P steps none met)
    (step : ∀ steps id n met, f.node id = .ok n → P steps (link n) (id :: met) → P (steps + 1) (some id) met) :
    P steps start met := by
  fun_induction f.follow link steps start met with
  | case1 steps met => exact stop steps met (Except.ok.inj h).symm
  | case2 => cases h
  | case3 steps id met ih =>
    cases hn : f.node id with
    | error e =>
      rw [hn] at h
      cases h
    | ok n =>
      rw [hn] at h
      exact step steps id n met hn (ih n h)

/-- Distinct nodes of a forest are at most as many as it has. -/
theorem length_le_size {ids : List NodeId} (hn : ids.Nodup) (h : ∀ id ∈ ids, f.Has id) :
    ids.length ≤ f.size := by
  have hs : ids ⊆ f.ids := fun id hid => mem_ids.2 (h id hid)
  have hl := (hn.subperm hs).length_le
  simpa [Forest.ids] using hl

namespace Realizes

/-- Following sibling links from a place among the children of `p` gives the rest of them. -/
theorem follow_siblings (h : f.Realizes s) {before rest met : List NodeId} {steps : Nat}
    (hp : s.children p = before ++ rest) (hs : rest.length ≤ steps) :
    f.follow (·.nextSibling) steps rest.head? met = .ok (met.reverse ++ rest) := by
  induction rest generalizing before met steps with
  | nil => simp [follow]
  | cons a rest ih =>
    obtain ⟨steps, rfl⟩ : ∃ k, steps = k + 1 := ⟨steps - 1, by simp at hs; omega⟩
    obtain ⟨n, hn⟩ := has_iff_node.1 (h.has (Layout.parent_of_middle hp)).2
    have hnext : n.nextSibling = rest.head? := by
      rw [(h.links hn).nextSibling, Layout.next_of_middle hp]
    have hp' : s.children p = (before ++ [a]) ++ rest := by simp [hp]
    have hs' : rest.length ≤ steps := by simpa using hs
    simp only [List.head?_cons, follow, hn]
    calc f.follow (·.nextSibling) steps n.nextSibling (a :: met)
        = f.follow (·.nextSibling) steps rest.head? (a :: met) := by rw [hnext]
      _ = .ok ((a :: met).reverse ++ rest) := ih hp' hs'
      _ = .ok (met.reverse ++ a :: rest) := by simp

theorem children_eq (h : f.Realizes s) (hid : f.Has id) : f.children id = .ok (s.children id) := by
  have hl := length_le_size (s.nodup id) fun c hc => h.has_child hc
  unfold children
  rw [h.firstChild_eq hid]
  exact h.follow_siblings (List.nil_append _).symm hl

/-- Following parent links meets each node above the start once. The nodes met so far are below it and
distinct, so the steps cannot run out. -/
theorem follow_parents (h : f.Realizes s) {start : Option NodeId} {met : List NodeId} {steps : Nat}
    (hstart : ∀ a, start = some a → f.Has a) (hmet : ∀ m ∈ met, f.Has m)
    (hbelow : ∀ a, start = some a → ∀ m ∈ met, s.Above a m) (hn : met.Nodup)
    (hs : f.size ≤ steps + met.length) :
    ∃ up, f.follow (·.parent) steps start met = .ok (met.reverse ++ up) ∧
      ∀ a, a ∈ up ↔ ∃ b, start = some b ∧ s.Covers a b := by
  induction steps generalizing start met with
  | zero =>
    cases start with
    | none => exact ⟨[], by simp [follow], by simp⟩
    | some a =>
      have hnew : a ∉ met := fun hm => s.acyclic a (hbelow a rfl a hm)
      have hl := length_le_size (f := f) (List.nodup_cons.2 ⟨hnew, hn⟩)
        (List.forall_mem_cons.2 ⟨hstart a rfl, hmet⟩)
      simp at hl hs
      omega
  | succ steps ih =>
    cases start with
    | none => exact ⟨[], by simp [follow], by simp⟩
    | some a =>
      have hnew : a ∉ met := fun hm => s.acyclic a (hbelow a rfl a hm)
      obtain ⟨n, hnode⟩ := has_iff_node.1 (hstart a rfl)
      have hup : n.parent = s.parent a := (h.links hnode).parent
      -- one step up: all nodes met are below the next start as well
      have hbelow' : ∀ b, n.parent = some b → ∀ m ∈ a :: met, s.Above b m := by
        intro b hb m hm
        rw [hup] at hb
        rcases List.mem_cons.1 hm with rfl | hm
        · exact .single hb
        · exact Relation.TransGen.head hb (hbelow a rfl m hm)
      obtain ⟨up, hfollow, hmem⟩ := @ih n.parent (a :: met)
        (fun b hb => (h.has (hup ▸ hb)).1) (List.forall_mem_cons.2 ⟨hstart a rfl, hmet⟩) hbelow'
        (List.nodup_cons.2 ⟨hnew, hn⟩) (by simp; omega)
      refine ⟨a :: up, ?_, fun x => ?_⟩
      · rw [List.reverse_cons, List.append_assoc] at hfollow
        rw [follow, hnode]
        exact hfollow
      · rw [List.mem_cons, hmem, hup]
        simp only [Option.some.injEq, exists_eq_left', Layout.covers_iff (b := a), Layout.above_iff]
        simp [eq_comm]

theorem ancestors_eq (h : f.Realizes s) (hid : f.Has id) :
    ∃ up, f.ancestors id = .ok up ∧ ∀ a, a ∈ up ↔ s.Above a id := by
  obtain ⟨up, hfollow, hmem⟩ := @follow_parents f s h (s.parent id) [] f.size
    (fun a ha => (h.has ha).1) (by simp) (by simp) List.nodup_nil (by simp)
  refine ⟨up, ?_, fun a => (hmem a).trans Layout.above_iff.symm⟩
  unfold ancestors
  rw [h.parent_eq hid]
  exact hfollow

open Classical in
theorem isAncestorOf_eq (h : f.Realizes s) (hid : f.Has id) (a : NodeId) :
    f.isAncestorOf a id = .ok (decide (s.Above a id)) := by
  obtain ⟨up, hup, hmem⟩ := h.ancestors_eq hid
  have hc : up.contains a = decide (s.Above a id) := by
    rw [Bool.eq_iff_iff, List.contains_iff_mem, decide_eq_true_iff, hmem]
  unfold isAncestorOf
  rw [hup, ← hc]
  rfl

open Classical in
/-- A link under `p` closes a cycle when `p` is the child itself or below it. -/
theorem wouldCreateCycle_eq (h : f.Realizes s) (hp : f.Has p) (c : NodeId) :
    f.wouldCreateCycle p c = .ok (decide (s.Covers c p)) := by
  unfold wouldCreateCycle
  split
  · rename_i e
    simp [e, Layout.Covers.refl]
  · rename_i e
    simp [h.isAncestorOf_eq hp, Layout.covers_iff, e]

theorem previousSibling_eq (h : f.Realizes s) {before after : List NodeId}
    (hp : s.children p = before ++ c :: after) : f.previousSibling c = .ok before.getLast? := by
  have hc := Layout.parent_of_middle hp
  obtain ⟨hb, ha⟩ := Layout.not_mem_of_middle hp
  rw [← predecessor?_middle hb ha, ← hp]
  unfold previousSibling
  rw [h.parent_eq (h.has hc).2, hc]
  simp only [h.children_eq (h.has hc).1, bind, Except.bind, pure, Except.pure]

/-! ## Well-formedness -/

theorem above_of_ancestor (h : f.Realizes s) {a b : NodeId} (hab : f.Ancestor a b) : s.Above a b := by
  induction hab with
  | parent hb => exact .single (h.parent_ok_iff.1 hb)
  | above hc _ ih => exact .tail ih (h.parent_ok_iff.1 hc)

theorem wellFormed (h : f.Realizes s) : f.WellFormed where
  links_has id n target hn ht := by
    have hd := h.links hn
    simp only [Forest.links, List.mem_cons, List.not_mem_nil, or_false] at ht
    rcases ht with ht | ht | ht | ht
    · rw [hd.parent] at ht
      exact (h.has ht.symm).1
    · rw [hd.firstChild] at ht
      exact h.has_child (List.mem_of_head? ht.symm)
    · rw [hd.lastChild] at ht
      exact h.has_child (List.mem_of_getLast? ht.symm)
    · rw [hd.nextSibling] at ht
      obtain ⟨p, -, hp⟩ := Layout.parent_of_next ht.symm
      exact (h.has hp).2
  children_ok id n hn := by
    have hd := h.links hn
    refine ⟨s.children id, h.children_eq (.of_node hn), s.nodup id, hd.firstChild, hd.lastChild, fun c => ?_⟩
    rw [s.mem_children, h.parent_ok_iff]
  alone id n hn hp := by
    rw [(h.links hn).nextSibling]
    exact Layout.next_of_parentless ((h.links hn).parent ▸ hp)
  acyclic id hid := s.acyclic id (h.above_of_ancestor hid)

end Realizes

end Forest

end SyntaxForest
