import SyntaxForest.Proofs.Roots
import SyntaxForest.Proofs.Runs
/-!
# Queries that agree

The queries read different links. The sibling after a node is a link of its own and the sibling before it is
searched for from the parent; the first and the last child are links, and all other places are counted along the
chain. In a forest with a layout they all speak about one list of children for each node, so what one of them
answers settles what the others do.
-/

namespace SyntaxForest

variable {s : Layout} {f : Forest} {p a b c id : NodeId} {i : Nat}

/-! ## Places in a list of children -/

/-- Where nothing repeats, the index of an element is the one place that it stands at. -/
theorem idxOf?_eq_some_iff_of_nodup {xs : List NodeId} (hn : xs.Nodup) :
    xs.idxOf? c = some i ↔ xs[i]? = some c := by
  rw [List.idxOf?_eq_some_iff, List.getElem?_eq_some_iff]
  constructor
  · rintro ⟨hi, hc, -⟩
    exact ⟨hi, hc⟩
  · rintro ⟨hi, hc⟩
    refine ⟨hi, hc, fun j hj he => ?_⟩
    have hij : j = i := hn.getElem_inj_iff.1 (he.trans hc.symm)
    omega

/-- A list without repetition has one element when its first element is also its last. -/
theorem length_eq_one_iff_of_nodup {xs : List NodeId} (hn : xs.Nodup) :
    xs.length = 1 ↔ xs.head?.isSome = true ∧ xs.head? = xs.getLast? := by
  cases xs with
  | nil => simp
  | cons a xs =>
    rcases List.eq_nil_or_concat' xs with rfl | ⟨ys, b, rfl⟩
    · simp
    · have hab : a ≠ b := fun e => (List.nodup_cons.1 hn).1 (by simp [e])
      rw [← List.cons_append, List.getLast?_concat]
      simp [hab]

/-- The sibling after a node stands right behind it in a list of children. -/
theorem Layout.next_eq_some_iff :
    s.next a = some b ↔ ∃ p before after, s.children p = before ++ a :: b :: after := by
  constructor
  · intro hb
    obtain ⟨p, hp, -⟩ := parent_of_next hb
    obtain ⟨before, rest, hplace⟩ := exists_place hp
    rw [next_of_middle hplace] at hb
    obtain ⟨after, rfl⟩ := List.head?_eq_some_iff.1 hb
    exact ⟨p, before, after, hplace⟩
  · rintro ⟨p, before, after, hplace⟩
    rw [next_of_middle hplace]
    rfl

namespace Forest

/-! ## Each query by the layout -/

namespace Realizes

theorem childCount_eq (h : f.Realizes s) (hp : f.Has p) : f.childCount p = .ok (s.children p).length := by
  unfold childCount
  rw [h.children_eq hp]
  rfl

theorem childAt_eq (h : f.Realizes s) (hp : f.Has p) (i : Nat) : f.childAt p i = .ok (s.children p)[i]? := by
  unfold childAt
  rw [h.children_eq hp]
  rfl

theorem indexOfChild_eq (h : f.Realizes s) (hc : s.parent c = some p) :
    f.indexOfChild c = .ok ((s.children p).idxOf? c) := by
  obtain ⟨hhas, hhas'⟩ := h.has hc
  unfold indexOfChild
  rw [h.parent_eq hhas', hc]
  simp only [h.children_eq hhas, bind, Except.bind, pure, Except.pure]

theorem indexOfChild_eq_iff (h : f.Realizes s) (hc : s.parent c = some p) :
    f.indexOfChild c = .ok (some i) ↔ (s.children p)[i]? = some c := by
  rw [h.indexOfChild_eq hc, Except.ok.injEq, idxOf?_eq_some_iff_of_nodup (s.nodup p)]

theorem hasOneChild_eq (h : f.Realizes s) (hp : f.Has p) :
    f.hasOneChild p = .ok (decide ((s.children p).length = 1)) := by
  refine h.read_eq hp (·.hasOneChild) fun n hn => ?_
  unfold Node.hasOneChild
  rw [hn.firstChild, hn.lastChild, Bool.eq_iff_iff, decide_eq_true_iff, length_eq_one_iff_of_nodup (s.nodup p)]
  simp

theorem previousSibling_of_next (h : f.Realizes s) (hnext : s.next a = some b) :
    f.previousSibling b = .ok (some a) := by
  obtain ⟨p, before, after, hplace⟩ := Layout.next_eq_some_iff.1 hnext
  have hshift : s.children p = (before ++ [a]) ++ b :: after := by simpa using hplace
  rw [h.previousSibling_eq hshift, List.getLast?_concat]

/-- The sibling before a node is the one that the node comes right after. -/
theorem previousSibling_iff_next (h : f.Realizes s) (hb : f.Has b) :
    ∃ previous, f.previousSibling b = .ok previous ∧ ∀ a, previous = some a ↔ s.next a = some b := by
  have back : ∀ {previous}, f.previousSibling b = .ok previous → ∀ a, s.next a = some b →
      previous = some a := by
    intro previous hprevious a hnext
    exact Except.ok.inj (hprevious.symm.trans (h.previousSibling_of_next hnext))
  cases hp : s.parent b with
  | none =>
    have hnone : f.previousSibling b = .ok none := by
      unfold previousSibling
      rw [h.parent_eq hb, hp]
      rfl
    refine ⟨none, hnone, fun a => ⟨?_, back hnone a⟩⟩
    rintro ⟨⟩
  | some p =>
    obtain ⟨before, after, hplace⟩ := Layout.exists_place hp
    have hlast := h.previousSibling_eq hplace
    refine ⟨_, hlast, fun a => ⟨fun ha => ?_, back hlast a⟩⟩
    obtain ⟨before, rfl⟩ := List.getLast?_eq_some_iff.1 ha
    exact Layout.next_eq_some_iff.2 ⟨p, before, after, by simpa using hplace⟩

end Realizes

/-! ## Agreement -/

/-- What the queries of siblings, places, ancestors and roots say about each other. -/
structure QueriesAgree (f : Forest) : Prop where
  /-- One node is right before another when the other is right after the one. -/
  siblings : ∀ {a b}, f.Has a → f.Has b → ∃ previous next, f.previousSibling b = .ok previous ∧
    f.nextSibling a = .ok next ∧ (previous = some a ↔ next = some b)
  /-- A node with a parent has an index there, and stands at it and at no other place. -/
  index : ∀ {p c}, f.parent c = .ok (some p) → ∃ count i, f.childCount p = .ok count ∧
    f.indexOfChild c = .ok (some i) ∧ i < count ∧ ∀ j, f.childAt p j = .ok (some c) ↔ j = i
  /-- What stands at a place under a node has that node for its parent and that place for its index. -/
  place : ∀ {p c i}, f.childAt p i = .ok (some c) →
    f.parent c = .ok (some p) ∧ f.indexOfChild c = .ok (some i)
  /-- The places that are taken are those below the count, the first and the last child among them. -/
  count : ∀ {p}, f.Has p → ∃ count, f.childCount p = .ok count ∧
    (∀ i, ∃ child, f.childAt p i = .ok child ∧ (child = none ↔ count ≤ i)) ∧
    f.firstChild p = f.childAt p 0 ∧ (0 < count → f.lastChild p = f.childAt p (count - 1)) ∧
    f.hasOneChild p = .ok (decide (count = 1))
  detached : ∀ {c}, f.Has c → ∃ parent, f.parent c = .ok parent ∧ f.isDetached c = .ok parent.isNone
  irreflexive : ∀ {a}, f.Has a → f.isAncestorOf a a = .ok false
  transitive : ∀ {a b c}, f.isAncestorOf a b = .ok true → f.isAncestorOf b c = .ok true →
    f.isAncestorOf a c = .ok true
  root : ∀ {id}, f.Has id → ∃ root, f.rootOf id = .ok root ∧ f.parent root = .ok none ∧
    (root = id ∨ f.isAncestorOf root id = .ok true)

namespace Realizes

theorem queriesAgree (h : f.Realizes s) : f.QueriesAgree where
  siblings {a b} ha hb := by
    obtain ⟨previous, hprevious, hiff⟩ := h.previousSibling_iff_next hb
    exact ⟨previous, s.next a, hprevious, h.nextSibling_eq ha, hiff a⟩
  index {p c} hparent := by
    have hc := h.parent_ok_iff.1 hparent
    have hp := (h.has hc).1
    obtain ⟨i, hi⟩ := List.mem_iff_getElem?.1 (s.mem_children.2 hc)
    have hlt : i < (s.children p).length := (List.getElem?_eq_some_iff.1 hi).1
    refine ⟨_, i, h.childCount_eq hp, (h.indexOfChild_eq_iff hc).2 hi, hlt, fun j => ?_⟩
    rw [h.childAt_eq hp, Except.ok.injEq, ← hi, eq_comm, List.getElem?_inj hlt (s.nodup p), eq_comm]
  place {p c i} hplace := by
    have hp : f.Has p := by
      by_contra hp
      unfold childAt at hplace
      rw [children_of_not_has hp] at hplace
      cases hplace
    rw [h.childAt_eq hp, Except.ok.injEq] at hplace
    have hc : s.parent c = some p := s.mem_children.1 (List.mem_of_getElem? hplace)
    exact ⟨h.parent_ok_iff.2 hc, (h.indexOfChild_eq_iff hc).2 hplace⟩
  count {p} hp := by
    refine ⟨_, h.childCount_eq hp, fun i => ⟨_, h.childAt_eq hp i, List.getElem?_eq_none_iff⟩, ?_, fun _ => ?_,
      h.hasOneChild_eq hp⟩
    · rw [h.firstChild_eq hp, h.childAt_eq hp, List.head?_eq_getElem?]
    · rw [h.lastChild_eq hp, h.childAt_eq hp, List.getLast?_eq_getElem?]
  detached hc := ⟨_, h.parent_eq hc, h.isDetached_eq hc⟩
  irreflexive {a} ha := by
    rw [h.isAncestorOf_eq ha]
    simpa using s.not_above_self a
  transitive hab hbc := by
    rw [h.isAncestorOf_iff] at *
    exact Relation.TransGen.trans hab hbc
  root {id} hid := by
    obtain ⟨root, hroot, htop, hcovers⟩ := h.exists_top hid
    refine ⟨root, hroot, ?_, ?_⟩
    · rw [h.parent_eq (h.has_of_covered hid hcovers), htop]
    · rw [h.isAncestorOf_iff]
      exact (Layout.covers_iff.1 hcovers).imp_left Eq.symm

end Realizes

end Forest

/-- In a reachable forest the queries of links agree with each other. -/
theorem reachable_queriesAgree (hf : f.Reachable) : f.QueriesAgree := by
  obtain ⟨s, h⟩ := hf.realizes
  exact h.queriesAgree

-- the second statement of the block was put behind the first after it had stood before it
theorem sampleForest_queriesAgree :
    sampleForest.QueriesAgree ∧ sampleForest.previousSibling ⟨2⟩ = .ok (some ⟨3⟩) ∧
      sampleForest.nextSibling ⟨3⟩ = .ok (some ⟨2⟩) ∧ sampleForest.indexOfChild ⟨2⟩ = .ok (some 1) ∧
      sampleForest.lastChild ⟨4⟩ = .ok (some ⟨2⟩) ∧ sampleForest.childAt ⟨4⟩ 1 = .ok (some ⟨2⟩) ∧
      sampleForest.childAt ⟨4⟩ 2 = .ok none ∧ sampleForest.rootOf ⟨0⟩ = .ok ⟨5⟩ :=
  ⟨reachable_queriesAgree reachable_sampleForest, by decide +kernel, by decide +kernel, by decide +kernel,
    by decide +kernel, by decide +kernel, by decide +kernel, by decide +kernel⟩

end SyntaxForest
