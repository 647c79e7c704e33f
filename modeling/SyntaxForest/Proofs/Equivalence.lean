import SyntaxForest.Proofs.Insertion
import SyntaxForest.Proofs.Listing
import SyntaxForest.Proofs.Mirroring
import SyntaxForest.Proofs.Payloads
/-!
# Laws of equivalence

Equivalence of nodes is symmetric and transitive. It is reflexive off NaN only: a node agrees with itself,
and with a copy of its tree, unless a number in the tree is not a number. Equivalent nodes cannot be told
apart by counting, and a node differs from what is above it, whose tree is larger.
-/

namespace SyntaxForest

open Edit

variable {s s' : Layout} {f g : Forest} {a b c : NodeId} {n : Node} {t u : Tree} {x : Double}
  {ids nodes : List NodeId} {ks : List Kind} {label : NodeId → NodeId}

/-! ## Counting kinds -/

namespace Forest

/-- The kinds of the nodes under `root`, in pre-order. -/
def preorderKinds (f : Forest) (root : NodeId) : Except Fault (List Kind) := do
  (← f.preorder root).mapM f.kind

theorem haveKinds_iff : f.HaveKinds ids ks ↔ ids.map f.kind = ks.map .ok := by
  unfold HaveKinds
  rw [← List.forall₂_eq_eq_eq, List.forall₂_map_left_iff, List.forall₂_map_right_iff]

/-- A tree is counted as the list of its kinds is. -/
theorem Realizes.counts_eq (h : f.Realizes s) (ht : t.In f) (hks : f.HaveKinds t.preorder ks) :
    f.countNodes t.root = .ok ks.length ∧ f.preorderKinds t.root = .ok ks ∧
      f.histogram t.root = .ok (ks.foldl Histogram.add {}) := by
  unfold countNodes preorderKinds histogram
  rw [h.preorder_eq ht (has_of_in ht)]
  refine ⟨?_, hks.mapM, hks.foldlM {}⟩
  simp [← hks.length_eq, bind, Except.bind, pure, Except.pure]

/-! ## Numbers that are not numbers -/

/-- A number node in the tree under `root` carries NaN. -/
def HasNaN (f : Forest) (root : NodeId) : Prop :=
  ∃ id x, f.Within root id ∧ f.kind id = .ok .numberLit ∧ f.number id = .ok x ∧ x.isNaN = true

/-- Payloads have the shape that kinds ask for, so a NaN is found on number nodes only. -/
theorem WellShaped.isNaN_iff (hf : f.WellShaped) (hn : f.node a = .ok n) :
    n.payload.isNaN = true ↔
      ∃ x, f.kind a = .ok .numberLit ∧ f.number a = .ok x ∧ x.isNaN = true := by
  constructor
  · intro hnan
    cases hp : n.payload with
    | generic | text _ => simp [hp, Payload.isNaN] at hnan
    | number x =>
      have hkind : n.kind = .numberLit := by
        apply Kind.eq_numberLit_of_shape
        rw [← hf hn, hp]
        rfl
      refine ⟨x, read_eq_ok_iff.2 ⟨n, hn, hkind⟩, number_eq_ok_iff.2 ⟨n, hn, hp⟩, ?_⟩
      simpa [hp, Payload.isNaN] using hnan
  · rintro ⟨x, -, hx, hnan⟩
    obtain ⟨m, hm, hp⟩ := number_eq_ok_iff.1 hx
    rw [hn] at hm
    cases hm
    simpa [hp, Payload.isNaN] using hnan

/-- No payload in the tree is NaN. -/
def ClearOfNaN (f : Forest) (t : Tree) : Prop :=
  ∀ x ∈ t.preorder, ∀ n, f.node x = .ok n → n.payload.isNaN = false

theorem Realizes.clearOfNaN_iff (h : f.Realizes s) (hf : f.WellShaped) (ht : t.In f) :
    f.ClearOfNaN t ↔ ¬ f.HasNaN t.root := by
  constructor
  · rintro hclear ⟨id, x, hid, hx⟩
    rw [h.within_iff, ← h.mem_preorder_iff ht] at hid
    obtain ⟨n, hn, -⟩ := read_eq_ok_iff.1 hx.1
    have hnan := (hf.isNaN_iff hn).2 ⟨x, hx⟩
    simp [hclear id hid n hn] at hnan
  · intro hnone id hid n hn
    by_contra hnan
    obtain ⟨x, hx⟩ := (hf.isNaN_iff hn).1 (by simpa using hnan)
    exact hnone ⟨id, x, h.within_iff.2 ((h.mem_preorder_iff ht).1 hid), hx⟩

end Forest

/-! ## Trees with the same contents -/

namespace Tree

/-- A tree agrees with a relabelled one that carries the same, unless a payload in it is NaN. -/
theorem same_relabel_iff_clear
    (h : ∀ x ∈ t.preorder, f.Has x ∧ f.contents (label x) = f.contents x) :
    Same f t (t.relabel label) ↔ f.ClearOfNaN t := by
  rw [same_relabel_iff]
  refine forall₂_congr fun x hx => ?_
  obtain ⟨hhas, hcontents⟩ := h x hx
  obtain ⟨n, hn⟩ := Forest.has_iff_node.1 hhas
  obtain ⟨m, hm, hcopy⟩ := Forest.node_of_contents hcontents hn
  have hkind : m.kind = n.kind := show m.detachedCopy.kind = n.detachedCopy.kind by rw [hcopy]
  have hpayload : m.payload = n.payload := show m.detachedCopy.payload = n.detachedCopy.payload by rw [hcopy]
  simp [SameNode, hn, hm, hkind, hpayload, Payload.same_self_iff]

end Tree

namespace Forest

open Classical in
theorem Realizes.equivalent_iff (h : f.Realizes s) (ht : t.In f) (hu : u.In f) :
    f.equivalent t.root u.root = .ok true ↔ t.Same f u := by
  rw [h.equivalent_eq ht hu]
  simp

/-- The copied tree agrees with the tree it was copied from, unless a payload in that is NaN. -/
theorem Copied.equivalent_iff (hg : f.Copied s t.root nodes [] g s') (h : f.Realizes s) (ht : t.In f) :
    g.equivalent t.root f.nextId = .ok true ↔ f.ClearOfNaN t := by
  have hself := hg.mirrored_self h ht
  have hcopy := hg.mirrored_copyOf h ht
  -- the tree is still there, and its copies make up a tree as well
  have htg : t.In g := by
    rw [← t.relabel_id]
    exact ht.relabel hself.children
  have hroot : (t.relabel (f.copyOf nodes)).root = f.nextId := by
    rw [Tree.root_relabel, hg.copyOf_root]
  rw [← hroot, hg.realizes.equivalent_iff htg (ht.relabel hcopy.children), Tree.same_relabel_iff_clear]
  · unfold ClearOfNaN
    refine forall₂_congr fun x hx => ?_
    rw [hg.node_kept h (h.has_of_mem_preorder ht hx)]
  · intro x hx
    refine ⟨hg.extended.has (h.has_of_mem_preorder ht hx), ?_⟩
    rw [hcopy.contents x hx]
    exact (hself.contents x hx).symm

/-- The tree under a node is larger than one further down. -/
theorem Realizes.size_lt_of_above (h : f.Realizes s) (ht : t.In f) (hu : u.In f)
    (habove : s.Above t.root u.root) : u.size < t.size := by
  have hnew : t.root ∉ u.preorder := by
    rw [h.mem_preorder_iff hu]
    intro hv
    exact s.not_above_self t.root (Relation.TransGen.trans_left habove hv)
  have hsub : t.root :: u.preorder ⊆ t.preorder := by
    intro x hx
    rw [h.mem_preorder_iff ht]
    rcases List.mem_cons.1 hx with rfl | hx
    · exact Layout.Covers.refl s _
    · exact habove.covers.trans ((h.mem_preorder_iff hu).1 hx)
  have hdistinct : (t.root :: u.preorder).Nodup := List.nodup_cons.2 ⟨hnew, h.nodup_preorder hu⟩
  have hlength := (hdistinct.subperm hsub).length_le
  simp at hlength
  omega

/-! ## The laws -/

namespace Realizes

theorem equivalent_comm (h : f.Realizes s) (ha : f.Has a) (hb : f.Has b) :
    f.equivalent a b = f.equivalent b a := by
  obtain ⟨t, rfl, ht⟩ := h.exists_tree ha
  obtain ⟨u, rfl, hu⟩ := h.exists_tree hb
  have hsame : t.Same f u ↔ u.Same f t := ⟨Tree.Same.symm, Tree.Same.symm⟩
  simp [h.equivalent_eq ht hu, h.equivalent_eq hu ht, hsame]

theorem equivalent_trans (h : f.Realizes s) (ha : f.Has a) (hb : f.Has b) (hc : f.Has c)
    (hab : f.equivalent a b = .ok true) (hbc : f.equivalent b c = .ok true) :
    f.equivalent a c = .ok true := by
  obtain ⟨t, rfl, ht⟩ := h.exists_tree ha
  obtain ⟨u, rfl, hu⟩ := h.exists_tree hb
  obtain ⟨v, rfl, hv⟩ := h.exists_tree hc
  rw [h.equivalent_iff ht hu] at hab
  rw [h.equivalent_iff hu hv] at hbc
  rw [h.equivalent_iff ht hv]
  exact hab.trans hbc

theorem equivalent_self_iff (h : f.Realizes s) (hf : f.WellShaped) (ha : f.Has a) :
    f.equivalent a a = .ok true ↔ ¬ f.HasNaN a := by
  obtain ⟨t, rfl, ht⟩ := h.exists_tree ha
  have hcontents : ∀ x ∈ t.preorder, f.Has x ∧ f.contents (id x) = f.contents x := fun x hx =>
    ⟨h.has_of_covers ha ((h.mem_preorder_iff ht).1 hx), rfl⟩
  have hsame := Tree.same_relabel_iff_clear hcontents
  rw [t.relabel_id] at hsame
  rw [h.equivalent_iff ht ht, hsame, h.clearOfNaN_iff hf ht]

theorem equivalent_copy_iff (h : f.Realizes s) (hf : f.WellShaped) (ha : f.Has a) :
    ∃ copy, (copyTree a).answer f = .ok copy ∧
      (((copyTree a).after f).equivalent a copy = .ok true ↔ ¬ f.HasNaN a) ∧
      (((copyTree a).after f).equivalent copy a = .ok true ↔ ¬ f.HasNaN a) := by
  obtain ⟨t, rfl, ht⟩ := h.exists_tree ha
  obtain ⟨copy, hanswer, rfl, nodes, s', hg⟩ := (copyTree_succeeds h ha).answer_after
  have hiff := hg.equivalent_iff h ht
  rw [h.clearOfNaN_iff hf ht] at hiff
  refine ⟨_, hanswer, hiff, ?_⟩
  have hnew : ((copyTree t.root).after f).Has f.nextId := by
    rw [← hg.copyOf_root]
    exact hg.has_copyOf hg.walked.root_mem
  rwa [hg.realizes.equivalent_comm hnew (hg.extended.has ha)]

/-- Equivalent nodes have the same kinds in the same order, and counting looks at nothing else. -/
theorem counts_of_equivalent (h : f.Realizes s) (ha : f.Has a) (hb : f.Has b)
    (hab : f.equivalent a b = .ok true) :
    ∃ kinds count histogram, f.preorderKinds a = .ok kinds ∧ f.preorderKinds b = .ok kinds ∧
      f.countNodes a = .ok count ∧ f.countNodes b = .ok count ∧
      f.histogram a = .ok histogram ∧ f.histogram b = .ok histogram := by
  obtain ⟨t, rfl, ht⟩ := h.exists_tree ha
  obtain ⟨u, rfl, hu⟩ := h.exists_tree hb
  rw [h.equivalent_iff ht hu] at hab
  obtain ⟨ks, hks⟩ := exists_haveKinds fun x hx =>
    h.has_of_covers ha ((h.mem_preorder_iff ht).1 hx)
  have hks' : f.HaveKinds u.preorder ks := by
    rw [haveKinds_iff, ← hab.kinds_eq, ← haveKinds_iff]
    exact hks
  obtain ⟨hcount, hkinds, hhistogram⟩ := h.counts_eq ht hks
  obtain ⟨hcount', hkinds', hhistogram'⟩ := h.counts_eq hu hks'
  exact ⟨ks, _, _, hkinds, hkinds', hcount, hcount', hhistogram, hhistogram'⟩

theorem not_equivalent_of_ancestor (h : f.Realizes s) (ha : f.Has a) (hb : f.Has b)
    (habove : f.isAncestorOf a b = .ok true) : f.equivalent a b = .ok false := by
  obtain ⟨t, rfl, ht⟩ := h.exists_tree ha
  obtain ⟨u, rfl, hu⟩ := h.exists_tree hb
  have hlt := h.size_lt_of_above ht hu (h.isAncestorOf_iff.1 habove)
  have hdiffer : ¬ t.Same f u := by
    intro hsame
    have := hsame.size_eq
    omega
  simp [h.equivalent_eq ht hu, hdiffer]

end Realizes

/-- What passes over a forest rely on when they compare nodes. -/
structure EquivalenceLaws (f : Forest) : Prop where
  /-- Comparing two nodes gives an answer, and the same one the other way round. -/
  symm : ∀ {a b}, f.Has a → f.Has b →
    ∃ agree, f.equivalent a b = .ok agree ∧ f.equivalent b a = .ok agree
  trans : ∀ {a b c}, f.Has a → f.Has b → f.Has c →
    f.equivalent a b = .ok true → f.equivalent b c = .ok true → f.equivalent a c = .ok true
  refl_iff : ∀ {a}, f.Has a → (f.equivalent a a = .ok true ↔ ¬ f.HasNaN a)
  copy_iff : ∀ {a}, f.Has a → ∃ copy, (copyTree a).answer f = .ok copy ∧
    (((copyTree a).after f).equivalent a copy = .ok true ↔ ¬ f.HasNaN a) ∧
    (((copyTree a).after f).equivalent copy a = .ok true ↔ ¬ f.HasNaN a)
  counts : ∀ {a b}, f.Has a → f.Has b → f.equivalent a b = .ok true →
    ∃ kinds count histogram, f.preorderKinds a = .ok kinds ∧ f.preorderKinds b = .ok kinds ∧
      f.countNodes a = .ok count ∧ f.countNodes b = .ok count ∧
      f.histogram a = .ok histogram ∧ f.histogram b = .ok histogram
  /-- Neither of a node and a proper ancestor of it is equivalent to the other. -/
  ancestor : ∀ {a b}, f.Has a → f.Has b → f.isAncestorOf a b = .ok true →
    f.equivalent a b = .ok false ∧ f.equivalent b a = .ok false

theorem Realizes.equivalenceLaws (h : f.Realizes s) (hf : f.WellShaped) : f.EquivalenceLaws where
  symm ha hb := by
    rw [← h.equivalent_comm ha hb]
    obtain ⟨t, rfl, ht⟩ := h.exists_tree ha
    obtain ⟨u, rfl, hu⟩ := h.exists_tree hb
    exact ⟨_, h.equivalent_eq ht hu, h.equivalent_eq ht hu⟩
  trans ha hb hc hab hbc := h.equivalent_trans ha hb hc hab hbc
  refl_iff ha := h.equivalent_self_iff hf ha
  copy_iff ha := h.equivalent_copy_iff hf ha
  counts ha hb hab := h.counts_of_equivalent ha hb hab
  ancestor ha hb habove := by
    rw [← h.equivalent_comm ha hb, and_self]
    exact h.not_equivalent_of_ancestor ha hb habove

end Forest

/-- The laws hold in every reachable forest. -/
theorem reachable_equivalenceLaws (h : f.Reachable) : f.EquivalenceLaws := by
  obtain ⟨s, hs⟩ := h.realizes
  exact hs.equivalenceLaws h.wellShaped

/-- A block of two statements, the first of which is NaN, and copies of the block and of the second. -/
def unequalSample : Forest :=
  Command.runAll [.construct (.numberLit ⟨0x7FF8000000000000⟩), .construct (.numberLit ⟨0⟩),
    .construct (.exprResult ⟨0⟩), .construct (.exprResult ⟨1⟩), .construct (.block [⟨2⟩, ⟨3⟩]),
    .copyTree ⟨4⟩, .copyTree ⟨3⟩, .setNumber ⟨11⟩ ⟨0x8000000000000000⟩] .empty

-- minus zero is equal to zero, and NaN is not equal to itself
theorem unequalSample_equivalenceLaws :
    unequalSample.EquivalenceLaws ∧ unequalSample.size = 12 ∧
      unequalSample.equivalent ⟨3⟩ ⟨10⟩ = .ok true ∧ unequalSample.number ⟨11⟩ ≠ unequalSample.number ⟨1⟩ ∧
      unequalSample.equivalent ⟨4⟩ ⟨4⟩ = .ok false ∧ unequalSample.equivalent ⟨4⟩ ⟨5⟩ = .ok false ∧
      unequalSample.histogram ⟨4⟩ = unequalSample.histogram ⟨5⟩ :=
  ⟨reachable_equivalenceLaws (Forest.Reachable.empty.runAll _), by decide +kernel, by decide +kernel,
    by decide +kernel, by decide +kernel, by decide +kernel, by decide +kernel⟩

end SyntaxForest
