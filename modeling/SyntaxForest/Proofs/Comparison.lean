import Mathlib.Algebra.Ring.Nat
import Mathlib.Data.List.Forall2
import SyntaxForest.Equality
import SyntaxForest.Proofs.Preorder
/-!
# Comparison of trees

The work list of pairs compares two trees as recursion on them does. It takes up a pair of nodes for each
node of the smaller tree at most, so it never runs out of steps. On trees of one forest the comparison is
symmetric and transitive, and a tree agrees with a relabelled one when each node agrees with its new label.
-/

namespace SyntaxForest

variable {f : Forest} {a b c : NodeId} {t u v : Tree} {ts us vs : List Tree} {steps : Nat}
  {label : NodeId → NodeId}

/-! ## Sameness of trees -/

namespace Tree

theorem SameNode.symm (h : SameNode f a b) : SameNode f b a := by
  obtain ⟨m, n, hm, hn, hkind, hsame⟩ := h
  exact ⟨n, m, hn, hm, hkind.symm, by rwa [Payload.same_comm]⟩

theorem SameNode.trans (hab : SameNode f a b) (hbc : SameNode f b c) : SameNode f a c := by
  obtain ⟨m, n, hm, hn, hkind, hsame⟩ := hab
  obtain ⟨n', o, hn', ho, hkind', hsame'⟩ := hbc
  rw [hn] at hn'
  cases hn'
  exact ⟨m, o, hm, ho, hkind.trans hkind', Payload.same_trans hsame hsame'⟩

theorem SameNode.kind_eq (h : SameNode f a b) : f.kind a = f.kind b := by
  obtain ⟨m, n, hm, hn, hkind, -⟩ := h
  unfold Forest.kind
  rw [hm, hn]
  exact congrArg Except.ok hkind

theorem allSame_iff : AllSame f ts us ↔ List.Forall₂ (Same f) ts us := by
  induction ts generalizing us with
  | nil => cases us <;> simp [AllSame]
  | cons t ts ih => cases us <;> simp [AllSame, ih]

theorem same_node : Same f (node a ts) (node b us) ↔ SameNode f a b ∧ List.Forall₂ (Same f) ts us := by
  rw [Same, allSame_iff]

theorem forall₂_of_mem {R S : Tree → Tree → Prop} (h : List.Forall₂ R ts us)
    (himp : ∀ t ∈ ts, ∀ u, R t u → S t u) : List.Forall₂ S ts us :=
  ((List.forall₂_and_left ts us).2 ⟨himp, h⟩).imp fun _ u h => h.1 u h.2

theorem Same.symm (h : Same f t u) : Same f u t := by
  induction t using Tree.induct generalizing u with
  | step a ts ih =>
    cases u with
    | node b us =>
      rw [same_node] at h ⊢
      refine ⟨h.1.symm, List.Forall₂.flip ?_⟩
      exact forall₂_of_mem h.2 fun t ht u htu => ih t ht htu

theorem Same.trans (htu : Same f t u) (huv : Same f u v) : Same f t v := by
  induction t using Tree.induct generalizing u v with
  | step a ts ih =>
    cases u with
    | node b us =>
      cases v with
      | node c vs =>
        rw [same_node] at *
        refine ⟨htu.1.trans huv.1, ?_⟩
        have hts := htu.2
        have hus := huv.2
        clear htu huv
        induction hts generalizing vs with
        | nil =>
          cases hus
          exact .nil
        | cons ht _ ihs =>
          cases hus with
          | cons hu hus =>
            refine .cons (ih _ List.mem_cons_self ht hu) (ihs ?_ _ hus)
            exact fun t ht => ih t (List.mem_cons_of_mem _ ht)

theorem kinds_preorderAll
    (h : List.Forall₂ (fun t u => t.preorder.map f.kind = u.preorder.map f.kind) ts us) :
    (preorderAll ts).map f.kind = (preorderAll us).map f.kind := by
  induction h with
  | nil => rfl
  | cons ht _ ih => simp [preorderAll, ht, ih]

/-- Trees that agree have the same kinds in pre-order. -/
theorem Same.kinds_eq (h : Same f t u) : t.preorder.map f.kind = u.preorder.map f.kind := by
  induction t using Tree.induct generalizing u with
  | step a ts ih =>
    cases u with
    | node b us =>
      rw [same_node] at h
      have hbelow : List.Forall₂ (fun t u => t.preorder.map f.kind = u.preorder.map f.kind) ts us :=
        forall₂_of_mem h.2 fun t ht u htu => ih t ht htu
      rw [preorder, preorder, List.map_cons, List.map_cons, h.1.kind_eq, kinds_preorderAll hbelow]

theorem Same.size_eq (h : Same f t u) : t.size = u.size := by
  have hkinds := congrArg List.length h.kinds_eq
  simpa using hkinds

/-! ## Relabelled trees -/

mutual

/-- The tree with other handles. -/
def relabel (label : NodeId → NodeId) : Tree → Tree
  | .node id ts => .node (label id) (relabelAll label ts)

/-- The trees with other handles. -/
def relabelAll (label : NodeId → NodeId) : List Tree → List Tree
  | [] => []
  | t :: ts => t.relabel label :: relabelAll label ts

end

theorem relabelAll_eq_map (label : NodeId → NodeId) (ts : List Tree) :
    relabelAll label ts = ts.map (relabel label) := by
  induction ts with
  | nil => rfl
  | cons t ts ih => simp [relabelAll, ih]

@[simp] theorem root_relabel (label : NodeId → NodeId) (t : Tree) :
    (t.relabel label).root = label t.root := by
  cases t
  simp [relabel]

theorem roots_relabelAll (label : NodeId → NodeId) (ts : List Tree) :
    roots (relabelAll label ts) = (roots ts).map label := by
  simp [relabelAll_eq_map, roots]

/-- A tree agrees with a relabelled one when every node agrees with its new label. -/
theorem same_relabel_iff :
    Same f t (t.relabel label) ↔ ∀ x ∈ t.preorder, SameNode f x (label x) := by
  induction t using Tree.induct with
  | step id ts ih =>
    rw [relabel, same_node, relabelAll_eq_map, List.forall₂_map_right_iff, List.forall₂_same, preorder,
      List.forall_mem_cons, preorderAll_eq_flatMap]
    simp only [List.mem_flatMap, forall_exists_index, and_imp]
    refine and_congr_right fun _ => ⟨fun h x t ht hx => (ih t ht).1 (h t ht) x hx, fun h t ht => ?_⟩
    exact (ih t ht).2 fun x hx => h x t ht hx

theorem relabel_id (t : Tree) : t.relabel id = t := by
  induction t using Tree.induct with
  | step a ts ih =>
    rw [relabel, relabelAll_eq_map, List.map_congr_left ih, List.map_id']
    rfl

/-! ## Pairs of trees -/

/-- The pair of nodes at the top of two trees. -/
def tops (pair : Tree × Tree) : NodeId × NodeId := (pair.1.root, pair.2.root)

/-- The number of nodes of the smaller of two trees. -/
def smaller (pair : Tree × Tree) : Nat := min pair.1.size pair.2.size

theorem smaller_zip_le (ts us : List Tree) :
    ((ts.zip us).map smaller).sum ≤ min (sizeAll ts) (sizeAll us) := by
  induction ts generalizing us with
  | nil => simp
  | cons t ts ih =>
    cases us with
    | nil => simp
    | cons u us =>
      have := ih us
      simp only [List.zip_cons_cons, List.map_cons, List.sum_cons, smaller, sizeAll]
      omega

end Tree

namespace Forest

theorem pairUp?_eq (as bs : List NodeId) (pending : List (NodeId × NodeId)) :
    pairUp? as bs pending =
      if as.length = bs.length then some ((as.zip bs).reverse ++ pending) else none := by
  induction as generalizing bs pending with
  | nil => cases bs <;> simp [pairUp?]
  | cons a as ih =>
    cases bs with
    | nil => simp [pairUp?]
    | cons b bs => simp [pairUp?, ih]

open Classical in
/-- One step takes up a pair: if its nodes agree, the pairs of their children wait in its place. -/
theorem comparePending_succ (hts : (Tree.node a ts).In f) (hus : (Tree.node b us).In f)
    (pending : List (NodeId × NodeId)) :
    f.comparePending (steps + 1) ((a, b) :: pending) =
      if Tree.SameNode f a b ∧ ts.length = us.length
        then f.comparePending steps (((ts.zip us).map Tree.tops).reverse ++ pending) else .ok false := by
  obtain ⟨m, hm⟩ : ∃ m, f.node a = .ok m := has_iff_node.1 (has_of_in hts)
  obtain ⟨n, hn⟩ : ∃ n, f.node b = .ok n := has_iff_node.1 (has_of_in hus)
  have hsame : Tree.SameNode f a b ↔ m.kind = n.kind ∧ m.payload.same n.payload = true := by
    simp [Tree.SameNode, hm, hn]
  have htops : (ts.zip us).map Tree.tops = (Tree.roots ts).zip (Tree.roots us) := by
    simp [Tree.roots, List.zip_map, Tree.tops, Prod.map]
  simp only [comparePending, hm, hn, (Tree.in_node.1 hts).1, (Tree.in_node.1 hus).1, bind, Except.bind,
    pairUp?_eq, Tree.length_roots, hsame, htops]
  by_cases hagree : m.kind = n.kind ∧ m.payload.same n.payload = true
  · by_cases hlen : ts.length = us.length <;> simp [hagree, hlen, pure, Except.pure]
  · simp [hagree, pure, Except.pure]

open Classical in
/-- The work list answers whether the trees of all its pairs agree, within as many steps as the smaller trees
have nodes. -/
theorem comparePending_eq {pairs : List (Tree × Tree)} (hin : ∀ p ∈ pairs, p.1.In f ∧ p.2.In f)
    (hs : (pairs.map Tree.smaller).sum ≤ steps) :
    f.comparePending steps (pairs.map Tree.tops) = .ok (decide (∀ p ∈ pairs, p.1.Same f p.2)) := by
  induction steps generalizing pairs with
  | zero =>
    cases pairs with
    | nil => simp [comparePending, pure, Except.pure]
    | cons p ps =>
      have hpos : 0 < Tree.smaller p := Nat.lt_min.2 ⟨p.1.size_pos, p.2.size_pos⟩
      simp at hs
      omega
  | succ steps ih =>
    cases pairs with
    | nil => simp [comparePending, pure, Except.pure]
    | cons p ps =>
      obtain ⟨⟨a, ts⟩, ⟨b, us⟩⟩ := p
      rw [List.forall_mem_cons] at hin
      obtain ⟨⟨hts, hus⟩, hps⟩ := hin
      have hcost := Tree.smaller_zip_le ts us
      simp only [List.map_cons, List.sum_cons, Tree.smaller, Tree.size] at hs
      rw [List.map_cons, Tree.tops, Tree.root_node, Tree.root_node, comparePending_succ hts hus,
        ← List.map_reverse, ← List.map_append]
      by_cases hagree : Tree.SameNode f a b ∧ ts.length = us.length
      · rw [if_pos hagree, ih]
        · simp [Tree.same_node, List.forall₂_iff_zip, hagree, or_imp, forall_and]
        · intro q hq
          rw [List.mem_append, List.mem_reverse] at hq
          rcases hq with hq | hq
          · obtain ⟨ht, hu⟩ := List.of_mem_zip hq
            exact ⟨(Tree.in_node.1 hts).2 _ ht, (Tree.in_node.1 hus).2 _ hu⟩
          · exact hps q hq
        · simp
          omega
      · have hdiffer : ¬ ∀ p ∈ (Tree.node a ts, Tree.node b us) :: ps, p.1.Same f p.2 := by
          intro hall
          have hsame := Tree.same_node.1 (hall _ List.mem_cons_self)
          exact hagree ⟨hsame.1, hsame.2.length_eq⟩
        rw [if_neg hagree, decide_eq_false hdiffer]

open Classical in
theorem comparePending_pair (ht : t.In f) (hu : u.In f) (hs : min t.size u.size ≤ steps) :
    f.comparePending steps [(t.root, u.root)] = .ok (decide (t.Same f u)) := by
  have hpairs : ∀ p ∈ [(t, u)], p.1.In f ∧ p.2.In f := by simp [ht, hu]
  have hcompare := comparePending_eq hpairs (by simpa [Tree.smaller] using hs)
  simpa [Tree.tops] using hcompare

open Classical in
/-- Two trees of a forest are compared as recursion on them says. -/
theorem Realizes.equivalent_eq {s : Layout} (h : f.Realizes s) (ht : t.In f) (hu : u.In f) :
    f.equivalent t.root u.root = .ok (decide (t.Same f u)) := by
  have hsize := h.size_le ht (has_of_in ht)
  exact comparePending_pair ht hu (by omega)

end Forest

end SyntaxForest
