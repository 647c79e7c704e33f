import Mathlib.Algebra.Ring.Nat
import SyntaxForest.Proofs.Grammar
import SyntaxForest.Proofs.Preorder
import SyntaxForest.Proofs.Runs
/-!
# Trees listed and counted

The listing of a tree begins with its root and goes on with the listings of the trees below, one after the
other. It holds the root and what has the root above it, whatever stands beside or above the root itself.
Counting follows the listing: the number of nodes is one more than that of the trees below, and the histogram
has an entry for each kind that occurs, with the number of its nodes.
-/

namespace SyntaxForest

variable {s : Layout} {f : Forest} {x root : NodeId} {t : Tree} {ts : List Tree} {ids : List NodeId}
  {ks : List Kind}

theorem Kind.index_injective {a b : Kind} (h : a.index = b.index) : a = b := by
  have hidx : a.ctorIdx = b.ctorIdx := h
  rw [← ofNat_ctorIdx a, ← ofNat_ctorIdx b, hidx]

/-! ## Histograms -/

namespace Histogram

variable {h : Histogram} {kind : Kind} {entries : List (Kind × Nat)}

/-- The entries stand in the order of kinds, and no kind has two. -/
def Ordered (entries : List (Kind × Nat)) : Prop := entries.Pairwise fun a b => a.1.index < b.1.index

/-- The histogram counts the kinds of a list: each kind that occurs has one entry, which says how often, and
no other kind has one. -/
structure Tallies (h : Histogram) (kinds : List Kind) : Prop where
  ordered : Ordered h.entries
  count?_eq : ∀ kind, h.count? kind = if kind ∈ kinds then some (kinds.count kind) else none

theorem mem_bump {entry : Kind × Nat} (h : entry ∈ bump kind entries) :
    entry.1 = kind ∨ entry ∈ entries := by
  induction entries with
  | nil => simp_all [bump]
  | cons first rest ih =>
    obtain ⟨k, n⟩ := first
    unfold bump at h
    split at h
    · rename_i he
      rcases List.mem_cons.1 h with rfl | h
      · exact .inl he
      · exact .inr (List.mem_cons_of_mem _ h)
    · split at h
      · rcases List.mem_cons.1 h with rfl | h
        · exact .inl rfl
        · exact .inr h
      · rcases List.mem_cons.1 h with rfl | h
        · exact .inr List.mem_cons_self
        · exact (ih h).imp_right (List.mem_cons_of_mem _)

theorem Ordered.bump (h : Ordered entries) (kind : Kind) : Ordered (bump kind entries) := by
  induction entries with
  | nil => exact List.pairwise_singleton _ _
  | cons first rest ih =>
    obtain ⟨k, n⟩ := first
    obtain ⟨hfirst, hrest⟩ := List.pairwise_cons.1 h
    unfold Histogram.bump
    split
    · exact List.pairwise_cons.2 ⟨hfirst, hrest⟩
    · rename_i hne
      split
      · rename_i hlt
        refine List.pairwise_cons.2 ⟨fun entry he => ?_, h⟩
        rcases List.mem_cons.1 he with rfl | he
        · exact hlt
        · exact Nat.lt_trans hlt (hfirst entry he)
      · rename_i hge
        refine List.pairwise_cons.2 ⟨fun entry he => ?_, ih hrest⟩
        rcases mem_bump he with he | he
        · -- neither kind comes before the other unless they are the same
          have hdiffer : k.index ≠ kind.index := fun e => hne (Kind.index_injective e)
          rw [he]
          show k.index < kind.index
          omega
        · exact hfirst entry he

theorem lookup_entry (k kind : Kind) (n : Nat) (rest : List (Kind × Nat)) :
    ((kind, n) :: rest).lookup k = if k = kind then some n else rest.lookup k := by
  by_cases hk : k = kind
  · simp [hk]
  · have hne : (k == kind) = false := by simpa using hk
    simp [List.lookup_cons, hk, hne]

/-- A kind that comes before all entries has none. -/
theorem lookup_eq_none (h : ∀ entry ∈ entries, kind.index < entry.1.index) :
    entries.lookup kind = none := by
  rw [List.lookup_eq_none_iff]
  intro entry he
  have hne : kind ≠ entry.1 := fun e => Nat.lt_irrefl _ (e ▸ h entry he)
  simpa using hne

theorem lookup_bump (h : Ordered entries) (kind k : Kind) :
    (bump kind entries).lookup k =
      if k = kind then some ((entries.lookup kind).getD 0 + 1) else entries.lookup k := by
  induction entries with
  | nil => by_cases hk : k = kind <;> simp [bump, lookup_entry, hk]
  | cons first rest ih =>
    obtain ⟨k', n⟩ := first
    obtain ⟨hfirst, hrest⟩ := List.pairwise_cons.1 h
    unfold bump
    split
    · rename_i he
      subst he
      by_cases hk : k = k' <;> simp [lookup_entry, hk]
    · rename_i hne
      split
      · rename_i hlt
        -- the entries are ordered, so a kind that comes before the first has no entry further on
        have hnone : ((k', n) :: rest).lookup kind = none := by
          refine lookup_eq_none fun entry he => ?_
          rcases List.mem_cons.1 he with rfl | he
          · exact hlt
          · exact Nat.lt_trans hlt (hfirst entry he)
        rw [hnone, lookup_entry]
        rfl
      · rw [lookup_entry, lookup_entry, lookup_entry, ih hrest, if_neg (Ne.symm hne)]
        by_cases hk : k = k'
        · simp [hk, hne]
        · simp [hk]

theorem tallies_nil : Tallies {} [] := ⟨.nil, fun _ => rfl⟩

theorem Tallies.bumped (ht : h.Tallies ks) (kind : Kind) : (h.add kind).Tallies (ks ++ [kind]) where
  ordered := ht.ordered.bump kind
  count?_eq k := by
    have hold := ht.count?_eq kind
    have hk := ht.count?_eq k
    unfold count? at hold hk
    show (bump kind _).lookup k = _
    rw [lookup_bump ht.ordered, hold, hk]
    by_cases he : k = kind
    · subst he
      by_cases hm : k ∈ ks
      · simp [hm]
      · simp [hm, List.count_eq_zero_of_not_mem hm]
    · simp [he, List.count_append, Ne.symm he]

theorem Tallies.foldl (ht : h.Tallies ks) (more : List Kind) :
    (more.foldl add h).Tallies (ks ++ more) := by
  induction more generalizing h ks with
  | nil => simpa using ht
  | cons kind more ih => simpa using ih (ht.bumped kind)

end Histogram

/-! ## Listings by recursion -/

theorem Tree.sizeAll_eq_sum (ts : List Tree) : sizeAll ts = (ts.map size).sum := by
  induction ts with
  | nil => rfl
  | cons t ts ih => simp [sizeAll, ih]

namespace Forest

theorem exists_haveKinds (h : ∀ id ∈ ids, f.Has id) : ∃ ks, f.HaveKinds ids ks := by
  apply exists_forall₂
  intro id hid
  obtain ⟨n, hn⟩ := has_iff_node.1 (h id hid)
  exact ⟨n.kind, read_eq_ok_iff.2 ⟨n, hn, rfl⟩⟩

theorem HaveKinds.foldlM (h : f.HaveKinds ids ks) (start : Histogram) :
    ids.foldlM (fun h id => return h.add (← f.kind id)) start = .ok (ks.foldl Histogram.add start) := by
  induction h generalizing start with
  | nil => rfl
  | cons hid _ ih => simp [hid, bind, Except.bind, pure, Except.pure, ← ih]

theorem countNodes_of_listing {nodes : List NodeId} (hl : f.preorder root = .ok nodes) :
    f.countNodes root = .ok nodes.length := by
  unfold countNodes
  rw [hl]
  rfl

theorem histogram_of_listing {nodes : List NodeId} (hl : f.preorder root = .ok nodes)
    (hks : f.HaveKinds nodes ks) : ∃ h, f.histogram root = .ok h ∧ h.Tallies ks := by
  refine ⟨ks.foldl Histogram.add {}, ?_, by simpa using Histogram.tallies_nil.foldl ks⟩
  unfold histogram
  rw [hl]
  exact hks.foldlM {}

/-- A query that is answered at the root of each of a list of trees. -/
theorem mapM_roots {α : Type} {query : NodeId → Except Fault α} {answer : Tree → α}
    (h : ∀ t ∈ ts, query t.root = .ok (answer t)) :
    (Tree.roots ts).mapM query = .ok (ts.map answer) := by
  apply mapM_of_forall₂
  rwa [Tree.roots, List.forall₂_map_left_iff, List.forall₂_map_right_iff, List.forall₂_same]

/-- `nodes` is the listing of the tree under `root`, and the tree is counted by it. -/
structure Listed (f : Forest) (root : NodeId) (nodes : List NodeId) : Prop where
  listing : f.preorder root = .ok nodes
  /-- The listing is that of the tree which the lists of children make up, by recursion on it. -/
  recursive : ∃ t : Tree, t.root = root ∧ t.In f ∧ nodes = t.preorder
  /-- After the root come the listings of its children. -/
  unfolds : ∃ children listings, f.children root = .ok children ∧
    children.mapM f.preorder = .ok listings ∧ nodes = root :: listings.flatten
  distinct : nodes.Nodup
  mem_iff : ∀ x, x ∈ nodes ↔ x = root ∨ f.isAncestorOf root x = .ok true
  count : ∃ children counts, f.children root = .ok children ∧
    children.mapM f.countNodes = .ok counts ∧ f.countNodes root = .ok (1 + counts.sum)
  histogram : ∃ kinds h, nodes.mapM f.kind = .ok kinds ∧ f.histogram root = .ok h ∧ h.Tallies kinds

namespace Realizes

theorem countNodes_eq (h : f.Realizes s) (ht : t.In f) : f.countNodes t.root = .ok t.size := by
  rw [countNodes_of_listing (h.preorder_eq ht (has_of_in ht)), Tree.length_preorder]

theorem mem_preorder_iff_ancestor (h : f.Realizes s) (ht : t.In f) :
    x ∈ t.preorder ↔ x = t.root ∨ f.isAncestorOf t.root x = .ok true := by
  rw [h.mem_preorder_iff ht, Layout.covers_iff, h.isAncestorOf_iff]

theorem histogram_tallies (h : f.Realizes s) (ht : t.In f) :
    ∃ kinds histogram, t.preorder.mapM f.kind = .ok kinds ∧
      f.histogram t.root = .ok histogram ∧ histogram.Tallies kinds := by
  obtain ⟨ks, hks⟩ := exists_haveKinds fun x hx => h.has_of_mem_preorder ht hx
  obtain ⟨histogram, hh, htallies⟩ := histogram_of_listing (h.preorder_eq ht (has_of_in ht)) hks
  exact ⟨ks, histogram, hks.mapM, hh, htallies⟩

theorem listed (h : f.Realizes s) (ht : t.In f) : f.Listed t.root t.preorder := by
  obtain ⟨id, ts⟩ := t
  obtain ⟨hchildren, hts⟩ := Tree.in_node.1 ht
  constructor
  · exact h.preorder_eq ht (has_of_in ht)
  · exact ⟨.node id ts, rfl, ht, rfl⟩
  · refine ⟨_, _, hchildren, mapM_roots fun t htm => h.preorder_eq (hts t htm) (has_of_in (hts t htm)), ?_⟩
    rw [Tree.preorder, Tree.preorderAll_eq_flatMap, List.flatMap_def, Tree.root_node]
  · exact h.nodup_preorder ht
  · exact fun x => h.mem_preorder_iff_ancestor ht
  · refine ⟨_, _, hchildren, mapM_roots fun t htm => h.countNodes_eq (hts t htm), ?_⟩
    rw [h.countNodes_eq ht, Tree.size, Tree.sizeAll_eq_sum, Nat.add_comm]
  · exact h.histogram_tallies ht

end Realizes

end Forest

/-- In a reachable forest the pre-order of a node is the listing of its tree, wherever the node stands. -/
theorem reachable_listed (hf : f.Reachable) (hroot : f.Has root) : ∃ nodes, f.Listed root nodes := by
  obtain ⟨s, h⟩ := hf.realizes
  obtain ⟨t, rfl, ht⟩ := h.exists_tree hroot
  exact ⟨t.preorder, h.listed ht⟩

-- the first statement of the block has a sibling after it and a script above it
theorem sampleForest_listed :
    sampleForest.nextSibling ⟨3⟩ = .ok (some ⟨2⟩) ∧ sampleForest.rootOf ⟨3⟩ = .ok ⟨5⟩ ∧
      sampleForest.preorder ⟨3⟩ = .ok [⟨3⟩, ⟨1⟩] ∧ ∃ nodes, sampleForest.Listed ⟨3⟩ nodes :=
  ⟨by decide +kernel, by decide +kernel, by decide +kernel,
    reachable_listed reachable_sampleForest (by decide +kernel)⟩

end SyntaxForest
