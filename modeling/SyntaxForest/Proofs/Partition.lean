import SyntaxForest.Proofs.Listing
import SyntaxForest.Proofs.Roots
/-!
# The trees of a forest

Trees are joined, split and copied, but no node gets lost and none is shared. Each node is listed under one
node without a parent, which is the node that going up leads to, and it is listed there once. So the listings
of all parentless nodes, one after the other, are the nodes of the forest in another order.
-/

namespace SyntaxForest

variable {s : Layout} {f : Forest} {x root : NodeId} {ts : List Tree} {nodes : List NodeId}

namespace Forest

/-- The nodes without a parent, in order of allocation. -/
def roots (f : Forest) : List NodeId := f.ids.filter fun id => f.parent id = .ok none

theorem mem_roots : root ∈ f.roots ↔ f.parent root = .ok none := by
  rw [roots, List.mem_filter, mem_ids, decide_eq_true_iff, and_iff_right_iff_imp]
  exact has_of_read

theorem nodup_ids (f : Forest) : f.ids.Nodup := by
  refine List.Nodup.map ?_ List.nodup_range
  rintro a b ⟨⟩
  rfl

/-- The listings of the parentless nodes share out the nodes of the forest. -/
structure Partitioned (f : Forest) : Prop where
  /-- A node is listed under its root, which has no parent, and is listed there once. -/
  once : ∀ x, f.Has x → ∃ root nodes, f.rootOf x = .ok root ∧ f.parent root = .ok none ∧
    f.preorder root = .ok nodes ∧ nodes.count x = 1
  /-- It is listed under no other parentless node. -/
  nowhere_else : ∀ x root nodes, f.parent root = .ok none → f.preorder root = .ok nodes → x ∈ nodes →
    f.rootOf x = .ok root
  /-- All listings together hold all nodes, each once. -/
  whole : ∃ listings, f.roots.mapM f.preorder = .ok listings ∧ listings.flatten.Perm f.ids
  total : ∃ counts, f.roots.mapM f.countNodes = .ok counts ∧ counts.sum = f.size
  /-- Two nodes have the same root when one listing holds both. -/
  together : ∀ a b, f.Has a → f.Has b → (f.rootOf a = f.rootOf b ↔
    ∃ root nodes, f.parent root = .ok none ∧ f.preorder root = .ok nodes ∧ a ∈ nodes ∧ b ∈ nodes)

namespace Realizes

/-- A parentless node lists the nodes whose root it is. -/
theorem mem_listing_iff (h : f.Realizes s) (hroot : f.parent root = .ok none)
    (hnodes : f.preorder root = .ok nodes) : x ∈ nodes ↔ f.rootOf x = .ok root := by
  have hhas : f.Has root := has_of_read hroot
  obtain ⟨ns, hns, -, hmem⟩ := h.exists_preorder hhas
  rw [hnodes] at hns
  cases hns
  rw [h.parent_eq hhas] at hroot
  have htop : s.parent root = none := Except.ok.inj hroot
  rw [hmem, h.rootOf_eq_iff]
  exact ⟨fun hx => ⟨h.has_of_covers hhas hx, htop, hx⟩, fun hx => hx.2.2⟩

theorem exists_listing (h : f.Realizes s) (hx : f.Has x) :
    ∃ root nodes, f.rootOf x = .ok root ∧ f.parent root = .ok none ∧ f.preorder root = .ok nodes ∧
      nodes.Nodup := by
  obtain ⟨root, hroot, htop, hcov⟩ := h.exists_top hx
  have hhas : f.Has root := h.has_of_covered hx hcov
  obtain ⟨nodes, hnodes, hdistinct, -⟩ := h.exists_preorder hhas
  refine ⟨root, nodes, hroot, ?_, hnodes, hdistinct⟩
  rw [h.parent_eq hhas, htop]

/-- Under the parentless nodes stand trees that have no node in common. -/
theorem nodup_preorderAll (h : f.Realizes s) (hts : ∀ t ∈ ts, t.In f) (htop : Tree.roots ts = f.roots) :
    (Tree.preorderAll ts).Nodup := by
  have hparent : ∀ t ∈ ts, s.parent t.root = none := by
    intro t ht
    have hm : t.root ∈ f.roots := by
      rw [← htop]
      exact List.mem_map_of_mem ht
    have hp := mem_roots.1 hm
    rw [h.parent_eq (has_of_in (hts t ht))] at hp
    exact Except.ok.inj hp
  have hne : ts.Pairwise fun t u => t.root ≠ u.root := by
    have hn : f.roots.Nodup := f.nodup_ids.filter _
    rwa [← htop, List.Nodup, Tree.roots, List.pairwise_map] at hn
  rw [Tree.preorderAll_eq_flatMap, List.nodup_flatMap]
  refine ⟨fun t ht => h.nodup_preorder (hts t ht), hne.imp_of_mem fun {t u} ht hu hne x hxt hxu => hne ?_⟩
  exact Layout.eq_of_tops (hparent t ht) (hparent u hu) ((h.mem_preorder_iff (hts t ht)).1 hxt)
    ((h.mem_preorder_iff (hts u hu)).1 hxu)

theorem preorderAll_perm (h : f.Realizes s) (hts : ∀ t ∈ ts, t.In f) (htop : Tree.roots ts = f.roots) :
    (Tree.preorderAll ts).Perm f.ids := by
  refine (List.perm_ext_iff_of_nodup (h.nodup_preorderAll hts htop) f.nodup_ids).2 fun x => ?_
  rw [mem_ids, Tree.preorderAll_eq_flatMap, List.mem_flatMap]
  constructor
  · rintro ⟨t, ht, hx⟩
    exact h.has_of_covers (has_of_in (hts t ht)) ((h.mem_preorder_iff (hts t ht)).1 hx)
  · intro hx
    obtain ⟨root, nodes, hroot, hparent, -⟩ := h.exists_listing hx
    have hm : root ∈ Tree.roots ts := htop ▸ mem_roots.2 hparent
    obtain ⟨t, ht, rfl⟩ := List.mem_map.1 hm
    exact ⟨t, ht, (h.mem_preorder_iff (hts t ht)).2 (h.rootOf_eq_iff.1 hroot).2.2⟩

theorem partitioned (h : f.Realizes s) : f.Partitioned := by
  obtain ⟨ts, htop, hts⟩ := exists_trees fun root (hroot : root ∈ f.roots) =>
    h.exists_tree (has_of_read (mem_roots.1 hroot))
  have hperm := h.preorderAll_perm hts htop
  constructor
  · intro x hx
    obtain ⟨root, nodes, hroot, hparent, hnodes, hdistinct⟩ := h.exists_listing hx
    have hm := (h.mem_listing_iff hparent hnodes).2 hroot
    exact ⟨root, nodes, hroot, hparent, hnodes, List.count_eq_one_of_mem hdistinct hm⟩
  · intro x root nodes hparent hnodes hx
    exact (h.mem_listing_iff hparent hnodes).1 hx
  · rw [← htop]
    refine ⟨_, mapM_roots fun t ht => h.preorder_eq (hts t ht) (has_of_in (hts t ht)), ?_⟩
    rwa [← List.flatMap_def, ← Tree.preorderAll_eq_flatMap]
  · rw [← htop]
    refine ⟨_, mapM_roots fun t ht => h.countNodes_eq (hts t ht), ?_⟩
    rw [← Tree.sizeAll_eq_sum, ← Tree.length_preorderAll, hperm.length_eq]
    simp [ids]
  · intro a b ha hb
    constructor
    · intro hab
      obtain ⟨root, nodes, hroot, hparent, hnodes, -⟩ := h.exists_listing ha
      refine ⟨root, nodes, hparent, hnodes, (h.mem_listing_iff hparent hnodes).2 hroot, ?_⟩
      exact (h.mem_listing_iff hparent hnodes).2 (hab ▸ hroot)
    · rintro ⟨root, nodes, hparent, hnodes, ha, hb⟩
      rw [(h.mem_listing_iff hparent hnodes).1 ha, (h.mem_listing_iff hparent hnodes).1 hb]

end Realizes

end Forest

/-- Every reachable forest is shared out by the listings of its parentless nodes. -/
theorem reachable_partitioned (hf : f.Reachable) : f.Partitioned := by
  obtain ⟨s, h⟩ := hf.realizes
  exact h.partitioned

-- the script with its block, and the copy of the block
theorem sampleForest_partitioned :
    sampleForest.Partitioned ∧ sampleForest.roots = [⟨5⟩, ⟨6⟩] ∧
      sampleForest.preorder ⟨5⟩ = .ok [⟨5⟩, ⟨4⟩, ⟨3⟩, ⟨1⟩, ⟨2⟩, ⟨0⟩] ∧
      sampleForest.preorder ⟨6⟩ = .ok [⟨6⟩, ⟨7⟩, ⟨10⟩, ⟨8⟩, ⟨9⟩] :=
  ⟨reachable_partitioned reachable_sampleForest, by decide +kernel, by decide +kernel, by decide +kernel⟩

end SyntaxForest
