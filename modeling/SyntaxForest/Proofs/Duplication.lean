import Mathlib.Data.Set.Function
import SyntaxForest.Proofs.Roots
import SyntaxForest.Proofs.Runs
/-!
# Copied trees

Copying a tree of a reachable forest adds one new node for each node of the tree, and changes no node that
was there. The new nodes make up a tree of the same shape, in which each carries what its original carries.
They are allocated in the order in which the walk meets the originals, which is not the pre-order, so the
way from original to copy is read off that order.
-/

namespace SyntaxForest

open Edit

variable {s t : Layout} {f g : Forest} {a x root : NodeId} {nodes : List NodeId}

/-! ## The nodes that a finished walk has met -/

namespace Layout.Walked

theorem root_mem (h : s.Walked root nodes []) : root ∈ nodes := List.mem_of_head? h.root_first

theorem mem_iff (h : s.Walked root nodes []) : x ∈ nodes ↔ s.Covers root x := by
  refine ⟨h.below x, fun hx => ?_⟩
  induction hx with
  | refl => exact h.root_mem
  | tail _ hz ih => exact h.children_met _ ih List.not_mem_nil _ (s.mem_children.2 hz)

theorem child_mem (h : s.Walked root nodes []) (ha : a ∈ nodes) (hx : x ∈ s.children a) : x ∈ nodes :=
  h.children_met a ha List.not_mem_nil x hx

end Layout.Walked

/-! ## The copies -/

namespace Forest

/-- `g` is `f` with a second tree, which has one new node for each of the `nodes` of the tree under `root`.
It is reached from them by `copy`. -/
structure Duplicated (f g : Forest) (root : NodeId) (nodes : List NodeId) (copy : NodeId → NodeId) :
    Prop where
  size : g.size = f.size + nodes.length
  /-- The records of the nodes that were there stay as they are. -/
  kept : ∀ x, f.Has x → g.node x = f.node x
  bijective : Set.BijOn copy {x | x ∈ nodes} {y | f.size ≤ y.index ∧ y.index < f.size + nodes.length}
  first : copy root = f.nextId
  alone : g.parent (copy root) = .ok none ∧ g.nextSibling (copy root) = .ok none ∧
    g.previousSibling (copy root) = .ok none
  children : ∀ x ∈ nodes, ∃ cs, f.children x = .ok cs ∧ g.children (copy x) = .ok (cs.map copy)
  /-- Kind, payload, position, type text and properties of a copy are those of its original. -/
  contents : ∀ x ∈ nodes, g.contents (copy x) = f.contents x

theorem Duplicated.congr {ns : List NodeId} {copy : NodeId → NodeId} (h : f.Duplicated g root nodes copy)
    (hp : nodes.Perm ns) : f.Duplicated g root ns copy where
  size := by rw [h.size, hp.length_eq]
  kept := h.kept
  bijective := by
    have hb := h.bijective
    simp only [hp.mem_iff, hp.length_eq] at hb
    exact hb
  first := h.first
  alone := h.alone
  children x hx := h.children x (hp.mem_iff.2 hx)
  contents x hx := h.contents x (hp.mem_iff.2 hx)

namespace Copied

theorem node_kept (h : f.Copied s root nodes [] g t) (hf : f.Realizes s) (hx : f.Has x) :
    g.node x = f.node x := by
  obtain ⟨r, -, htop, hcov⟩ := hf.exists_top hx
  exact (h.spares hf []).node_eq hf (hf.has_of_covered hx hcov) htop nofun hcov

theorem bijOn (h : f.Copied s root nodes [] g t) :
    Set.BijOn (f.copyOf nodes) {x | x ∈ nodes}
      {y | f.size ≤ y.index ∧ y.index < f.size + nodes.length} := by
  refine ⟨fun x hx => ?_, fun x hx y _ he => copyOf_inj hx he, fun y hy => ?_⟩
  · exact ⟨Nat.le_add_right _ _, Nat.add_lt_add_left (List.idxOf_lt_length_of_mem hx) _⟩
  · exact exists_copyOf h.walked.distinct (Nat.not_lt.2 hy.1) hy.2

theorem copyOf_root (h : f.Copied s root nodes [] g t) : f.copyOf nodes root = f.nextId := by
  obtain ⟨rest, rfl⟩ := List.head?_eq_some_iff.1 h.walked.root_first
  simp [copyOf, nextId]

/-- The copy of the root is no child of a copy, since the root is no child of a node of its tree. -/
theorem parent_copyOf_root (h : f.Copied s root nodes [] g t) (hf : f.Realizes s) :
    t.parent (f.copyOf nodes root) = none := by
  refine Option.eq_none_iff_forall_not_mem.2 fun q hq => ?_
  have hm : f.copyOf nodes root ∈ t.children q := t.mem_children.2 hq
  by_cases hhas : f.Has q
  · rw [h.kept q hhas] at hm
    exact f.not_has_copyOf nodes root (hf.has_child hm)
  · have hlt : q.index < g.size := (h.realizes.has hq).1
    obtain ⟨a, ha, rfl⟩ := exists_copyOf h.walked.distinct hhas (h.extended.size ▸ hlt)
    rw [h.finished a ha List.not_mem_nil, List.mem_map] at hm
    obtain ⟨c, hc, he⟩ := hm
    obtain rfl := copyOf_inj (h.walked.child_mem ha hc) he
    exact Layout.not_covers_parent (s.mem_children.1 hc) (h.walked.below a ha)

theorem contents_copyOf (h : f.Copied s root nodes [] g t) (hx : x ∈ nodes) :
    g.contents (f.copyOf nodes x) = f.contents x := by
  have hids : nodes.map (f.copyOf nodes) = f.nextIds nodes.length :=
    map_copyOf (show f.size = f.size + ([] : List NodeId).length from rfl) h.walked.distinct
  have hall := h.extended.copied
  rw [← hids, List.map_map] at hall
  exact List.map_inj_left.1 hall x hx

theorem duplicated (h : f.Copied s root nodes [] g t) (hf : f.Realizes s) (hroot : f.Has root) :
    f.Duplicated g root nodes (f.copyOf nodes) where
  size := h.extended.size
  kept x hx := h.node_kept hf hx
  bijective := h.bijOn
  first := h.copyOf_root
  alone := by
    have hhas := h.has_copyOf h.walked.root_mem
    have hnone := h.parent_copyOf_root hf
    have hparent : g.parent (f.copyOf nodes root) = .ok none := by rw [h.realizes.parent_eq hhas, hnone]
    refine ⟨hparent, ?_, ?_⟩
    · rw [h.realizes.nextSibling_eq hhas, Layout.next_of_parentless hnone]
    · unfold previousSibling
      rw [hparent]
      rfl
  children x hx := by
    refine ⟨s.children x, hf.children_eq (hf.has_of_covers hroot (h.walked.below x hx)), ?_⟩
    rw [h.realizes.children_eq (h.has_copyOf hx), h.finished x hx List.not_mem_nil]
  contents x hx := h.contents_copyOf hx

end Copied

end Forest

/-- In a reachable forest, copying the tree under a node duplicates the nodes of its pre-order. -/
theorem reachable_copyTree_duplicated (hf : f.Reachable) (hroot : f.Has root) :
    ∃ nodes copy, f.preorder root = .ok nodes ∧ f.countNodes root = .ok nodes.length ∧
      (copyTree root).answer f = .ok (copy root) ∧
      f.Duplicated ((copyTree root).after f) root nodes copy := by
  obtain ⟨s, h⟩ := hf.realizes
  obtain ⟨ns, hns, hdistinct, hmem⟩ := h.exists_preorder hroot
  obtain ⟨copy, hanswer, rfl, nodes, t, hg⟩ := (copyTree_succeeds h hroot).answer_after
  -- the walk has met the same nodes in another order
  have hperm : nodes.Perm ns := by
    refine (List.perm_ext_iff_of_nodup hg.walked.distinct hdistinct).2 fun x => ?_
    rw [hmem, hg.walked.mem_iff]
  refine ⟨ns, f.copyOf nodes, hns, ?_, ?_, (hg.duplicated h hroot).congr hperm⟩
  · unfold Forest.countNodes
    rw [hns]
    rfl
  · rw [hanswer, hg.copyOf_root]

-- the block is not the root of its tree, and its copies are not numbered in pre-order
theorem sampleForest_copyTree_duplicated :
    sampleForest.preorder ⟨4⟩ = .ok [⟨4⟩, ⟨3⟩, ⟨1⟩, ⟨2⟩, ⟨0⟩] ∧
      (copyTree ⟨4⟩).answer sampleForest = .ok ⟨11⟩ ∧
      ((copyTree ⟨4⟩).after sampleForest).preorder ⟨11⟩ = .ok [⟨11⟩, ⟨12⟩, ⟨15⟩, ⟨13⟩, ⟨14⟩] ∧
      ∃ nodes copy, sampleForest.preorder ⟨4⟩ = .ok nodes ∧
        sampleForest.countNodes ⟨4⟩ = .ok nodes.length ∧
        (copyTree ⟨4⟩).answer sampleForest = .ok (copy ⟨4⟩) ∧
        sampleForest.Duplicated ((copyTree ⟨4⟩).after sampleForest) ⟨4⟩ nodes copy :=
  ⟨by decide +kernel, by decide +kernel, by decide +kernel,
    reachable_copyTree_duplicated reachable_sampleForest (by decide +kernel)⟩

end SyntaxForest
