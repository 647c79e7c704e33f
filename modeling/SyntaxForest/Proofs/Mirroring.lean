import SyntaxForest.Proofs.Comparison
import SyntaxForest.Proofs.Duplication
/-!
# Mirrored trees

A tree of one forest is mirrored in another when labels take its nodes to nodes that carry the same, and lists of
children to lists of children. After a tree has been copied it is mirrored twice in the new forest: by its own
nodes, which have stayed as they were, and by their copies.
-/

namespace SyntaxForest

variable {s s' : Layout} {f g : Forest} {x : NodeId} {t : Tree} {nodes : List NodeId} {label : NodeId → NodeId}

namespace Tree

/-- The tree `t` of `f` is found again in `g` under the labels of its nodes. -/
structure Mirrored (t : Tree) (f g : Forest) (label : NodeId → NodeId) : Prop where
  children : ∀ x ∈ t.preorder, ∀ cs, f.children x = .ok cs → g.children (label x) = .ok (cs.map label)
  contents : ∀ x ∈ t.preorder, g.contents (label x) = f.contents x

theorem preorder_relabel (label : NodeId → NodeId) (t : Tree) :
    (t.relabel label).preorder = t.preorder.map label := by
  induction t using Tree.induct with
  | step id ts ih =>
    rw [relabel, preorder, preorder, preorderAll_eq_flatMap, preorderAll_eq_flatMap, relabelAll_eq_map,
      List.map_cons, List.flatMap_map, List.map_flatMap, List.flatMap_congr ih]

/-- Labels that take lists of children to lists of children take trees to trees. -/
theorem In.relabel (ht : t.In f)
    (h : ∀ x ∈ t.preorder, ∀ cs, f.children x = .ok cs → g.children (label x) = .ok (cs.map label)) :
    (t.relabel label).In g := by
  induction t using Tree.induct with
  | step id ts ih =>
    obtain ⟨hchildren, hts⟩ := in_node.1 ht
    rw [Tree.relabel, in_node, roots_relabelAll, relabelAll_eq_map]
    refine ⟨h id (by simp [preorder]) _ hchildren, fun u hu => ?_⟩
    obtain ⟨t, htm, rfl⟩ := List.mem_map.1 hu
    exact ih t htm (hts t htm) fun x hx => h x (mem_preorder_of_mem htm hx)

end Tree

namespace Forest.Copied

theorem mirrored_self (hg : f.Copied s t.root nodes [] g s') (h : f.Realizes s) (ht : t.In f) :
    t.Mirrored f g id where
  children x hx cs hcs := by
    have hhas := h.has_of_mem_preorder ht hx
    rw [h.children_eq hhas] at hcs
    cases hcs
    rw [id, hg.realizes.children_eq (hg.extended.has hhas), hg.kept x hhas, List.map_id]
  contents x hx := hg.extended.kept x (h.has_of_mem_preorder ht hx)

theorem mirrored_copyOf (hg : f.Copied s t.root nodes [] g s') (h : f.Realizes s) (ht : t.In f) :
    t.Mirrored f g (f.copyOf nodes) := by
  have hmet : ∀ x ∈ t.preorder, x ∈ nodes := fun x hx =>
    hg.walked.mem_iff.2 ((h.mem_preorder_iff ht).1 hx)
  constructor
  · intro x hx cs hcs
    rw [h.children_eq (h.has_of_mem_preorder ht hx)] at hcs
    cases hcs
    rw [hg.realizes.children_eq (hg.has_copyOf (hmet x hx)), hg.finished x (hmet x hx) List.not_mem_nil]
  · exact fun x hx => hg.contents_copyOf (hmet x hx)

end Forest.Copied

end SyntaxForest
