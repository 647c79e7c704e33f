import SyntaxForest.Proofs.Runs
import SyntaxForest.Proofs.Worklists
/-!
# Rendered trees as indented listings

A rendered tree has one line for each node of its pre-order, and the line of a node is indented by its depth.
Rendering carries the depths along in its list of pending work. Here they are counted at each node from its
ancestors instead, less the ancestors of the node that the rendering began with, so it makes no difference
whether that node is the root of its tree.
-/

namespace SyntaxForest

variable {s : Layout} {f : Forest} {options : RenderOptions} {p c x root : NodeId} {t : Tree} {ts : List Tree}
  {depth base : Nat}

theorem pushn_empty (c : Char) (n : Nat) : "".pushn c n = String.ofList (List.replicate n c) := by
  have hpush : ("".pushn c n).toList = List.replicate n c := by
    rw [String.pushn_eq_repeat_push]
    induction n with
    | zero => rfl
    | succ n ih => rw [Nat.repeat, String.toList_push, ih, List.replicate_succ']
  rw [← hpush, String.ofList_toList]

namespace Forest

/-! ## Ancestors of children -/

/-- A walk along links takes the same way whatever was met before it, and more steps change nothing. -/
theorem follow_behind {link : Node → Option NodeId} {steps : Nat} {start : Option NodeId}
    {met ids : List NodeId} (h : f.follow link steps start met = .ok ids) (more : Nat) (hs : steps ≤ more)
    (met' : List NodeId) :
    ∃ rest, ids = met.reverse ++ rest ∧ f.follow link more start met' = .ok (met'.reverse ++ rest) := by
  revert more met'
  refine follow_induct h ?_ ?_
  · intro steps met hids more _ met'
    exact ⟨[], by simpa using hids, by simp [follow]⟩
  · intro steps id n met hn ih more hs met'
    obtain ⟨more, rfl⟩ : ∃ k, more = k + 1 := ⟨more - 1, by omega⟩
    obtain ⟨rest, rfl, hrest⟩ := ih more (Nat.le_of_succ_le_succ hs) (id :: met')
    refine ⟨id :: rest, by simp, ?_⟩
    rw [follow, hn]
    simpa [bind, Except.bind] using hrest

/-- The ancestors of a child are its parent and the ancestors of that. -/
theorem Realizes.ancestors_of_parent (h : f.Realizes s) (hc : s.parent c = some p) :
    ∃ up, f.ancestors p = .ok up ∧ f.ancestors c = .ok (p :: up) := by
  obtain ⟨hp, hhas⟩ := h.has hc
  obtain ⟨above, habove, -⟩ := h.ancestors_eq hhas
  obtain ⟨n, hn⟩ := has_iff_node.1 hp
  have hpos : p.index < f.size := hp
  obtain ⟨k, hk⟩ : ∃ k, f.size = k + 1 := ⟨f.size - 1, by omega⟩
  have hfollow : f.follow (·.parent) k (s.parent p) [p] = .ok above := by
    have hstart := habove
    unfold ancestors at hstart
    rw [h.parent_eq hhas, hc, hk] at hstart
    simp only [bind, Except.bind, follow, hn] at hstart
    rwa [(h.links hn).parent] at hstart
  obtain ⟨up, rfl, hup⟩ := follow_behind hfollow (k + 1) (Nat.le_succ k) []
  refine ⟨up, ?_, habove⟩
  unfold ancestors
  rw [h.parent_eq hp, hk]
  exact hup

/-! ## Lines -/

/-- The line of a node that has `base` ancestors and one more for each level of its depth: two spaces for each
level, the text of the node, and the end of the line. -/
def LineAt (f : Forest) (options : RenderOptions) (base : Nat) (x : NodeId) (line : String) : Prop :=
  ∃ above depth text, f.ancestors x = .ok above ∧ above.length = base + depth ∧
    f.renderNode options x = .ok text ∧
    line = String.ofList (List.replicate (2 * depth) ' ') ++ text ++ "\n"

end Forest

namespace Tree

/-- The lines of a list of trees are those of the first tree and then those of the rest. -/
theorem renderAll_lines (h : ∀ t ∈ ts, ∃ lines, t.render f options depth = .ok (String.join lines) ∧
      List.Forall₂ (f.LineAt options base) t.preorder lines) :
    ∃ lines, renderAll f options ts depth = .ok (String.join lines) ∧
      List.Forall₂ (f.LineAt options base) (preorderAll ts) lines := by
  induction ts with
  | nil => exact ⟨[], by simp [renderAll], .nil⟩
  | cons t ts ih =>
    rw [List.forall_mem_cons] at h
    obtain ⟨first, hfirst, hlines⟩ := h.1
    obtain ⟨rest, hrest, hlines'⟩ := ih h.2
    refine ⟨first ++ rest, ?_, List.rel_append hlines hlines'⟩
    simp [renderAll, hfirst, hrest, bind, Except.bind, pure, Except.pure]

end Tree

namespace Forest

/-- The recursion carries the depth along, and each step down adds one ancestor. -/
theorem Realizes.render_lines (h : f.Realizes s) (options : RenderOptions) (ht : t.In f) {above : List NodeId}
    (habove : f.ancestors t.root = .ok above) (hdepth : above.length = base + depth) :
    ∃ lines, t.render f options depth = .ok (String.join lines) ∧
      List.Forall₂ (f.LineAt options base) t.preorder lines := by
  induction t using Tree.induct generalizing depth above with
  | step id ts ih =>
    obtain ⟨hid, hroots, hts⟩ := h.in_node_iff.1 ht
    obtain ⟨text, htext⟩ := h.renderNode_ok options hid
    have hline : f.renderListed options id depth =
        .ok (String.ofList (List.replicate (2 * depth) ' ') ++ text ++ "\n") := by
      simp only [renderListed, htext, pushn_empty, bind, Except.bind, pure, Except.pure]
    have hbelow : ∀ t ∈ ts, ∃ lines, t.render f options (depth + 1) = .ok (String.join lines) ∧
        List.Forall₂ (f.LineAt options base) t.preorder lines := by
      intro t htm
      have hparent : s.parent t.root = some id := by
        rw [← s.mem_children, hroots]
        exact List.mem_map_of_mem htm
      obtain ⟨up, hup, hchild⟩ := h.ancestors_of_parent hparent
      rw [Tree.root_node, hup] at habove
      cases habove
      exact ih t htm (hts t htm) hchild (by rw [List.length_cons]; omega)
    obtain ⟨lines, hlines, hall⟩ := Tree.renderAll_lines hbelow
    refine ⟨_ :: lines, ?_, .cons ⟨above, depth, text, habove, hdepth, htext, rfl⟩ hall⟩
    simp [Tree.render, hline, hlines, bind, Except.bind, pure, Except.pure]

/-! ## Rendered trees -/

/-- `text` is the tree under `root` as an indented listing. -/
structure Outlined (f : Forest) (options : RenderOptions) (root : NodeId) (text : String) : Prop where
  answer : f.renderTree options root = .ok text
  /-- The lines are those of the nodes in pre-order, each as deep as it has ancestors more than the root. -/
  listing : ∃ up nodes lines, f.ancestors root = .ok up ∧ f.preorder root = .ok nodes ∧
    List.Forall₂ (f.LineAt options up.length) nodes lines ∧ text = String.join lines
  /-- Recursion on the tree that the lists of children make up gives the same text: first the node, then its
  children one level deeper. -/
  recursive : ∃ t : Tree, t.root = root ∧ t.In f ∧ t.render f options 0 = .ok text

theorem Realizes.outlined (h : f.Realizes s) (options : RenderOptions) (hroot : f.Has root) :
    ∃ text, f.Outlined options root text := by
  obtain ⟨t, rfl, ht⟩ := h.exists_tree hroot
  obtain ⟨up, hup, -⟩ := h.ancestors_eq hroot
  have hdepth : up.length = up.length + 0 := rfl
  obtain ⟨lines, hrender, hlines⟩ := h.render_lines options ht hup hdepth
  refine ⟨String.join lines, ?_, ?_, ?_⟩
  · rw [h.renderTree_eq options ht, hrender]
  · exact ⟨up, t.preorder, lines, hup, h.preorder_eq ht hroot, hlines, rfl⟩
  · exact ⟨t, rfl, ht, hrender⟩

end Forest

/-- In a reachable forest every tree is rendered as the indented listing of its pre-order. -/
theorem reachable_outlined (hf : f.Reachable) (hroot : f.Has root) (options : RenderOptions) :
    ∃ text, f.Outlined options root text := by
  obtain ⟨s, h⟩ := hf.realizes
  exact h.outlined options hroot

-- the block stands in a script, and its own line is not indented
theorem sampleForest_outlined :
    sampleForest.ancestors ⟨4⟩ = .ok [⟨5⟩] ∧ sampleForest.ancestors ⟨1⟩ = .ok [⟨3⟩, ⟨4⟩, ⟨5⟩] ∧
      sampleForest.renderTree {} ⟨4⟩ = .ok "BLOCK\n  EXPR_RESULT\n    NAME x\n  EXPR_RESULT\n    THIS\n" ∧
      ∃ text, sampleForest.Outlined {} ⟨4⟩ text :=
  ⟨by decide +kernel, by decide +kernel, by decide +kernel,
    reachable_outlined reachable_sampleForest (by decide +kernel) {}⟩

end SyntaxForest
