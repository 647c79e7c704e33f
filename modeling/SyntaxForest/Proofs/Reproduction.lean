import SyntaxForest.Proofs.Appearance
import SyntaxForest.Proofs.Mirroring
/-!
# Copies that read the same

A copy is made in an order of its own and under new handles. A mirrored tree none the less shows the same text and
the same sequence of nodes: a line is made from what a node carries and from the text of its first child, and both
are mirrored. So a copied tree cannot be told from its original by rendering it or by going through it, and the
original looks after copying as it did before.
-/

namespace SyntaxForest

open Edit

variable {α : Type} {s s' : Layout} {f g : Forest} {options : RenderOptions} {x y root : NodeId} {t : Tree}
  {nodes : List NodeId} {label : NodeId → NodeId}

/-! ## Profiles of nodes -/

/-- What a node is, apart from its handle and its place. Numbers are told apart by their bits, and the properties
stand in the order in which they are kept. -/
structure Profile where
  kind : Kind
  payload : Payload
  position : Position
  properties : List Property
  typeText : Option String
  childCount : Nat
  deriving DecidableEq, Repr

namespace Forest

/-- The profile of one node. -/
def profile (f : Forest) (id : NodeId) : Except Fault Profile := do
  return {
    kind := ← f.kind id
    payload := ← f.payload id
    position := ← f.position id
    properties := (← f.properties id).entries
    typeText := ← f.typeText id
    childCount := ← f.childCount id }

/-- The profiles of the nodes under `root`, in pre-order. -/
def profiles (f : Forest) (root : NodeId) : Except Fault (List Profile) := do
  (← f.preorder root).mapM f.profile

theorem Realizes.profile_ok (h : f.Realizes s) (hx : f.Has x) : ∃ profile, f.profile x = .ok profile := by
  obtain ⟨n, hn⟩ := has_iff_node.1 hx
  simp [profile, kind, payload, position, properties, typeText, childCount, hn, h.children_eq hx, bind,
    Except.bind, pure, Except.pure]

theorem read_of_contents {view : Node → α} (hview : ∀ n, view n.detachedCopy = view n)
    (h : g.contents y = f.contents x) :
    (return view (← g.node y) : Except Fault α) = (return view (← f.node x)) := by
  rw [read_eq_contents hview, read_eq_contents hview, h]

/-- A query that is answered alike under labels is answered alike along a list. -/
theorem mapM_labels {query query' : NodeId → Except Fault α} (h : ∀ x ∈ nodes, query' (label x) = query x) :
    (nodes.map label).mapM query' = nodes.mapM query := by
  induction nodes with
  | nil => rfl
  | cons x nodes ih =>
    rw [List.forall_mem_cons] at h
    rw [List.map_cons, List.mapM_cons, List.mapM_cons, h.1, ih h.2]

theorem Realizes.profiles_ok (h : f.Realizes s) (ht : t.In f) :
    ∃ profiles, f.profiles t.root = .ok profiles := by
  unfold profiles
  rw [h.preorder_eq ht (has_of_in ht)]
  obtain ⟨profiles, hprofiles⟩ := exists_forall₂ fun x hx => h.profile_ok (h.has_of_mem_preorder ht hx)
  exact ⟨profiles, mapM_of_forall₂ hprofiles⟩

end Forest

/-! ## Mirrored trees -/

namespace Tree

theorem renderAll_relabel {ts : List Tree} {depth : Nat}
    (h : ∀ t ∈ ts, (t.relabel label).render g options depth = t.render f options depth) :
    renderAll g options (relabelAll label ts) depth = renderAll f options ts depth := by
  induction ts with
  | nil => rfl
  | cons t ts ih =>
    rw [List.forall_mem_cons] at h
    rw [relabelAll, renderAll, renderAll, h.1, ih h.2]

/-- A relabelled tree has the same lines when each node has the same text under its label. -/
theorem render_relabel (h : ∀ x ∈ t.preorder, g.renderNode options (label x) = f.renderNode options x)
    (depth : Nat) : (t.relabel label).render g options depth = t.render f options depth := by
  induction t using Tree.induct generalizing depth with
  | step id ts ih =>
    have hline : g.renderListed options (label id) depth = f.renderListed options id depth := by
      rw [Forest.renderListed, Forest.renderListed, h id (root_mem_preorder (node id ts))]
    have hbelow : renderAll g options (relabelAll label ts) (depth + 1) =
        renderAll f options ts (depth + 1) := by
      apply renderAll_relabel
      intro t ht
      exact ih t ht (fun x hx => h x (mem_preorder_of_mem ht hx)) (depth + 1)
    rw [relabel, render, render, hline, hbelow]

namespace Mirrored

variable (h : t.Mirrored f g label) (hf : f.Realizes s) (ht : t.In f)
include h hf ht

theorem profile_eq (hx : x ∈ t.preorder) : g.profile (label x) = f.profile x := by
  have hcontents := h.contents x hx
  have hcount : g.childCount (label x) = f.childCount x := by
    have hcs := hf.children_eq (hf.has_of_mem_preorder ht hx)
    rw [Forest.childCount, Forest.childCount, hcs, h.children x hx _ hcs]
    simp [bind, Except.bind, pure, Except.pure]
  have hkind : g.kind (label x) = f.kind x := Forest.read_of_contents (fun _ => rfl) hcontents
  have hpayload : g.payload (label x) = f.payload x := Forest.read_of_contents (fun _ => rfl) hcontents
  have hposition : g.position (label x) = f.position x := Forest.read_of_contents (fun _ => rfl) hcontents
  have hproperties : g.properties (label x) = f.properties x :=
    Forest.read_of_contents (fun _ => rfl) hcontents
  have htype : g.typeText (label x) = f.typeText x := Forest.read_of_contents (fun _ => rfl) hcontents
  rw [Forest.profile, Forest.profile, hkind, hpayload, hposition, hproperties, htype, hcount]

variable (hg : g.Realizes s')
include hg

theorem functionName?_eq {m n : Node} (hx : x ∈ t.preorder) (hm : g.node (label x) = .ok m)
    (hn : f.node x = .ok n) : g.functionName? m = f.functionName? n := by
  have hchildren : s'.children (label x) = (s.children x).map label := by
    have hcs := h.children x hx _ (hf.children_eq (.of_node hn))
    rw [hg.children_eq (.of_node hm)] at hcs
    exact Except.ok.inj hcs
  unfold Forest.functionName?
  rw [(hg.links hm).firstChild, (hf.links hn).firstChild, hchildren, List.head?_map]
  cases hfirst : (s.children x).head? with
  | none => rfl
  | some first =>
    -- the first child belongs to the tree as well, so its text is mirrored
    have hparent : s.parent first = some x := s.mem_children.1 (List.mem_of_head? hfirst)
    have hmem : first ∈ t.preorder := by
      rw [hf.mem_preorder_iff ht] at hx ⊢
      exact hx.tail hparent
    have hpayload : g.payload (label first) = f.payload first :=
      Forest.read_of_contents (fun _ => rfl) (h.contents first hmem)
    simp only [Option.map_some, hpayload]

theorem renderNode_eq (options : RenderOptions) (hx : x ∈ t.preorder) :
    g.renderNode options (label x) = f.renderNode options x := by
  obtain ⟨n, hn⟩ := Forest.has_iff_node.1 (hf.has_of_mem_preorder ht hx)
  obtain ⟨m, hm, hcopy⟩ := Forest.node_of_contents (h.contents x hx) hn
  obtain ⟨hkind, hpayload, hposition, hproperties, htype⟩ : m.kind = n.kind ∧ m.payload = n.payload ∧
      m.position = n.position ∧ m.properties = n.properties ∧ m.typeText = n.typeText := by
    simpa [Node.detachedCopy] using hcopy
  apply Forest.renderNode_congr hm hn hkind hpayload
  · exact fun _ => h.functionName?_eq hf ht hg hx hm hn
  · intro _
    rw [Forest.renderLine, Forest.renderLine, hposition]
  · intro _
    rw [hproperties]
  · exact fun _ => htype

theorem renderTree_eq (options : RenderOptions) :
    g.renderTree options (label t.root) = f.renderTree options t.root := by
  rw [← t.root_relabel label, hg.renderTree_eq options (ht.relabel h.children), hf.renderTree_eq options ht,
    render_relabel fun x hx => h.renderNode_eq hf ht hg options hx]

/-- The profiles along the mirrored tree are those along the tree. -/
theorem profiles_eq : g.profiles (label t.root) = f.profiles t.root := by
  have hin := ht.relabel h.children
  unfold Forest.profiles
  rw [← t.root_relabel label, hg.preorder_eq hin (Forest.has_of_in hin), hf.preorder_eq ht (Forest.has_of_in ht),
    preorder_relabel]
  exact Forest.mapM_labels fun x hx => h.profile_eq hf ht hx

end Mirrored

end Tree

namespace Forest

/-! ## Copied trees -/

/-- `copy` is a new node of `g`. Its tree and that of `root` look the same there, and they look as the tree of
`root` does in `f`. -/
structure Reproduced (f g : Forest) (root copy : NodeId) : Prop where
  new : g.Has copy ∧ ¬ f.Has copy
  text : ∀ options, ∃ text, f.renderTree options root = .ok text ∧ g.renderTree options root = .ok text ∧
    g.renderTree options copy = .ok text
  profiles : ∃ profiles, f.profiles root = .ok profiles ∧ g.profiles root = .ok profiles ∧
    g.profiles copy = .ok profiles

theorem Copied.reproduced (hg : f.Copied s t.root nodes [] g s') (h : f.Realizes s) (ht : t.In f) :
    f.Reproduced g t.root f.nextId := by
  have hself := hg.mirrored_self h ht
  have hcopy := hg.mirrored_copyOf h ht
  rw [← hg.copyOf_root]
  refine ⟨⟨hg.has_copyOf hg.walked.root_mem, f.not_has_copyOf nodes t.root⟩, fun options => ?_, ?_⟩
  · obtain ⟨text, htext⟩ := h.render_ok options ht 0
    rw [← h.renderTree_eq options ht] at htext
    exact ⟨text, htext, (hself.renderTree_eq h ht hg.realizes options).trans htext,
      (hcopy.renderTree_eq h ht hg.realizes options).trans htext⟩
  · obtain ⟨profiles, hprofiles⟩ := h.profiles_ok ht
    exact ⟨profiles, hprofiles, (hself.profiles_eq h ht hg.realizes).trans hprofiles,
      (hcopy.profiles_eq h ht hg.realizes).trans hprofiles⟩

end Forest

/-- In a reachable forest, a copied tree renders and traverses as its original does, before and after. -/
theorem reachable_copyTree_reproduced (hf : f.Reachable) (hroot : f.Has root) :
    ∃ copy, (copyTree root).answer f = .ok copy ∧ f.Reproduced ((copyTree root).after f) root copy := by
  obtain ⟨s, h⟩ := hf.realizes
  obtain ⟨t, rfl, ht⟩ := h.exists_tree hroot
  obtain ⟨copy, hanswer, rfl, nodes, s', hg⟩ := (copyTree_succeeds h hroot).answer_after
  exact ⟨_, hanswer, hg.reproduced h ht⟩

/-- A named function with a NaN in it, with properties that point at a node and at a value of another owner, and
with positions that are unknown but for one. -/
def assortedForest : Forest :=
  Command.runAll [.construct (.identifier "f"), .newNode .function (.ofLineColumn 3 1),
    .construct (.numberLit ⟨0xFFF8000000000001⟩), .construct (.exprResult ⟨2⟩), .construct .thisRef,
    .construct (.exprResult ⟨4⟩), .appendChildren ⟨1⟩ [⟨0⟩, ⟨3⟩, ⟨5⟩],
    .putObject ⟨1⟩ .jsdocInfo (.node ⟨2⟩), .putObject ⟨2⟩ .sourceFile (.external 7),
    .setTypeText ⟨1⟩ (some "number")] .empty

-- the copies are not numbered in pre-order, and no comparison finds the trees equal
theorem assortedForest_copyTree_reproduced :
    (copyTree ⟨1⟩).answer assortedForest = .ok ⟨6⟩ ∧
      ((copyTree ⟨1⟩).after assortedForest).preorder ⟨6⟩ = .ok [⟨6⟩, ⟨7⟩, ⟨8⟩, ⟨11⟩, ⟨9⟩, ⟨10⟩] ∧
      ((copyTree ⟨1⟩).after assortedForest).equivalent ⟨1⟩ ⟨6⟩ = .ok false ∧
      assortedForest.renderTree ⟨true, false, true⟩ ⟨1⟩ = .ok
        "FUNCTION f 3 : number\n  NAME f\n  EXPR_RESULT\n    NUMBER NaN\n  EXPR_RESULT\n    THIS\n" ∧
      ∃ copy, (copyTree ⟨1⟩).answer assortedForest = .ok copy ∧
        assortedForest.Reproduced ((copyTree ⟨1⟩).after assortedForest) ⟨1⟩ copy :=
  ⟨by decide +kernel, by decide +kernel, by decide +kernel, by decide +kernel,
    reachable_copyTree_reproduced (Forest.Reachable.empty.runAll _) (by decide +kernel)⟩

end SyntaxForest
