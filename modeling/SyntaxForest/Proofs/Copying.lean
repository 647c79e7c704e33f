import SyntaxForest.Forest.Copy
import SyntaxForest.Proofs.Building
/-!
# Copies

Copies are numbered in the order in which their nodes are met, so the place of a node in that order
tells its copy. `Copied` is the invariant of the walk: the nodes met so far have copies, and those still
waiting lack the copies of their children. A node is met once only, so the steps never run out.
-/

namespace SyntaxForest

variable {s t : Layout} {f g : Forest} {id p c x : NodeId} {cs ns : List NodeId} {n : Node}

namespace Forest

/-! ## Handles of copies -/

/-- The handles that the next `count` nodes will get. -/
def nextIds (f : Forest) (count : Nat) : List NodeId := (List.range' f.size count).map NodeId.mk

/-- The handle of the copy of a node, when copies of `nodes` are allocated in this order. -/
def copyOf (f : Forest) (nodes : List NodeId) (id : NodeId) : NodeId := ⟨f.size + nodes.idxOf id⟩

theorem nextIds_succ (hg : g.size = f.size + 1) (count : Nat) :
    f.nextIds (count + 1) = f.nextId :: g.nextIds count := by
  simp [nextIds, nextId, List.range'_succ, hg]

theorem nextIds_append {count : Nat} (hg : g.size = f.size + count) (more : Nat) :
    f.nextIds (count + more) = f.nextIds count ++ g.nextIds more := by
  rw [nextIds, nextIds, nextIds, hg, ← List.map_append, List.range'_append_1]

theorem mem_nextIds {count : Nat} :
    id ∈ f.nextIds count ↔ f.size ≤ id.index ∧ id.index < f.size + count := by
  simp only [nextIds, List.mem_map, List.mem_range'_1]
  exact ⟨fun ⟨_, h, e⟩ => e ▸ h, fun h => ⟨_, h, rfl⟩⟩

theorem copyOf_append (h : id ∈ ns) (cs : List NodeId) : f.copyOf (ns ++ cs) id = f.copyOf ns id := by
  rw [copyOf, List.idxOf_append_of_mem h, copyOf]

theorem copyOf_inj (ha : id ∈ ns) (he : f.copyOf ns id = f.copyOf ns x) : id = x := by
  simp only [copyOf, NodeId.mk.injEq, Nat.add_left_cancel_iff] at he
  exact (List.idxOf_inj ha).1 he

theorem not_has_copyOf (f : Forest) (ns : List NodeId) (id : NodeId) : ¬ f.Has (f.copyOf ns id) := by
  simp [Has, copyOf]

theorem exists_copyOf (hd : ns.Nodup) (hx : ¬ f.Has x) (hlt : x.index < f.size + ns.length) :
    ∃ a ∈ ns, f.copyOf ns a = x := by
  have hle : f.size ≤ x.index := Nat.not_lt.1 hx
  have hi : x.index - f.size < ns.length := by omega
  refine ⟨ns[x.index - f.size], List.getElem_mem hi, ?_⟩
  rw [copyOf, hd.idxOf_getElem _ hi]
  exact congrArg NodeId.mk (by omega)

/-- Nodes behind `ns` that are met next are copied to the next handles. -/
theorem map_copyOf (hg : g.size = f.size + ns.length) (hd : (ns ++ cs).Nodup) :
    cs.map (f.copyOf (ns ++ cs)) = g.nextIds cs.length := by
  refine List.ext_getElem (by simp [nextIds]) fun i hi _ => ?_
  rw [List.length_map] at hi
  have hplace : (ns ++ cs).idxOf cs[i] = ns.length + i := by
    have hl : ns.length + i < (ns ++ cs).length := by simp; omega
    have hget : (ns ++ cs)[ns.length + i] = cs[i] := by simp
    rw [← hget, hd.idxOf_getElem _ hl]
  simp [copyOf, nextIds, hplace, hg, Nat.add_assoc]

/-- `g` has the nodes of `f` and then a copy of each of `cs`, whatever their links are. -/
structure ExtendedBy (f : Forest) (cs : List NodeId) (g : Forest) : Prop where
  size : g.size = f.size + cs.length
  kept : ∀ x, f.Has x → g.contents x = f.contents x
  copied : (f.nextIds cs.length).map g.contents = cs.map f.contents

theorem ExtendedBy.has (h : f.ExtendedBy cs g) (hx : f.Has x) : g.Has x := by
  have hlt : x.index < f.size := hx
  rw [Has, h.size]
  omega

theorem ExtendedBy.append {h : Forest} (hf : f.ExtendedBy ns g) (hg : g.ExtendedBy cs h)
    (hcs : ∀ c ∈ cs, f.Has c) : f.ExtendedBy (ns ++ cs) h where
  size := by rw [hg.size, hf.size, List.length_append, Nat.add_assoc]
  kept x hx := by rw [hg.kept x (hf.has hx), hf.kept x hx]
  copied := by
    have hfirst : (f.nextIds ns.length).map h.contents = (f.nextIds ns.length).map g.contents := by
      refine List.map_congr_left fun x hx => hg.kept x ?_
      rw [Has, hf.size]
      exact (mem_nextIds.1 hx).2
    have hrest : cs.map g.contents = cs.map f.contents :=
      List.map_congr_left fun c hc => hf.kept c (hcs c hc)
    rw [List.length_append, nextIds_append hf.size, List.map_append, List.map_append, hfirst, hf.copied,
      hg.copied, hrest]

theorem extendedBy_nil (f : Forest) : f.ExtendedBy [] f := ⟨rfl, fun _ _ => rfl, rfl⟩

theorem extendedBy_push (hn : f.node c = .ok n) : f.ExtendedBy [c] (f.push n.detachedCopy) where
  size := size_push f _
  kept x hx := by rw [contents, node_push_of_has hx, contents]
  copied := by
    have hcopy : (f.push n.detachedCopy).contents f.nextId = f.contents c := by
      rw [contents, contents, node_push_nextId, hn]
      rfl
    exact congrArg (fun e => [e]) hcopy

/-- Links do not matter. -/
theorem ExtendedBy.congr {h : Forest} (hf : f.ExtendedBy cs g) (hg : g.SameContents h) :
    f.ExtendedBy cs h where
  size := hg.size.trans hf.size
  kept x hx := (hg x).trans (hf.kept x hx)
  copied := by
    rw [← hf.copied]
    exact List.map_congr_left fun x _ => hg x

end Forest

namespace Edit

open Forest

theorem copyNode_succeeds (h : f.Realizes s) (hn : f.node id = .ok n) :
    (copyNode id).Succeeds f fun copy g =>
      copy = f.nextId ∧ g = f.push n.detachedCopy ∧ g.Realizes s :=
  succeeds_ask hn (allocate_succeeds h rfl)

theorem copyNode_leads (h : f.Realizes s) (id : NodeId) (names : List NodeId) :
    (copyNode id).Leads f fun _ g => f.Spares s names g s :=
  leads_ask (fun _ => ordinary_of_node) fun _ _ => allocate_leads h rfl names

theorem fits_copy (h : f.Realizes s) (hp : f.Has p) : s.Fits p (s.children p) [f.nextId] [] := by
  obtain ⟨hparent, hchildren⟩ := h.alone f.not_has_nextId
  refine Layout.fits_one (List.append_nil _).symm hparent ?_
  rw [Layout.covers_iff, not_or]
  exact ⟨fun e => f.not_has_nextId (e ▸ hp), Layout.not_above_of_childless hchildren⟩

/-- The copies come behind the last child of `p`, and each is put with its node in front of `pending`. -/
theorem copyChildren_succeeds (h : f.Realizes s) (hp : f.Has p) (hcs : ∀ c ∈ cs, f.Has c)
    (pending : List (NodeId × NodeId)) :
    (copyChildren p cs pending).Succeeds f fun next g =>
      next = (cs.zip (f.nextIds cs.length)).reverse ++ pending ∧ f.ExtendedBy cs g ∧
        ∃ t, g.Realizes t ∧ ∀ q,
          t.children q = if q = p then s.children p ++ f.nextIds cs.length else s.children q := by
  induction cs generalizing f s pending with
  | nil => exact succeeds_pure ⟨rfl, f.extendedBy_nil, s, h, by simp [nextIds]⟩
  | cons c cs ih =>
    obtain ⟨n, hn⟩ := has_iff_node.1 (hcs c List.mem_cons_self)
    have hcs : ∀ x ∈ cs, f.Has x := fun x hx => hcs x (List.mem_cons_of_mem _ hx)
    refine (copyNode_succeeds h hn).bind fun copy g₁ h₁ => ?_
    obtain ⟨rfl, rfl, h₁⟩ := h₁
    have hlink := linkBack_succeeds h₁ (hp.push _) (f.has_push_nextId _) (fits_copy h hp)
    refine hlink.bind fun _ g₂ hg => ?_
    have h₂ := (extendedBy_push hn).congr hg.sameContents
    refine (ih (hg.realizes h₁) (h₂.has hp) (fun x hx => h₂.has (hcs x hx)) _).mono fun next g hnext => ?_
    obtain ⟨rfl, h₃, t, ht, hchildren⟩ := hnext
    have hids : f.nextIds (cs.length + 1) = f.nextId :: g₂.nextIds cs.length := nextIds_succ h₂.size _
    refine ⟨?_, h₂.append h₃ hcs, t, ht, fun q => ?_⟩
    · rw [List.length_cons, hids, List.zip_cons_cons, List.reverse_cons, List.append_assoc]
      rfl
    · rw [hchildren, Layout.children_graft, Layout.children_graft, List.length_cons, hids]
      by_cases hq : q = p <;> simp [hq]

end Edit

/-! ## The walk over a tree -/

variable {g' : Forest} {t' : Layout} {root a : NodeId} {nodes waiting : List NodeId}

/-- A walk down from `root` has met `nodes`, in this order, and has yet to take up those `waiting`. -/
structure Layout.Walked (s : Layout) (root : NodeId) (nodes waiting : List NodeId) : Prop where
  root_first : nodes.head? = some root
  below : ∀ a ∈ nodes, s.Covers root a
  distinct : nodes.Nodup
  waiting_met : ∀ a ∈ waiting, a ∈ nodes
  waiting_distinct : waiting.Nodup
  -- the children of a node are met when it is taken up, and not before
  children_met : ∀ a ∈ nodes, a ∉ waiting → ∀ c ∈ s.children a, c ∈ nodes
  parent_taken : ∀ a ∈ nodes, a ≠ root → ∃ b ∈ nodes, b ∉ waiting ∧ s.parent a = some b

namespace Layout.Walked

theorem start (s : Layout) (root : NodeId) : s.Walked root [root] [root] where
  root_first := rfl
  below a ha := by
    rw [List.mem_singleton.1 ha]
    exact Covers.refl s root
  distinct := List.nodup_singleton root
  waiting_met _ ha := ha
  waiting_distinct := List.nodup_singleton root
  children_met a ha hw := absurd ha hw
  parent_taken a ha hne := absurd (List.mem_singleton.1 ha) hne

theorem child_new (h : s.Walked root nodes waiting) (ha : a ∈ waiting) (hc : c ∈ s.children a) :
    c ∉ nodes := by
  intro hm
  rw [s.mem_children] at hc
  -- a child that was met is the root, which is above its parent, or its parent was taken up
  by_cases hroot : c = root
  · subst hroot
    exact s.acyclic c (above_iff.2 ⟨a, hc, h.below a (h.waiting_met a ha)⟩)
  · obtain ⟨b, -, hb, hp⟩ := h.parent_taken c hm hroot
    rw [hc] at hp
    cases hp
    exact hb ha

theorem distinct_append (h : s.Walked root nodes waiting) (ha : a ∈ waiting) :
    (nodes ++ s.children a).Nodup :=
  List.nodup_append'.2 ⟨h.distinct, s.nodup a, fun _ hn hc => h.child_new ha hc hn⟩

/-- Among the nodes met before, the same wait as before. -/
theorem waits_iff (h : s.Walked root nodes (a :: waiting)) {b : NodeId} (hb : b ∈ nodes) :
    b ∈ (s.children a).reverse ++ waiting ↔ b ∈ waiting := by
  rw [List.mem_append, List.mem_reverse]
  exact or_iff_right fun hc => h.child_new List.mem_cons_self hc hb

/-- Taking up a waiting node: its children are met, and wait from now on. -/
theorem step (h : s.Walked root nodes (a :: waiting)) :
    s.Walked root (nodes ++ s.children a) ((s.children a).reverse ++ waiting) := by
  obtain ⟨haw, hwd⟩ := List.nodup_cons.1 h.waiting_distinct
  have ha : a ∈ nodes := h.waiting_met a List.mem_cons_self
  have hmet : ∀ b ∈ waiting, b ∈ nodes := fun b hb => h.waiting_met b (List.mem_cons_of_mem _ hb)
  have htaken : ∀ b ∈ nodes, b ∉ a :: waiting → b ∉ (s.children a).reverse ++ waiting := by
    intro b hb hw
    rw [h.waits_iff hb]
    exact fun hm => hw (List.mem_cons_of_mem _ hm)
  constructor
  · rw [List.head?_append, h.root_first]
    rfl
  · intro b hb
    rcases List.mem_append.1 hb with hb | hb
    · exact h.below b hb
    · exact .tail (h.below a ha) (s.mem_children.1 hb)
  · exact h.distinct_append List.mem_cons_self
  · intro b hb
    rcases List.mem_append.1 hb with hb | hb
    · exact List.mem_append_right _ (List.mem_reverse.1 hb)
    · exact List.mem_append_left _ (hmet b hb)
  · refine List.nodup_append'.2 ⟨List.nodup_reverse.2 (s.nodup a), hwd, fun b hb hw => ?_⟩
    exact h.child_new List.mem_cons_self (List.mem_reverse.1 hb) (hmet b hw)
  · intro b hb hw c hc
    by_cases hba : b = a
    · exact List.mem_append_right _ (hba ▸ hc)
    · have hbn : b ∈ nodes := (List.mem_append.1 hb).resolve_right fun hm =>
        hw (List.mem_append_left _ (List.mem_reverse.2 hm))
      rw [h.waits_iff hbn] at hw
      refine List.mem_append_left _ (h.children_met b hbn ?_ c hc)
      rw [List.mem_cons, not_or]
      exact ⟨hba, hw⟩
  · intro b hb hroot
    rcases List.mem_append.1 hb with hb | hb
    · obtain ⟨d, hd, hdw, hp⟩ := h.parent_taken b hb hroot
      exact ⟨d, List.mem_append_left _ hd, htaken d hd hdw, hp⟩
    · refine ⟨a, List.mem_append_left _ ha, ?_, s.mem_children.1 hb⟩
      rwa [h.waits_iff ha]

end Layout.Walked

namespace Forest

/-- The walk has met `nodes`: `g`, with layout `t`, is `f` with copies of them, and the copies of those
`waiting` have no children yet. -/
structure Copied (f : Forest) (s : Layout) (root : NodeId) (nodes waiting : List NodeId) (g : Forest)
    (t : Layout) : Prop where
  walked : s.Walked root nodes waiting
  realizes : g.Realizes t
  extended : f.ExtendedBy nodes g
  kept : ∀ x, f.Has x → t.children x = s.children x
  childless : ∀ a ∈ waiting, t.children (f.copyOf nodes a) = []
  finished : ∀ a ∈ nodes, a ∉ waiting →
    t.children (f.copyOf nodes a) = (s.children a).map (f.copyOf nodes)

theorem copied_root (h : f.Realizes s) (hn : f.node root = .ok n) :
    f.Copied s root [root] [root] (f.push n.detachedCopy) s where
  walked := .start s root
  realizes := h.push rfl
  extended := extendedBy_push hn
  kept _ _ := rfl
  childless a _ := (h.alone (f.not_has_copyOf _ a)).2
  finished _ ha hw := absurd ha hw

namespace Copied

theorem has_copyOf (h : f.Copied s root nodes waiting g t) (ha : a ∈ nodes) : g.Has (f.copyOf nodes a) := by
  rw [Has, h.extended.size, copyOf]
  exact Nat.add_lt_add_left (List.idxOf_lt_length_of_mem ha) _

/-- Taking up a waiting node: its copy gets the copies of its children. -/
theorem step (h : f.Copied s root nodes (a :: waiting) g t) (hf : f.Realizes s) (hg : g'.Realizes t')
    (he : g.ExtendedBy (s.children a) g')
    (ht : ∀ q, t'.children q = if q = f.copyOf nodes a
      then t.children (f.copyOf nodes a) ++ g.nextIds (s.children a).length else t.children q) :
    f.Copied s root (nodes ++ s.children a) ((s.children a).reverse ++ waiting) g' t' := by
  have ha : a ∈ nodes := h.walked.waiting_met a List.mem_cons_self
  have hids := map_copyOf h.extended.size (h.walked.distinct_append List.mem_cons_self)
  have hother : ∀ {b}, b ∈ nodes → b ≠ a →
      t'.children (f.copyOf (nodes ++ s.children a) b) = t.children (f.copyOf nodes b) := by
    intro b hb hba
    have hne : f.copyOf nodes b ≠ f.copyOf nodes a := fun e => hba (copyOf_inj hb e)
    rw [copyOf_append hb, ht, if_neg hne]
  refine ⟨h.walked.step, hg, h.extended.append he fun c hc => hf.has_child hc, ?_, ?_, ?_⟩
  · intro x hx
    have hne : x ≠ f.copyOf nodes a := fun e => f.not_has_copyOf nodes a (e ▸ hx)
    rw [ht, if_neg hne, h.kept x hx]
  · intro b hb
    rcases List.mem_append.1 hb with hb | hb
    · -- the copy of a child is a new node
      have hm : f.copyOf (nodes ++ s.children a) b ∈ g.nextIds (s.children a).length :=
        hids ▸ List.mem_map_of_mem (List.mem_reverse.1 hb)
      have hgone : ¬ g.Has (f.copyOf (nodes ++ s.children a) b) := Nat.not_lt.2 (mem_nextIds.1 hm).1
      have hne : f.copyOf (nodes ++ s.children a) b ≠ f.copyOf nodes a := fun e =>
        hgone (e ▸ h.has_copyOf ha)
      rw [ht, if_neg hne, (h.realizes.alone hgone).2]
    · have hba : b ≠ a := fun e => (List.nodup_cons.1 h.walked.waiting_distinct).1 (e ▸ hb)
      have hw : b ∈ a :: waiting := List.mem_cons_of_mem _ hb
      rw [hother (h.walked.waiting_met b hw) hba, h.childless b hw]
  · intro b hb hw
    have hbn : b ∈ nodes := (List.mem_append.1 hb).resolve_right fun hm =>
      hw (List.mem_append_left _ (List.mem_reverse.2 hm))
    rw [h.walked.waits_iff hbn] at hw
    by_cases hba : b = a
    · subst hba
      rw [copyOf_append ha, ht, if_pos rfl, h.childless b List.mem_cons_self, List.nil_append, hids]
    · have hnw : b ∉ a :: waiting := by
        rw [List.mem_cons, not_or]
        exact ⟨hba, hw⟩
      rw [hother hbn hba, h.finished b hbn hnw]
      exact List.map_congr_left fun c hc =>
        (copyOf_append (h.walked.children_met b hbn hnw c hc) _).symm

/-- Under a copy only copies are listed, so the old nodes keep their parents. -/
theorem parent_kept (h : f.Copied s root nodes [] g t) (hf : f.Realizes s) (hx : f.Has x) :
    t.parent x = s.parent x := by
  refine Option.ext fun q => ?_
  rw [← t.mem_children, ← s.mem_children]
  by_cases hq : f.Has q
  · rw [h.kept q hq]
  · refine iff_of_false (fun hm => ?_) fun hm => ?_
    · have hlt : q.index < g.size := (h.realizes.has (t.mem_children.1 hm)).1
      obtain ⟨a, ha, rfl⟩ := exists_copyOf h.walked.distinct hq (h.extended.size ▸ hlt)
      rw [h.finished a ha List.not_mem_nil, List.mem_map] at hm
      obtain ⟨c, -, rfl⟩ := hm
      exact f.not_has_copyOf nodes c hx
    · rw [(hf.alone hq).2] at hm
      cases hm

/-- A copy changes no tree, whatever is named. -/
theorem spares (h : f.Copied s root nodes [] g t) (hf : f.Realizes s) (names : List NodeId) :
    f.Spares s names g t where
  realizes := h.realizes
  agree hr htop _ :=
    ⟨htop, (h.parent_kept hf hr).trans htop, fun hx => h.kept _ (hf.has_of_covers hr hx)⟩
  contents hx _ := h.extended.kept _ hx

end Copied

/-- The pairs of node and copy that a walk has yet to take up. -/
def withCopies (f : Forest) (nodes waiting : List NodeId) : List (NodeId × NodeId) :=
  waiting.map fun a => (a, f.copyOf nodes a)

theorem withCopies_append (hg : g.size = f.size + ns.length) (hd : (ns ++ cs).Nodup)
    (hw : ∀ a ∈ waiting, a ∈ ns) :
    (cs.zip (g.nextIds cs.length)).reverse ++ f.withCopies ns waiting =
      f.withCopies (ns ++ cs) (cs.reverse ++ waiting) := by
  have hold : f.withCopies ns waiting = f.withCopies (ns ++ cs) waiting :=
    List.map_congr_left fun a ha => by rw [copyOf_append (hw a ha)]
  rw [hold, ← map_copyOf hg hd, ← List.map_prod_left_eq_zip]
  simp [withCopies]

end Forest

namespace Edit

open Forest

/-- One step takes up a waiting node, whose children wait from then on with their copies. -/
theorem copyPending_succ (hf : f.Realizes s) (hroot : f.Has root)
    (h : f.Copied s root nodes (a :: waiting) g t) :
    ∃ g' t', f.Copied s root (nodes ++ s.children a) ((s.children a).reverse ++ waiting) g' t' ∧
      ∀ steps, copyPending (steps + 1) (f.withCopies nodes (a :: waiting)) g =
        copyPending steps
          (f.withCopies (nodes ++ s.children a) ((s.children a).reverse ++ waiting)) g' := by
  have ha : a ∈ nodes := h.walked.waiting_met a List.mem_cons_self
  have hhas : f.Has a := hf.has_of_covers hroot (h.walked.below a ha)
  -- the node is an old one, and copies are linked under copies only
  have hchildren : g.children a = .ok (s.children a) := by
    rw [h.realizes.children_eq (h.extended.has hhas), h.kept a hhas]
  obtain ⟨next, g', hcopies, rfl, he, t', ht', hkids⟩ := copyChildren_succeeds h.realizes (h.has_copyOf ha)
    (fun c hc => h.extended.has (hf.has_child hc)) (f.withCopies nodes waiting)
  have hnext := withCopies_append h.extended.size (h.walked.distinct_append List.mem_cons_self)
    fun b hb => h.walked.waiting_met b (List.mem_cons_of_mem _ hb)
  refine ⟨g', t', h.step hf ht' he hkids, fun steps => ?_⟩
  rw [← hnext]
  simp only [withCopies, List.map_cons, copyPending, ask, hchildren, bind, EStateM.bind] at hcopies ⊢
  rw [hcopies]

/-- Each step takes up a node, and the tree has no more nodes than the forest had. -/
theorem copyPending_succeeds (hf : f.Realizes s) (hroot : f.Has root) (steps : Nat)
    (h : f.Copied s root nodes waiting g t) (hs : f.size + waiting.length ≤ steps + nodes.length) :
    (copyPending steps (f.withCopies nodes waiting)).Succeeds g fun _ g' =>
      ∃ nodes t', f.Copied s root nodes [] g' t' := by
  induction steps generalizing nodes waiting g t with
  | zero =>
    cases waiting with
    | nil => exact succeeds_pure ⟨nodes, t, h⟩
    | cons a waiting =>
      -- with no step left the walk would have met more nodes than there are
      have hl := length_le_size h.walked.distinct fun a ha => hf.has_of_covers hroot (h.walked.below a ha)
      rw [List.length_cons] at hs
      omega
  | succ steps ih =>
    cases waiting with
    | nil => exact succeeds_pure ⟨nodes, t, h⟩
    | cons a waiting =>
      obtain ⟨g', t', h', hstep⟩ := copyPending_succ hf hroot h
      rw [List.length_cons] at hs
      unfold Succeeds
      rw [hstep]
      refine ih h' ?_
      simp only [List.length_append, List.length_reverse]
      omega

/-- A copied tree: its nodes are those below the root, met in some order. -/
theorem copyTree_succeeds (hf : f.Realizes s) (hroot : f.Has root) :
    (copyTree root).Succeeds f fun copy g =>
      copy = f.nextId ∧ ∃ nodes t, f.Copied s root nodes [] g t := by
  obtain ⟨n, hn⟩ := has_iff_node.1 hroot
  refine succeeds_ask rfl ?_
  refine (copyNode_succeeds hf hn).bind fun copy g hg => ?_
  obtain ⟨rfl, rfl, -⟩ := hg
  have hfirst : f.withCopies [root] [root] = [(root, f.nextId)] := by
    simp [withCopies, copyOf, nextId]
  have hrest := copyPending_succeeds hf hroot f.size (copied_root hf hn) (by simp)
  rw [hfirst] at hrest
  exact hrest.bind fun _ g hg => succeeds_pure ⟨rfl, hg⟩

theorem copyTree_leads (h : f.Realizes s) (root : NodeId) (names : List NodeId) :
    (copyTree root).Leads f fun _ g => ∃ t, f.Spares s names g t := by
  by_cases hroot : f.Has root
  · refine ((copyTree_succeeds h hroot).mono fun _ g hg => ?_).leads
    obtain ⟨-, nodes, t, hg⟩ := hg
    exact ⟨t, hg.spares h names⟩
  · have hfirst : (copyNode root).Leads f fun _ _ => False :=
      leads_ask (fun _ => ordinary_of_node) fun _ hn => absurd (Has.of_node hn) hroot
    exact leads_ask (fun _ he => nomatch he) fun _ _ => hfirst.bind fun _ _ hfalse => hfalse.elim

end Edit

end SyntaxForest
