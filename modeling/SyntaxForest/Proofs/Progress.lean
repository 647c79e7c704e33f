import SyntaxForest.Proofs.Equivalence
import SyntaxForest.Proofs.Refusals
import SyntaxForest.Proofs.Worklists
import SyntaxForest.SourceMap
/-!
# Every loop ends

In a reachable forest no operation on its nodes is cut off for want of steps or comes to a handle from
outside. The walks along links take at most as many steps as there are nodes. The lists of pending work are
worked off in a number of steps that the trees alone decide: a copy takes up each node of its tree once,
although the forest grows while it runs, and a comparison ends with the smaller tree.
-/

namespace SyntaxForest

open Edit

variable {α : Type} {s s' : Layout} {f g : Forest} {a b id root : NodeId} {n : Node} {t u : Tree}
  {nodes waiting all : List NodeId}

/-- A query gives an answer. -/
def Answers (result : Except Fault α) : Prop := ∃ a, result = .ok a

/-- A query gives an answer or refuses. -/
def AnswersOrRefuses (result : Except Fault α) : Prop := ∀ e, result = .error e → e.Refusal

theorem answers_ok (a : α) : Answers (.ok a) := ⟨a, rfl⟩

theorem Edit.Responds.answer {edit : Edit α} (h : edit.Responds f) : AnswersOrRefuses (edit.answer f) :=
  fun e he => h e _ (answer_eq_error_iff.1 he)

/-! ## Steps of a copy -/

namespace Layout.Walked

theorem length_le (h : s.Walked root nodes waiting) (hall : ∀ x, x ∈ all ↔ s.Covers root x) :
    nodes.length ≤ all.length := by
  have hsub : nodes ⊆ all := fun x hx => (hall x).2 (h.below x hx)
  exact (h.distinct.subperm hsub).length_le

theorem length_eq (h : s.Walked root nodes []) (hd : all.Nodup) (hall : ∀ x, x ∈ all ↔ s.Covers root x) :
    nodes.length = all.length := by
  have hsub : all ⊆ nodes := fun x hx => h.mem_iff.2 ((hall x).1 hx)
  exact Nat.le_antisymm (h.length_le hall) (hd.subperm hsub).length_le

end Layout.Walked

namespace Edit

/-- The copying loop takes up each node of the tree once: it ends when so many steps are allowed, and is cut
off when fewer are. The nodes that it allocates itself are never taken up. -/
theorem copyPending_answer (hf : f.Realizes s) (hroot : f.Has root) (hd : all.Nodup)
    (hall : ∀ x, x ∈ all ↔ s.Covers root x) (h : f.Copied s root nodes waiting g s') (steps : Nat) :
    (copyPending steps (f.withCopies nodes waiting)).answer g =
      if all.length + waiting.length ≤ steps + nodes.length then .ok () else .error .endless := by
  induction steps generalizing nodes waiting g s' with
  | zero =>
    cases waiting with
    | nil =>
      have hlength := h.walked.length_eq hd hall
      simp [hlength, Forest.withCopies, copyPending, answer, pure, EStateM.pure]
    | cons a waiting =>
      have hlength := h.walked.length_le hall
      have hshort : ¬ all.length + (waiting.length + 1) ≤ 0 + nodes.length := by omega
      rw [List.length_cons, if_neg hshort]
      rfl
  | succ steps ih =>
    cases waiting with
    | nil =>
      have hlength := h.walked.length_eq hd hall
      have henough : all.length + ([] : List NodeId).length ≤ steps + 1 + nodes.length := by simp; omega
      rw [if_pos henough]
      rfl
    | cons a waiting =>
      obtain ⟨g', s'', h', hstep⟩ := copyPending_succ hf hroot h
      rw [answer, hstep, ← answer, ih h']
      refine if_congr ?_ rfl rfl
      simp only [List.length_append, List.length_reverse, List.length_cons]
      omega

end Edit

namespace Forest

/-! ## Steps of queries -/

theorem answers_read (hid : f.Has id) (view : Node → α) :
    Answers (return view (← f.node id) : Except Fault α) := by
  obtain ⟨n, hn⟩ := has_iff_node.1 hid
  exact ⟨view n, read_eq_ok_iff.2 ⟨n, hn, rfl⟩⟩

/-- A walk along links gives no more nodes than it was allowed steps. -/
theorem length_follow_le {link : Node → Option NodeId} {steps : Nat} {start : Option NodeId}
    {met ids : List NodeId} (h : f.follow link steps start met = .ok ids) :
    ids.length ≤ steps + met.length := by
  refine follow_induct h ?_ ?_
  · intro steps met hids
    rw [hids, List.length_reverse]
    omega
  · intro steps id n met _ ih
    rw [List.length_cons] at ih
    omega

namespace Realizes

theorem listings (h : f.Realizes s) (hid : f.Has id) :
    (∃ ids, f.children id = .ok ids ∧ ids.length ≤ f.size) ∧
      ∃ ids, f.ancestors id = .ok ids ∧ ids.length ≤ f.size := by
  constructor
  · exact ⟨_, h.children_eq hid, length_le_size (s.nodup id) fun c hc => h.has_child hc⟩
  · obtain ⟨up, hup, -⟩ := h.ancestors_eq hid
    refine ⟨up, hup, ?_⟩
    unfold ancestors at hup
    rw [h.parent_eq hid] at hup
    exact length_follow_le hup

theorem answers_among_siblings (h : f.Realizes s) (hid : f.Has id) :
    Answers (f.previousSibling id) ∧ Answers (f.indexOfChild id) := by
  unfold previousSibling indexOfChild
  rw [h.parent_eq hid]
  cases hp : s.parent id with
  | none => exact ⟨answers_ok _, answers_ok _⟩
  | some p =>
    simp only [h.children_eq (h.has hp).1, bind, Except.bind]
    exact ⟨answers_ok _, answers_ok _⟩

theorem answers_climb (h : f.Realizes s) (root : NodeId) (hid : f.Has id) :
    Answers (f.climb root f.size id) ∧ Answers (f.successor root id) := by
  obtain ⟨o, ho⟩ := h.climb_ends root hid
  exact ⟨⟨o, ho⟩, _, h.successor_eq hid ho⟩

theorem answers_traversal (h : f.Realizes s) (hroot : f.Has root) :
    Answers (f.preorder root) ∧ Answers (f.countNodes root) ∧ Answers (f.histogram root) := by
  obtain ⟨t, rfl, ht⟩ := h.exists_tree hroot
  obtain ⟨ks, hks⟩ := exists_haveKinds fun x hx =>
    h.has_of_covers hroot ((h.mem_preorder_iff ht).1 hx)
  obtain ⟨hcount, -, hhistogram⟩ := h.counts_eq ht hks
  exact ⟨⟨_, h.preorder_eq ht hroot⟩, ⟨_, hcount⟩, _, hhistogram⟩

end Realizes

theorem responds_text (hid : f.Has id) : AnswersOrRefuses (f.text id) := by
  intro e he
  obtain ⟨n, hn⟩ := has_iff_node.1 hid
  simp only [text, hn, bind, Except.bind] at he
  split at he <;> cases he
  trivial

theorem responds_number (hid : f.Has id) : AnswersOrRefuses (f.number id) := by
  intro e he
  obtain ⟨n, hn⟩ := has_iff_node.1 hid
  simp only [number, hn, bind, Except.bind] at he
  split at he <;> cases he
  trivial

theorem responds_record (recorder : Recorder) (hid : f.Has id) (start stop : FilePosition) (fault : Fault) :
    (recorder.record f id start stop).1 ≠ .error (.node fault) := by
  obtain ⟨n, hn⟩ := has_iff_node.1 hid
  unfold Recorder.record
  simp only [hn]
  split
  · simp
  · split
    · simp
    · split
      · simp
      · split <;> simp

/-! ## Every operation -/

/-- No operation on nodes of the forest is cut off, and none comes to a handle from outside. -/
structure Responsive (f : Forest) : Prop where
  /-- What is read off one record. -/
  records : ∀ {id}, f.Has id →
    Answers (f.kind id) ∧ Answers (f.payload id) ∧ Answers (f.position id) ∧
      Answers (f.properties id) ∧ Answers (f.typeText id) ∧ Answers (f.parent id) ∧
      Answers (f.firstChild id) ∧ Answers (f.lastChild id) ∧ Answers (f.nextSibling id) ∧
      Answers (f.hasChildren id) ∧ Answers (f.hasOneChild id) ∧ Answers (f.isDetached id) ∧
      AnswersOrRefuses (f.text id) ∧ AnswersOrRefuses (f.number id)
  /-- Children and ancestors are listed within as many steps as there are nodes. -/
  listings : ∀ {id}, f.Has id →
    (∃ ids, f.children id = .ok ids ∧ ids.length ≤ f.size) ∧
      ∃ ids, f.ancestors id = .ok ids ∧ ids.length ≤ f.size
  places : ∀ {id}, f.Has id →
    Answers (f.childCount id) ∧ (∀ index, Answers (f.childAt id index)) ∧
      Answers (f.previousSibling id) ∧ Answers (f.indexOfChild id) ∧ Answers (f.rootOf id)
  relations : ∀ {a b}, f.Has a → f.Has b →
    Answers (f.isAncestorOf a b) ∧ Answers (f.wouldCreateCycle a b) ∧ Answers (f.samePayload a b) ∧
      Answers (f.sameProperties a b)
  climbs : ∀ {root id}, f.Has root → f.Has id →
    Answers (f.climb root f.size id) ∧ Answers (f.successor root id)
  traversals : ∀ {root}, f.Has root →
    Answers (f.preorder root) ∧ Answers (f.countNodes root) ∧ Answers (f.histogram root)
  /-- A walk takes two calls from its list for each node at most, and stops with a fault only when its
  visitor does, at a node of the tree. -/
  walks : ∀ {root count} {σ : Type} (visitor : Visitor σ) (state : σ), f.Has root →
    f.countNodes root = .ok count →
    (∀ steps, 2 * count ≤ steps →
        f.walkPending visitor steps [.enter root] state = f.walk root visitor state) ∧
      ∀ e, f.walk root visitor state = .error e → ∃ id state', f.Within root id ∧
        (visitor.enter f id state' = .error e ∨ visitor.leave f id state' = .error e)
  /-- Rendering takes each node of the tree from its list once. -/
  renderings : ∀ {root count} (options : RenderOptions), f.Has root → f.countNodes root = .ok count →
    Answers (f.renderNode options root) ∧ Answers (f.renderTree options root) ∧
      ∀ steps, count ≤ steps →
        f.renderPending options steps [(root, 0)] "" = f.renderTree options root
  /-- A comparison takes a pair from its list for each node of the smaller tree at most. -/
  comparisons : ∀ {a b m n}, f.Has a → f.Has b → f.countNodes a = .ok m → f.countNodes b = .ok n →
    Answers (f.equivalent a b) ∧
      ∀ steps, min m n ≤ steps → f.comparePending steps [(a, b)] = f.equivalent a b
  /-- A copy takes exactly as many pairs from its list as the tree has nodes. -/
  copies : ∀ {root count}, f.Has root → f.countNodes root = .ok count →
    Answers ((copyTree root).answer f) ∧ (copyNode root).answer f = .ok f.nextId ∧
      ∀ steps, (copyPending steps [(root, f.nextId)]).answer ((copyNode root).after f) =
        if count ≤ steps then .ok () else .error .endless
  recordings : ∀ {id} (recorder : Recorder) (start stop : FilePosition) (fault : Fault), f.Has id →
    (recorder.record f id start stop).1 ≠ .error (.node fault)
  commands : ∀ command : Command, (∀ id ∈ command.targets, f.Has id) →
    AnswersOrRefuses (command.run.answer f)

namespace Realizes

theorem walks (h : f.Realizes s) {count : Nat} {σ : Type} (visitor : Visitor σ) (state : σ)
    (hroot : f.Has root) (hcount : f.countNodes root = .ok count) :
    (∀ steps, 2 * count ≤ steps →
        f.walkPending visitor steps [.enter root] state = f.walk root visitor state) ∧
      ∀ e, f.walk root visitor state = .error e → ∃ id state', f.Within root id ∧
        (visitor.enter f id state' = .error e ∨ visitor.leave f id state' = .error e) := by
  obtain ⟨t, rfl, ht⟩ := h.exists_tree hroot
  rw [h.countNodes_eq ht] at hcount
  cases hcount
  rw [h.walk_eq ht]
  refine ⟨fun steps hs => walkPending_tree ht hs state, fun e he => ?_⟩
  obtain ⟨id, hid, state', hfault⟩ := Tree.visit_error he
  exact ⟨id, state', h.within_iff.2 ((h.mem_preorder_iff ht).1 hid), hfault⟩

theorem renderings (h : f.Realizes s) {count : Nat} (options : RenderOptions) (hroot : f.Has root)
    (hcount : f.countNodes root = .ok count) :
    Answers (f.renderNode options root) ∧ Answers (f.renderTree options root) ∧
      ∀ steps, count ≤ steps →
        f.renderPending options steps [(root, 0)] "" = f.renderTree options root := by
  obtain ⟨t, rfl, ht⟩ := h.exists_tree hroot
  rw [h.countNodes_eq ht] at hcount
  cases hcount
  obtain ⟨text, htext⟩ := h.render_ok options ht 0
  rw [h.renderTree_eq options ht, htext]
  refine ⟨h.renderNode_ok options hroot, answers_ok _, fun steps hs => ?_⟩
  rw [renderPending_tree options ht hs, htext]
  simp [bind, Except.bind, pure, Except.pure]

theorem comparisons (h : f.Realizes s) {m n : Nat} (ha : f.Has a) (hb : f.Has b)
    (hm : f.countNodes a = .ok m) (hn : f.countNodes b = .ok n) :
    Answers (f.equivalent a b) ∧
      ∀ steps, min m n ≤ steps → f.comparePending steps [(a, b)] = f.equivalent a b := by
  obtain ⟨t, rfl, ht⟩ := h.exists_tree ha
  obtain ⟨u, rfl, hu⟩ := h.exists_tree hb
  rw [h.countNodes_eq ht] at hm
  rw [h.countNodes_eq hu] at hn
  cases hm
  cases hn
  rw [h.equivalent_eq ht hu]
  exact ⟨answers_ok _, fun steps hs => comparePending_pair ht hu hs⟩

theorem copies (h : f.Realizes s) {count : Nat} (hroot : f.Has root)
    (hcount : f.countNodes root = .ok count) :
    Answers ((copyTree root).answer f) ∧ (copyNode root).answer f = .ok f.nextId ∧
      ∀ steps, (copyPending steps [(root, f.nextId)]).answer ((copyNode root).after f) =
        if count ≤ steps then .ok () else .error .endless := by
  obtain ⟨copy, hcopy, -⟩ := (copyTree_succeeds h hroot).answer_after
  obtain ⟨n, hn⟩ := has_iff_node.1 hroot
  obtain ⟨first, hfirst, rfl, hafter, -⟩ := (copyNode_succeeds h hn).answer_after
  refine ⟨⟨copy, hcopy⟩, hfirst, fun steps => ?_⟩
  obtain ⟨t, rfl, ht⟩ := h.exists_tree hroot
  rw [h.countNodes_eq ht] at hcount
  cases hcount
  have hpending : f.withCopies [t.root] [t.root] = [(t.root, f.nextId)] := by
    simp [withCopies, copyOf, nextId]
  have hsteps := copyPending_answer h hroot (h.nodup_preorder ht) (fun x => h.mem_preorder_iff ht)
    (copied_root h hn) steps
  simpa [hpending, hafter] using hsteps

theorem responsive (h : f.Realizes s) : f.Responsive where
  records hid := by
    refine ⟨answers_read hid _, answers_read hid _, answers_read hid _, answers_read hid _,
      answers_read hid _, answers_read hid _, answers_read hid _, answers_read hid _, answers_read hid _,
      answers_read hid _, answers_read hid _, answers_read hid _, responds_text hid, responds_number hid⟩
  listings hid := h.listings hid
  places hid := by
    obtain ⟨root, hroot, -⟩ := h.exists_top hid
    obtain ⟨hprevious, hindex⟩ := h.answers_among_siblings hid
    unfold childCount childAt
    rw [h.children_eq hid]
    exact ⟨answers_ok _, fun _ => answers_ok _, hprevious, hindex, root, hroot⟩
  relations ha hb := by
    obtain ⟨m, hm⟩ := has_iff_node.1 ha
    obtain ⟨n, hn⟩ := has_iff_node.1 hb
    refine ⟨⟨_, h.isAncestorOf_eq hb _⟩, ⟨_, h.wouldCreateCycle_eq ha _⟩, ?_, ?_⟩
    · simp [samePayload, hm, hn, Answers, bind, Except.bind, pure, Except.pure]
    · simp [sameProperties, hm, hn, Answers, bind, Except.bind, pure, Except.pure]
  climbs _ hid := h.answers_climb _ hid
  traversals hroot := h.answers_traversal hroot
  walks visitor state hroot hcount := h.walks visitor state hroot hcount
  renderings options hroot hcount := h.renderings options hroot hcount
  comparisons ha hb hm hn := h.comparisons ha hb hm hn
  copies hroot hcount := h.copies hroot hcount
  recordings recorder start stop fault hid := responds_record recorder hid start stop fault
  commands command htargets := (command.run_responds h htargets).answer

end Realizes

end Forest

/-- Every operation on nodes of a reachable forest ends inside the forest. -/
theorem reachable_responsive (h : f.Reachable) : f.Responsive := by
  obtain ⟨s, hs⟩ := h.realizes
  exact hs.responsive

-- five pairs are taken up to copy the block, and four do not suffice
theorem sampleForest_responsive :
    sampleForest.Responsive ∧ sampleForest.countNodes ⟨4⟩ = .ok 5 ∧
      (copyPending 4 [(⟨4⟩, ⟨11⟩)]).answer ((copyNode ⟨4⟩).after sampleForest) = .error .endless ∧
      (copyPending 5 [(⟨4⟩, ⟨11⟩)]).answer ((copyNode ⟨4⟩).after sampleForest) = .ok () ∧
      sampleForest.comparePending 5 [(⟨4⟩, ⟨6⟩)] = .ok false ∧
      (Command.replaceWith ⟨5⟩ ⟨6⟩).run.answer sampleForest = .error (.link ⟨5⟩ .replaceWith .noParent) :=
  ⟨reachable_responsive reachable_sampleForest, by decide +kernel, by decide +kernel, by decide +kernel,
    by decide +kernel, by decide +kernel⟩

end SyntaxForest
