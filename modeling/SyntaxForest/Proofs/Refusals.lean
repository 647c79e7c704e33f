import SyntaxForest.Proofs.Runs
/-!
# Refusals

A command on nodes of a forest with a layout gives an answer, or refuses because of what its arguments are.
It follows links only, and these stay inside the forest, so it never comes to a handle from outside; and no
walk along links is cut off.
-/

namespace SyntaxForest

open Edit

variable {α β : Type} {s : Layout} {f : Forest} {e : Fault} {p c id : NodeId} {cs seen : List NodeId}
  {op : Operation}

/-- The faults that say what is wrong with the arguments. The other two are a handle from outside the
forest, and a walk that does not end. -/
def Fault.Refusal : Fault → Prop
  | .outOfRange .. | .endless => False
  | _ => True

namespace Edit

/-- The edit gives an answer or refuses. -/
def Responds (edit : Edit α) (f : Forest) : Prop := ∀ e g, edit f = .error e g → e.Refusal

theorem Succeeds.responds {Q : α → Forest → Prop} {edit : Edit α} (h : edit.Succeeds f Q) :
    edit.Responds f := by
  intro e g he
  obtain ⟨a, g', ha, -⟩ := h
  rw [ha] at he
  cases he

theorem responds_pure (a : α) : (pure a : Edit α).Responds f := by
  intro e g he
  cases he

theorem responds_throw (h : e.Refusal) : (throw e : Edit α).Responds f := by
  intro e' g he
  cases he
  exact h

theorem Responds.bind {edit : Edit β} {k : β → Edit α} (h : edit.Responds f)
    (hk : ∀ b g, edit f = .ok b g → (k b).Responds g) : (edit >>= k).Responds f := by
  intro e g he
  rcases bind_eq_error.1 he with he | ⟨b, g', hb, he⟩
  · exact h e g he
  · exact hk b g' hb e g he

theorem Responds.map {edit : Edit β} {view : β → α} (h : edit.Responds f) : (view <$> edit).Responds f := by
  have hb := h.bind fun b g _ => responds_pure (f := g) (view b)
  simpa using hb

theorem responds_ask {query : Forest → Except Fault β} {k : β → Edit α}
    (he : ∀ e, query f = .error e → e.Refusal) (hk : ∀ b, query f = .ok b → (k b).Responds f) :
    (ask query >>= k).Responds f := by
  intro e g h
  rcases bind_eq_error.1 h with hq | ⟨b, g', hb, hrest⟩
  · exact he e (ask_eq_error.1 hq).1
  · obtain ⟨hb, rfl⟩ := ask_eq_ok.1 hb
    exact hk b hb e g hrest

/-- Reading a node of the forest gives an answer. -/
theorem responds_read {view : Node → β} {k : β → Edit α} (hid : f.Has id)
    (hk : ∀ n, f.node id = .ok n → (k (view n)).Responds f) :
    (ask (fun f => return view (← f.node id)) >>= k).Responds f := by
  refine responds_ask (fun e he => absurd hid (Forest.read_eq_error_iff.1 he).1) fun b hb => ?_
  obtain ⟨n, hn, rfl⟩ := Forest.read_eq_ok_iff.1 hb
  exact hk n hn

theorem responds_parent {k : Option NodeId → Edit α} {o : Option NodeId} (h : f.Realizes s)
    (hid : f.Has id) (ho : s.parent id = o) (hk : (k o).Responds f) :
    (ask (·.parent id) >>= k).Responds f := by
  refine responds_read hid fun n hn => ?_
  rwa [(h.links hn).parent, ho]

/-- An edit that begins with a check responds if it does so when the check is passed. -/
theorem responds_checked {query : Forest → Except Fault β} {k : β → Edit α}
    (he : ∀ e, query f = .error e → e.Refusal)
    (hk : ∀ b, query f = .ok b → (ask query >>= k).Responds f) : (ask query >>= k).Responds f := by
  cases hq : query f with
  | ok b => exact hk b hq
  | error e => exact responds_ask he fun b hb => by simp [hq] at hb

end Edit

/-! ## Checks -/

namespace Forest

theorem Realizes.checkAttachable_refusal (h : f.Realizes s) (hp : f.Has p) (hc : f.Has c)
    (he : f.checkAttachable op p c = .error e) : e.Refusal := by
  rcases h.checkAttachable_error_cases he with ⟨hout, -⟩ | ⟨cause, -, rfl⟩
  · exact absurd ⟨hp, hc⟩ hout
  · trivial

theorem Realizes.checkAllAttachable_refusal (h : f.Realizes s) (hp : f.Has p) (hcs : ∀ c ∈ cs, f.Has c)
    (he : f.checkAllAttachable op p seen cs = .error e) : e.Refusal := by
  obtain ⟨c, hc, he | rfl⟩ := checkAllAttachable_error_cases he
  · exact h.checkAttachable_refusal hp (hcs c hc) he
  · trivial

theorem checkAllDetached_refusal (hcs : ∀ c ∈ cs, f.Has c)
    (he : f.checkAllDetached op seen cs = .error e) : e.Refusal := by
  obtain ⟨c, hc, he | rfl | rfl⟩ := checkAllDetached_error_cases he
  · exact absurd (hcs c hc) (read_eq_error_iff.1 he).1
  · trivial
  · trivial

end Forest

/-! ## Links -/

namespace Edit

theorem prependChild_responds (h : f.Realizes s) (hp : f.Has p) (hc : f.Has c) :
    (prependChild p c).Responds f := by
  refine responds_checked (fun e => h.checkAttachable_refusal hp hc) fun _ hk => ?_
  obtain ⟨-, hn, hv⟩ := h.checkAttachable_ok hk
  exact (prependChild_succeeds h hp hc (Layout.fits_one rfl hn hv)).responds

theorem appendChild_responds (h : f.Realizes s) (hp : f.Has p) (hc : f.Has c) :
    (appendChild p c).Responds f := by
  refine responds_ask (fun e => h.checkAttachable_refusal hp hc) fun _ hk => ?_
  obtain ⟨-, hn, hv⟩ := h.checkAttachable_ok hk
  exact (linkBack_succeeds h hp hc (Layout.fits_one (List.append_nil _).symm hn hv)).responds

theorem appendChildren_responds (h : f.Realizes s) (hp : f.Has p) (hcs : ∀ c ∈ cs, f.Has c) :
    (appendChildren p cs).Responds f := by
  refine responds_ask (fun e => h.checkAllAttachable_refusal hp hcs) fun _ hk => ?_
  obtain ⟨hfree, -, hd⟩ := Forest.checkAllAttachable_ok_iff.1 hk
  have hfree := fun c hc => h.checkAttachable_ok (hfree c hc)
  have hfit : s.Fits p (s.children p) cs [] :=
    ⟨(List.append_nil _).symm, fun c hc => (hfree c hc).2.1, fun c hc => (hfree c hc).2.2, hd⟩
  exact (linkBacks_succeed h hp hcs hfit).responds

theorem insertAfter_responds {sibling : NodeId} (h : f.Realizes s) (hc : f.Has c) (hs : f.Has sibling) :
    (insertAfter c sibling).Responds f := by
  cases hparent : s.parent sibling with
  | none => exact responds_parent h hs hparent (responds_throw trivial)
  | some p =>
    obtain ⟨before, after, hplace⟩ := Layout.exists_place hparent
    by_cases hk : f.checkAttachable .insertAfter p c = .ok ()
    · obtain ⟨-, hn, hv⟩ := h.checkAttachable_ok hk
      exact (insertAfter_succeeds h hc (Layout.fits_one (by simpa using hplace) hn hv)).responds
    · refine responds_parent h hs hparent ?_
      exact responds_ask (fun e => h.checkAttachable_refusal (h.has hparent).1 hc) fun _ hk' => absurd hk' hk

theorem insertBefore_responds {sibling : NodeId} (h : f.Realizes s) (hc : f.Has c) (hs : f.Has sibling) :
    (insertBefore c sibling).Responds f := by
  cases hparent : s.parent sibling with
  | none => exact responds_parent h hs hparent (responds_throw trivial)
  | some p =>
    obtain ⟨before, after, hplace⟩ := Layout.exists_place hparent
    refine responds_parent h hs hparent ?_
    have hprevious := h.previousSibling_eq hplace
    refine responds_ask (fun e he => by simp [hprevious] at he) fun previous hb => ?_
    rw [hprevious] at hb
    cases hb
    cases hlast : before.getLast? with
    | none => exact prependChild_responds h (h.has hparent).1 hc
    | some previous =>
      have hmem : previous ∈ s.children p := by simp [hplace, List.mem_of_getLast? hlast]
      exact insertAfter_responds h hc (h.has_child hmem)

theorem detach_responds (h : f.Realizes s) (hc : f.Has c) : (detach c).Responds f := by
  cases hparent : s.parent c with
  | none => exact responds_parent h hc hparent (responds_throw trivial)
  | some p =>
    obtain ⟨before, after, hplace⟩ := Layout.exists_place hparent
    exact (detach_succeeds h hplace).responds

theorem removeChild_responds (h : f.Realizes s) (p : NodeId) (hc : f.Has c) :
    (removeChild p c).Responds f := by
  by_cases hparent : s.parent c = some p
  · obtain ⟨before, after, hplace⟩ := Layout.exists_place hparent
    exact (removeChild_succeeds h hplace).responds
  · refine responds_parent h hc rfl ?_
    rw [if_neg hparent]
    exact responds_throw trivial

theorem replaceWith_responds {old : NodeId} (h : f.Realizes s) (hold : f.Has old) (hc : f.Has c) :
    (replaceWith old c).Responds f := by
  cases hparent : s.parent old with
  | none => exact responds_parent h hold hparent (responds_throw trivial)
  | some p =>
    obtain ⟨before, after, hplace⟩ := Layout.exists_place hparent
    by_cases hk : f.checkAttachable .replaceWith p c = .ok ()
    · obtain ⟨-, hn, hv⟩ := h.checkAttachable_ok hk
      exact (replaceWith_succeeds h hc (by simpa using hplace) hn hv).responds
    · refine responds_parent h hold hparent ?_
      exact responds_ask (fun e => h.checkAttachable_refusal (h.has hparent).1 hc) fun _ hk' => absurd hk' hk

/-! ## Constructions -/

theorem responds_expect {k : Unit → Edit α} (role : Role) (hid : f.Has id) (hk : (k ()).Responds f) :
    (expect role id >>= k).Responds f := by
  have hexpect : (expect role id).Responds f := by
    refine responds_read hid fun n _ => ?_
    split
    · exact responds_pure ()
    · exact responds_throw trivial
  refine hexpect.bind fun _ g hg => ?_
  rw [((expect_leads f role id).ok hg).1]
  exact hk

theorem responds_expects {k : Unit → Edit α} {roles : List (Role × NodeId)}
    (hroles : ∀ part ∈ roles, f.Has part.2) (hk : (k ()).Responds f) :
    ((roles.forM fun part => expect part.1 part.2) >>= k).Responds f := by
  have hall : (roles.forM fun part => expect part.1 part.2).Responds f := by
    induction roles with
    | nil => exact responds_pure ()
    | cons part roles ih =>
      rw [List.forall_mem_cons] at hroles
      exact responds_expect part.1 hroles.1 (ih hroles.2)
  refine hall.bind fun _ g hg => ?_
  rw [((expects_lead f roles).ok hg).1]
  exact hk

theorem parentOf_responds (h : f.Realizes s) (kind : Kind) (op : Operation) (hcs : ∀ c ∈ cs, f.Has c) :
    (parentOf kind op cs).Responds f := by
  refine responds_checked (fun e => Forest.checkAllDetached_refusal hcs) fun _ hk => ?_
  obtain ⟨-, hp, hd⟩ := h.checkAllDetached_ok_iff.1 hk
  exact (parentOf_succeeds h hcs hp hd kind op).responds

theorem declare_responds {name : NodeId} {value : Option NodeId} (h : f.Realizes s) (hname : f.Has name)
    (hvalue : ∀ v ∈ value, f.Has v) : (declare name value).Responds f := by
  have hnames : ∀ c ∈ [name], f.Has c := by simpa using hname
  refine responds_expect _ hname ?_
  refine responds_ask (fun e => Forest.checkAllDetached_refusal hnames) fun _ _ => ?_
  cases value with
  | none => exact parentOf_responds h _ _ hnames
  | some value =>
    have hvalue : f.Has value := hvalue value rfl
    refine responds_expect _ hvalue ?_
    refine responds_read hname fun n _ => ?_
    split
    · exact responds_throw trivial
    · refine (appendChild_responds h hname hvalue).bind fun _ g hg => ?_
      have hg := (appendChild_leads h name value).ok hg
      exact parentOf_responds (hg.realizes h) _ _ fun c hc => hg.rewritten.has.2 (hnames c hc)

theorem getProp_responds {target : NodeId} (h : f.Realizes s) (htarget : f.Has target)
    (property : String) : (Construction.getProp target property).run.Responds f := by
  refine responds_expect _ htarget ?_
  refine responds_ask (fun e => Forest.checkAllDetached_refusal (by simpa using htarget)) fun _ _ => ?_
  have hnew := allocate_succeeds h (n := { kind := .stringLit, payload := .text property }) rfl
  refine hnew.responds.bind fun text g hg => ?_
  obtain ⟨rfl, rfl, hg⟩ := hnew.leads.ok hg
  refine parentOf_responds hg _ _ ?_
  simp [htarget.push, f.has_push_nextId]

end Edit

/-- A construction from nodes of the forest responds. -/
theorem Construction.run_responds (h : f.Realizes s) (construction : Construction)
    (hparts : ∀ id ∈ construction.parts, f.Has id) : construction.run.Responds f := by
  have hroles : ∀ part ∈ construction.roles, f.Has part.2 := by
    intro part hpart
    apply hparts
    rw [← construction.map_roles]
    exact List.mem_map_of_mem hpart
  have hruns := construction.runs
  generalize construction.run = edit at hruns ⊢
  cases hruns with
  | leaf => exact (allocate_succeeds h rfl).responds
  | checked operation => exact responds_expects hroles (parentOf_responds h _ operation hparts)
  | declaration name value =>
    refine declare_responds h (hparts name List.mem_cons_self) fun v hv => hparts v ?_
    exact List.mem_cons_of_mem _ (Option.mem_toList.2 hv)
  | access target property => exact getProp_responds h (hparts target List.mem_cons_self) property

/-! ## Commands -/

/-- A command on nodes of the forest responds. -/
theorem Command.run_responds (h : f.Realizes s) (command : Command)
    (htargets : ∀ id ∈ command.targets, f.Has id) : command.run.Responds f := by
  have done : ∀ {edit : Edit Unit}, edit.Responds f →
      (edit >>= fun _ => pure Reply.done).Responds f :=
    fun he => he.bind fun _ _ _ => responds_pure _
  have write : ∀ {id : NodeId} {update : Node → Node}, f.Has id → (change id update).Responds f :=
    fun hid => (succeeds_change hid _).responds
  cases command with
  | newNode kind position =>
    refine Responds.map ?_
    unfold Edit.newNode
    split
    · exact responds_throw trivial
    · exact (allocate_succeeds h rfl).responds
  | newText kind value position =>
    refine Responds.map ?_
    unfold Edit.newText
    split
    · exact responds_throw trivial
    · cases value with
      | none => exact responds_throw trivial
      | some text => exact (allocate_succeeds h rfl).responds
  | newNumber value position => exact (allocate_succeeds h rfl).responds.map
  | construct construction => exact (construction.run_responds h htargets).map
  | prependChild parent child =>
    exact done (prependChild_responds h (htargets parent (by simp [targets])) (htargets child (by simp [targets])))
  | appendChild parent child =>
    exact done (appendChild_responds h (htargets parent (by simp [targets])) (htargets child (by simp [targets])))
  | appendChildren parent children =>
    rw [targets, List.forall_mem_cons] at htargets
    exact done (appendChildren_responds h htargets.1 htargets.2)
  | insertAfter child sibling =>
    exact done (insertAfter_responds h (htargets child (by simp [targets])) (htargets sibling (by simp [targets])))
  | insertBefore child sibling =>
    exact done (insertBefore_responds h (htargets child (by simp [targets])) (htargets sibling (by simp [targets])))
  | detach id => exact done (detach_responds h (htargets id List.mem_cons_self))
  | removeChild parent child => exact done (removeChild_responds h parent (htargets child (by simp [targets])))
  | removeFirstChild parent => exact (removeFirstChild_succeeds h (htargets parent List.mem_cons_self)).responds.map
  | detachChildren parent => exact (detachChildren_succeeds h (htargets parent List.mem_cons_self)).responds.map
  | replaceWith old replacement =>
    exact done (replaceWith_responds h (htargets old (by simp [targets])) (htargets replacement (by simp [targets])))
  | copyNode id =>
    obtain ⟨n, hn⟩ := Forest.has_iff_node.1 (htargets id List.mem_cons_self)
    exact (copyNode_succeeds h hn).responds.map
  | copyTree root => exact (copyTree_succeeds h (htargets root List.mem_cons_self)).responds.map
  | setText id value =>
    have hid := htargets id List.mem_cons_self
    obtain ⟨n, hn⟩ := Forest.has_iff_node.1 hid
    refine done (responds_ask (fun e he => by simp [hn] at he) fun m _ => ?_)
    cases m.payload with
    | text _ => exact write hid
    | generic | number _ => exact responds_throw trivial
  | setNumber id value =>
    have hid := htargets id List.mem_cons_self
    obtain ⟨n, hn⟩ := Forest.has_iff_node.1 hid
    refine done (responds_ask (fun e he => by simp [hn] at he) fun m _ => ?_)
    cases m.payload with
    | number _ => exact write hid
    | generic | text _ => exact responds_throw trivial
  | setPosition id position => exact done (write (htargets id List.mem_cons_self))
  | copyPosition id source =>
    refine done (responds_read (htargets source (by simp [targets])) fun n _ => ?_)
    exact write (htargets id List.mem_cons_self)
  | putBool id | putInt id | putObject id | removeProperty id | setTypeText id =>
    exact done (write (htargets id List.mem_cons_self))

end SyntaxForest
