import SyntaxForest.Command
import SyntaxForest.Proofs.Separation
/-!
# New nodes and canonical constructions

A new node stands alone, so allocating it leaves the layout as it is. A construction checks its parts,
allocates and then links the parts under the new node; once the checks have passed the links cannot
fail, because a new node has nothing above it. It spares every tree that none of its parts is in.
-/

namespace SyntaxForest

variable {s : Layout} {f g : Forest} {id c : NodeId} {cs : List NodeId} {n m : Node}

namespace Forest

theorem not_has_nextId (f : Forest) : ¬ f.Has f.nextId := Nat.lt_irrefl f.size

theorem has_push_nextId (f : Forest) (n : Node) : (f.push n).Has f.nextId :=
  .of_node (node_push_nextId f n)

theorem Has.push (h : f.Has id) (n : Node) : (f.push n).Has id := by
  have hs : id.index < f.size := h
  rw [Has, size_push]
  omega

theorem node_push (hm : (f.push n).node id = .ok m) : f.node id = .ok m ∨ id = f.nextId ∧ m = n := by
  by_cases hid : f.Has id
  · rw [node_push_of_has hid] at hm
    exact .inl hm
  · have hlt : id.index < (f.push n).size := Has.of_node hm
    have hge : ¬ id.index < f.size := hid
    rw [size_push] at hlt
    have he : id = f.nextId := by
      cases id
      simp only [nextId, NodeId.mk.injEq]
      simp only at hlt hge
      omega
    subst he
    rw [node_push_nextId] at hm
    cases hm
    exact .inr ⟨rfl, rfl⟩

theorem has_of_has_push (h : (f.push n).Has id) (hid : id ≠ f.nextId) : f.Has id := by
  obtain ⟨m, hm⟩ := has_iff_node.1 h
  rcases node_push hm with hm | ⟨he, -⟩
  · exact .of_node hm
  · exact absurd he hid

theorem contents_push_of_has (h : f.Has id) : (f.push n).contents id = f.contents id := by
  rw [contents, node_push_of_has h, contents]

/-- A node without links is a new node of the same layout. -/
theorem Realizes.push (h : f.Realizes s) (hn : n.detachedCopy = n) : (f.push n).Realizes s where
  links {id m} hm := by
    rcases node_push hm with hm | ⟨rfl, rfl⟩
    · exact h.links hm
    · obtain ⟨hp, hc⟩ := h.alone f.not_has_nextId
      rw [← hn]
      refine ⟨hp.symm, ?_, ?_, (Layout.next_of_parentless hp).symm⟩ <;> rw [hc] <;> rfl
  has hp := ⟨(h.has hp).1.push n, (h.has hp).2.push n⟩

theorem Realizes.spares_push (h : f.Realizes s) (hn : n.detachedCopy = n) (names : List NodeId) :
    f.Spares s names (f.push n) s where
  realizes := h.push hn
  agree _ hr _ := .refl hr
  contents hx _ := contents_push_of_has hx

end Forest

/-- Parts put under a new node. -/
theorem Layout.Appends.spares_push (hg : s.Appends (f.push n) g f.nextId cs) (hf : f.Realizes s)
    (hn : n.detachedCopy = n) : f.Spares s cs g (s.graft f.nextId (s.children f.nextId) cs [] hg.fits) := by
  have hlinked := hg.spares List.mem_cons_self (List.subset_cons_self f.nextId cs)
  refine (hf.spares_push hn cs).trans hlinked hf fun a ha hhas => ?_
  exact (List.mem_cons.1 ha).resolve_left fun e => f.not_has_nextId (e ▸ hhas)

/-- A node of the forest has a kind that the role accepts. -/
def Forest.Plays (f : Forest) (role : Role) (id : NodeId) : Prop :=
  ∃ kind, f.kind id = .ok kind ∧ role.accepts kind = true

namespace Edit

theorem allocate_succeeds (h : f.Realizes s) (hn : n.detachedCopy = n) :
    (allocate n).Succeeds f fun id g => id = f.nextId ∧ g = f.push n ∧ g.Realizes s :=
  ⟨_, _, allocate_eq n f, rfl, rfl, h.push hn⟩

theorem allocate_leads (h : f.Realizes s) (hn : n.detachedCopy = n) (names : List NodeId) :
    (allocate n).Leads f fun _ g => f.Spares s names g s := by
  refine ((allocate_succeeds h hn).mono fun _ g hg => ?_).leads
  rw [hg.2.1]
  exact h.spares_push hn names

/-! ## Parts under a new node -/

/-- Parentless nodes that are distinct fit under a new node. -/
theorem fits_nextId (h : f.Realizes s) (hcs : ∀ c ∈ cs, f.Has c) (hp : ∀ c ∈ cs, s.parent c = none)
    (hd : cs.Nodup) : s.Fits f.nextId (s.children f.nextId) cs [] where
  place := (List.append_nil _).symm
  alone := hp
  clear c hc hv := by
    have he := (Layout.covers_of_parentless (h.alone f.not_has_nextId).1).1 hv
    exact f.not_has_nextId (he ▸ hcs c hc)
  distinct := hd

theorem parentOf_succeeds (h : f.Realizes s) (hcs : ∀ c ∈ cs, f.Has c)
    (hp : ∀ c ∈ cs, s.parent c = none) (hd : cs.Nodup) (kind : Kind) (op : Operation) :
    (parentOf kind op cs).Succeeds f fun id g =>
      id = f.nextId ∧ s.Appends (f.push { kind := kind, payload := .generic }) g id cs := by
  refine succeeds_ask (h.checkAllDetached_ok_iff.2 ⟨hcs, hp, hd⟩) ?_
  refine (allocate_succeeds h rfl).bind fun id g hg => ?_
  obtain ⟨rfl, rfl, hg⟩ := hg
  have ha := appendChildren_succeeds hg (f.has_push_nextId _) (fun c hc => (hcs c hc).push _)
    (fits_nextId h hcs hp hd)
  exact ha.bind fun _ g hg => succeeds_pure ⟨rfl, hg⟩

theorem parentOf_leads (h : f.Realizes s) (kind : Kind) (op : Operation) (cs : List NodeId) :
    (parentOf kind op cs).Leads f fun id g =>
      id = f.nextId ∧ s.Appends (f.push { kind := kind, payload := .generic }) g id cs := by
  by_cases hk : f.checkAllDetached op [] cs = .ok ()
  · obtain ⟨hcs, hp, hd⟩ := h.checkAllDetached_ok_iff.1 hk
    exact (parentOf_succeeds h hcs hp hd kind op).leads
  · exact leads_ask (fun e => Forest.checkAllDetached_error) fun _ hk' => absurd hk' hk

/-- A check of kinds changes nothing, and passes nodes that may play their part only. -/
theorem expect_leads (f : Forest) (role : Role) (id : NodeId) :
    (expect role id).Leads f fun _ g => g = f ∧ f.Plays role id := by
  refine leads_ask (fun e => ordinary_of_read) fun kind hkind => ?_
  split
  · rename_i haccepts
    exact leads_pure ⟨rfl, kind, hkind, haccepts⟩
  · exact leads_throw trivial

theorem expects_lead (f : Forest) (roles : List (Role × NodeId)) :
    (roles.forM fun part => expect part.1 part.2).Leads f fun _ g =>
      g = f ∧ ∀ part ∈ roles, f.Plays part.1 part.2 := by
  induction roles with
  | nil => exact leads_pure ⟨rfl, nofun⟩
  | cons part roles ih =>
    refine (expect_leads f part.1 part.2).bind_of_read fun _ hpart => ih.mono fun _ g hg => ?_
    exact ⟨hg.1, List.forall_mem_cons.2 ⟨hpart, hg.2⟩⟩

end Edit

/-! ## Declarations and property accesses -/

/-- What a declaration does: the value goes under a name without children, and the name under a new node. -/
inductive Layout.Declares (s : Layout) (f : Forest) (name : NodeId) : Option NodeId → NodeId → Forest → Prop
  | bare {g : Forest} (under : s.Appends (f.push { kind := .varDecl, payload := .generic }) g f.nextId [name]) :
    Declares s f name none f.nextId g
  | valued {value : NodeId} {g g' : Forest} (plays : f.Plays .expression value)
    (childless : s.children name = []) (hung : s.Grafts f g name (s.children name) value [])
    (under : (s.graft name (s.children name) [value] [] hung.fits).Appends
      (g.push { kind := .varDecl, payload := .generic }) g' g.nextId [name]) :
    Declares s f name (some value) g.nextId g'

theorem Layout.Declares.spares {name : NodeId} {value : Option NodeId} (hd : s.Declares f name value id g)
    (h : f.Realizes s) : ∃ t, f.Spares s (name :: value.toList) g t := by
  cases hd with
  | bare under => exact ⟨_, under.spares_push h rfl⟩
  | @valued value mid _ _ _ hung under =>
    have hfirst : f.Spares s [name, value] mid _ :=
      hung.spares h ⟨name, by simp, Layout.Covers.refl s name⟩ (by simp)
    refine ⟨_, hfirst.trans (under.spares_push hfirst.realizes rfl) h fun a ha _ => ?_⟩
    exact List.mem_cons.2 (.inl (List.mem_singleton.1 ha))

namespace Edit

/-- A name that stood alone still does when a value has been hung under it. -/
theorem declared_succeeds {name value : NodeId} (h : f.Realizes s)
    (hg : s.Grafts f g name (s.children name) value []) (hname : s.parent name = none) :
    (parentOf .varDecl .varDecl [name]).Succeeds g fun id g' => id = g.nextId ∧
      (s.graft name (s.children name) [value] [] hg.fits).Appends
        (g.push { kind := .varDecl, payload := .generic }) g' id [name] := by
  have hne : name ≠ value := (hg.fits.ne_parent List.mem_cons_self).symm
  refine parentOf_succeeds (hg.realizes h) ?_ ?_ (List.nodup_singleton name) _ _
  · exact List.forall_mem_singleton.2 (hg.rewritten.has.2 hg.has_parent)
  · rw [List.forall_mem_singleton, Layout.parent_graft, if_neg (by simpa using hne)]
    exact hname

theorem declare_leads (h : f.Realizes s) (name : NodeId) (value : Option NodeId) :
    (declare name value).Leads f fun id g =>
      f.Plays .declaredName name ∧ s.Declares f name value id g := by
  refine (expect_leads f _ name).bind_of_read fun _ hplays => ?_
  refine leads_ask (fun e => Forest.checkAllDetached_error) fun _ hk => ?_
  have hname := (h.checkAllDetached_ok_iff.1 hk).2.1 name List.mem_cons_self
  cases value with
  | none =>
    refine (parentOf_leads h _ _ _).mono fun _ g hg => ?_
    obtain ⟨rfl, hg⟩ := hg
    exact ⟨hplays, .bare hg⟩
  | some value =>
    refine (expect_leads f _ value).bind_of_read fun _ hvalue => ?_
    refine leads_ask (fun e => ordinary_of_read) fun busy hbusy => ?_
    split
    · exact leads_throw trivial
    · rename_i hfree
      have hempty : s.children name = [] := by
        obtain ⟨m, hm, rfl⟩ := Forest.read_eq_ok_iff.1 hbusy
        simpa [Node.hasChildren, (h.links hm).firstChild] using hfree
      refine (appendChild_leads h name value).bind fun _ g hg => ?_
      refine (declared_succeeds h hg hname).mono fun _ g' hg' => ?_
      obtain ⟨rfl, hg'⟩ := hg'
      exact ⟨hplays, .valued hvalue hempty hg hg'⟩

/-- The text is a node of its own, so it is neither the target nor attached. -/
theorem access_succeeds {target : NodeId} (h : f.Realizes s) (hhas : f.Has target)
    (hp : s.parent target = none) (property : String) :
    (do
      let text ← textLeaf .stringLit property
      parentOf .getProp .getProp [target, text]).Succeeds f fun id g =>
      let withText := f.push { kind := .stringLit, payload := .text property }
      id = withText.nextId ∧
        s.Appends (withText.push { kind := .getProp, payload := .generic }) g id [target, f.nextId] := by
  have hne : target ≠ f.nextId := fun e => f.not_has_nextId (e ▸ hhas)
  refine (allocate_succeeds h rfl).bind fun text g hg => ?_
  obtain ⟨rfl, rfl, hg⟩ := hg
  refine parentOf_succeeds hg ?_ ?_ ?_ _ _
  · simp [hhas.push, f.has_push_nextId]
  · simp [hp, (h.alone f.not_has_nextId).1]
  · simp [hne]

/-- A property access puts its target and a new text under a second new node. -/
theorem getProp_leads (h : f.Realizes s) (target : NodeId) (property : String) :
    (Construction.getProp target property).run.Leads f fun id g => f.Plays .expression target ∧
      let withText := f.push { kind := .stringLit, payload := .text property }
      id = withText.nextId ∧
        s.Appends (withText.push { kind := .getProp, payload := .generic }) g id [target, f.nextId] := by
  refine (expect_leads f _ target).bind_of_read fun _ hplays => ?_
  refine leads_ask (fun e => Forest.checkAllDetached_error) fun _ hk => ?_
  obtain ⟨hhas, hp, -⟩ := h.checkAllDetached_ok_iff.1 hk
  rw [List.forall_mem_singleton] at hhas hp
  exact (access_succeeds h hhas hp property).leads.mono fun _ g hg => ⟨hplays, hg⟩

end Edit

/-! ## Constructions -/

namespace Construction

/-- The kind of the node that is made. -/
def kind : Construction → Kind
  | .empty => .empty
  | .identifier _ => .identifier
  | .stringLit _ => .stringLit
  | .numberLit _ => .numberLit
  | .trueLit => .trueLit
  | .falseLit => .falseLit
  | .nullLit => .nullLit
  | .thisRef => .thisRef
  | .paramList _ => .paramList
  | .block _ => .block
  | .script _ => .script
  | .function .. => .function
  | .exprResult _ => .exprResult
  | .returnStmt _ => .returnStmt
  | .varDecl .. => .varDecl
  | .call .. => .call
  | .assign .. => .assign
  | .getProp .. => .getProp

/-- The parts, each with the role that it has to play. -/
def roles : Construction → List (Role × NodeId)
  | .paramList parameters => parameters.map (Role.parameter, ·)
  | .block statements | .script statements => statements.map (Role.statement, ·)
  | .function name parameters body =>
    [(.functionName, name), (.functionParameters, parameters), (.functionBody, body)]
  | .exprResult expression => [(.expression, expression)]
  | .returnStmt value => value.toList.map (Role.expression, ·)
  | .varDecl name value => (.declaredName, name) :: value.toList.map (Role.expression, ·)
  | .call target arguments => (.expression, target) :: arguments.map (Role.argument, ·)
  | .assign target value => [(.assignmentTarget, target), (.expression, value)]
  | .getProp target _ => [(.expression, target)]
  | .empty | .identifier _ | .stringLit _ | .numberLit _ | .trueLit | .falseLit | .nullLit
  | .thisRef => []

theorem map_roles (construction : Construction) : construction.roles.map (·.2) = construction.parts := by
  cases construction <;> simp [roles, parts, Function.comp_def]

/-- Whether the parts become the children of the new node, and nothing else is changed. -/
def plain : Construction → Bool
  | .varDecl .. | .getProp .. => false
  | _ => true

open Edit in
/-- How a construction runs: it allocates a leaf, or checks the roles of its parts and puts them under a new
node. Declarations and property accesses have a step more. -/
inductive Runs : Construction → Edit NodeId → Prop
  | leaf {construction : Construction} {payload : Payload} (plain : construction.plain = true)
    (partless : construction.parts = []) (shape : payload.shape = construction.kind.shape) :
    Runs construction (allocate { kind := construction.kind, payload := payload })
  | checked {construction : Construction} (operation : Operation) (plain : construction.plain = true)
    (shape : construction.kind.shape = .generic) :
    Runs construction (do
      construction.roles.forM fun part => expect part.1 part.2
      parentOf construction.kind operation construction.parts)
  | declaration (name : NodeId) (value : Option NodeId) : Runs (.varDecl name value) (declare name value)
  | access (target : NodeId) (property : String) :
    Runs (.getProp target property) (Construction.getProp target property).run

open Edit in
theorem runs_of_eq {construction : Construction} {operation : Operation} (hplain : construction.plain = true)
    (hshape : construction.kind.shape = .generic)
    (hrun : construction.run = do
      construction.roles.forM fun part => expect part.1 part.2
      parentOf construction.kind operation construction.parts) : construction.Runs construction.run := by
  rw [hrun]
  exact .checked operation hplain hshape

theorem runs (construction : Construction) : construction.Runs construction.run := by
  cases construction with
  | empty | identifier | stringLit | numberLit | trueLit | falseLit | nullLit | thisRef =>
    exact .leaf rfl rfl rfl
  | paramList | block | script | function | exprResult | call | assign =>
    apply runs_of_eq rfl rfl
    simp only [run, roles, List.forM_eq_forM, List.forM_cons, List.forM_nil, List.forM_map, bind_assoc,
      pure_bind]
    rfl
  | returnStmt value =>
    cases value with
    | none => exact .leaf rfl rfl rfl
    | some value =>
      apply runs_of_eq rfl rfl
      simp only [run, roles, Option.toList_some, List.forM_eq_forM, List.forM_cons, List.forM_nil,
        List.forM_map, bind_assoc, pure_bind]
      rfl
  | varDecl name value => exact .declaration name value
  | getProp target property => exact .access target property

open Edit in
/-- A construction spares the trees that none of its parts is in, or changes nothing. -/
theorem run_leads (h : f.Realizes s) (construction : Construction) :
    construction.run.Leads f fun _ g => ∃ t, f.Spares s construction.parts g t := by
  have hruns := construction.runs
  generalize construction.run = edit at hruns ⊢
  cases hruns with
  | leaf => exact (allocate_leads h rfl _).mono fun _ _ hg => ⟨s, hg⟩
  | checked operation =>
    refine (expects_lead f _).bind_of_read fun _ _ => ?_
    refine (parentOf_leads h _ operation _).mono fun _ g hg => ?_
    obtain ⟨rfl, hg⟩ := hg
    exact ⟨_, hg.spares_push h rfl⟩
  | declaration name value => exact (declare_leads h name value).mono fun _ g hg => hg.2.spares h
  | access target property =>
    refine (getProp_leads h target property).mono fun _ g hg => ?_
    obtain ⟨-, rfl, hg⟩ := hg
    have hfirst := h.spares_push (n := { kind := .stringLit, payload := .text property }) rfl [target]
    refine ⟨_, hfirst.trans (hg.spares_push hfirst.realizes rfl) h fun a ha hhas => ?_⟩
    have hnew : a ≠ f.nextId := fun e => f.not_has_nextId (e ▸ hhas)
    simpa [hnew] using ha

end Construction

end SyntaxForest
