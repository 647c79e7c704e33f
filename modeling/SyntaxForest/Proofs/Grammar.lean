import Mathlib.Data.List.Forall2
import SyntaxForest.Proofs.Building
/-!
# Canonical shapes

Forests made by constructions alone keep a grammar: the kind of a node says which kinds its children have.
A construction checks the kinds of its parts once, and nothing takes a part away again. The one node that gets
a child after it was made is a declared name. It gets its value and its declaration in one construction, so
between two constructions a name with a child always stands under a declaration.
-/

namespace SyntaxForest

open Edit

variable {s : Layout} {f g : Forest} {id p name value : NodeId} {ids cs before after names : List NodeId}
  {n : Node} {k : Kind} {ks : List Kind} {role : Role}

/-! ## The grammar -/

/-- Whether a canonical node of the kind may have children of the given kinds, in this order. -/
def Kind.admits : Kind → List Kind → Bool
  | .script, kinds | .block, kinds => kinds.all (·.mayBeStatement)
  | .paramList, kinds =>
    kinds.all ([.identifier, .defaultValue, .iterRest, .arrayPattern, .objectPattern].contains ·)
  | .function, kinds => kinds = [.identifier, .paramList, .block]
  | .exprResult, kinds => kinds.length = 1 ∧ kinds.all (·.mayBeExpression)
  | .returnStmt, kinds | .identifier, kinds => kinds.length ≤ 1 ∧ kinds.all (·.mayBeExpression)
  | .varDecl, kinds => kinds = [.identifier]
  | .call, kinds =>
    match kinds with
    | target :: arguments =>
      target.mayBeExpression && arguments.all fun kind => kind.mayBeExpression || kind == .iterSpread
    | [] => false
  | .assign, kinds =>
    match kinds with
    | [target, value] =>
      [.identifier, .getProp, .getElem, .arrayPattern, .objectPattern].contains target &&
        value.mayBeExpression
    | _ => false
  | .getProp, kinds =>
    match kinds with
    | [target, property] => target.mayBeExpression && property == .stringLit
    | _ => false
  | _, kinds => kinds.isEmpty

/-- The roles accept the kinds, one by one. -/
def Cast (roles : List (Role × NodeId)) (kinds : List Kind) : Prop :=
  List.Forall₂ (fun part kind => part.1.accepts kind = true) roles kinds

theorem Cast.forall_accepts (h : Cast (ids.map (role, ·)) ks) : ∀ k ∈ ks, role.accepts k = true := by
  induction ids generalizing ks with
  | nil =>
    cases h
    exact nofun
  | cons id ids ih =>
    cases h with
    | cons hk hks => exact List.forall_mem_cons.2 ⟨hk, ih hks⟩

/-- A construction that puts its parts under the new node checks just what the kind of that node admits. -/
theorem Construction.admits {construction : Construction} (hplain : construction.plain = true)
    (hcast : Cast construction.roles ks) : construction.kind.admits ks = true := by
  cases construction with
  | empty | identifier | stringLit | numberLit | trueLit | falseLit | nullLit | thisRef =>
    cases hcast
    rfl
  | paramList | block | script => exact List.all_eq_true.2 hcast.forall_accepts
  | function name parameters body =>
    rcases hcast with _ | ⟨hname, _ | ⟨hparameters, _ | ⟨hbody, ⟨⟩⟩⟩⟩
    simp_all [kind, Kind.admits, Role.accepts]
  | exprResult expression =>
    rcases hcast with _ | ⟨hexpression, ⟨⟩⟩
    simpa [kind, Kind.admits, Role.accepts] using hexpression
  | returnStmt value =>
    cases value with
    | none =>
      cases hcast
      rfl
    | some value =>
      rcases hcast with _ | ⟨hvalue, ⟨⟩⟩
      simpa [kind, Kind.admits, Role.accepts] using hvalue
  | call target arguments =>
    rcases hcast with _ | ⟨htarget, harguments⟩
    have hexpression : Kind.mayBeExpression _ = true := htarget
    simpa [kind, Kind.admits, hexpression, Role.accepts, or_comm] using Cast.forall_accepts harguments
  | assign target value =>
    rcases hcast with _ | ⟨htarget, _ | ⟨hvalue, ⟨⟩⟩⟩
    exact Bool.and_eq_true_iff.2 ⟨htarget, hvalue⟩
  | varDecl | getProp => cases hplain

namespace Forest

/-- The kinds of the children of a node, in order. -/
def childKinds (f : Forest) (id : NodeId) : Except Fault (List Kind) := do
  (← f.children id).mapM f.kind

/-- Every node has the children that its kind admits, and a name with a child is declared. -/
structure Canonical (f : Forest) : Prop where
  admits : ∀ id kind, f.kind id = .ok kind →
    ∃ kinds, f.childKinds id = .ok kinds ∧ kind.admits kinds = true
  declared : ∀ id first rest, f.kind id = .ok .identifier → f.children id = .ok (first :: rest) →
    ∃ declaration, f.parent id = .ok (some declaration) ∧ f.kind declaration = .ok .varDecl

/-- The forests that constructions make from the empty one, whatever they answered. -/
inductive Built : Forest → Prop
  | empty : Built .empty
  | step {f : Forest} (construction : Construction) : Built f → Built (construction.run.after f)

/-! ## Kinds of parts -/

/-- The nodes of a list have the given kinds. -/
def HaveKinds (f : Forest) (ids : List NodeId) (kinds : List Kind) : Prop :=
  List.Forall₂ (fun id kind => f.kind id = .ok kind) ids kinds

theorem HaveKinds.mapM (h : f.HaveKinds ids ks) : ids.mapM f.kind = .ok ks := mapM_of_forall₂ h

theorem HaveKinds.append {more : List NodeId} {ls : List Kind} (h : f.HaveKinds ids ks)
    (hmore : f.HaveKinds more ls) : f.HaveKinds (ids ++ more) (ks ++ ls) :=
  List.rel_append h hmore

theorem HaveKinds.mono (h : f.HaveKinds ids ks)
    (hkeep : ∀ x k, f.kind x = .ok k → g.kind x = .ok k) : g.HaveKinds ids ks :=
  List.Forall₂.imp hkeep h

/-- Parts that may play their roles have kinds that the roles accept. -/
theorem exists_kinds {roles : List (Role × NodeId)} (h : ∀ part ∈ roles, f.Plays part.1 part.2) :
    ∃ ks, f.HaveKinds (roles.map (·.2)) ks ∧ Cast roles ks := by
  induction roles with
  | nil => exact ⟨[], .nil, .nil⟩
  | cons part roles ih =>
    rw [List.forall_mem_cons] at h
    obtain ⟨k, hk, haccepts⟩ := h.1
    obtain ⟨ks, hks, hcast⟩ := ih h.2
    exact ⟨k :: ks, .cons hk hks, .cons haccepts hcast⟩

theorem kind_eq_contents (f : Forest) (id : NodeId) : f.kind id = (f.contents id).map (·.kind) :=
  read_eq_contents (fun _ => rfl) f id

theorem SameContents.kind_eq (h : f.SameContents g) (id : NodeId) : g.kind id = f.kind id := by
  rw [kind_eq_contents, kind_eq_contents, h]

theorem kind_push_nextId (f : Forest) (n : Node) : (f.push n).kind f.nextId = .ok n.kind := by
  unfold kind
  rw [node_push_nextId]
  rfl

theorem kind_push_of_ok (h : f.kind id = .ok k) (n : Node) : (f.push n).kind id = .ok k := by
  have hid : f.Has id := has_of_read h
  unfold kind at h ⊢
  rwa [node_push_of_has hid]

theorem kind_push_cases (h : (f.push n).kind id = .ok k) : id = f.nextId ∨ f.kind id = .ok k := by
  obtain ⟨m, hm, rfl⟩ := read_eq_ok_iff.1 h
  rcases node_push hm with hm | ⟨rfl, -⟩
  · exact .inr (read_eq_ok_iff.2 ⟨m, hm, rfl⟩)
  · exact .inl rfl

/-! ## The grammar in a layout -/

/-- The grammar holds along the layout. The `names` are being declared: they may have a child already. -/
structure Shaped (f : Forest) (s : Layout) (names : List NodeId) : Prop where
  admits : ∀ {id k}, f.kind id = .ok k → ∃ ks, f.HaveKinds (s.children id) ks ∧ k.admits ks = true
  declared : ∀ {id}, f.kind id = .ok .identifier → s.children id ≠ [] → id ∉ names →
    ∃ p, s.parent id = some p ∧ f.kind p = .ok .varDecl

theorem shaped_empty : empty.Shaped .scattered [] := by
  constructor
  · intro id k h
    exact nomatch has_of_read h
  · intro id h
    exact nomatch has_of_read h

namespace Shaped

/-- A new node without children. -/
theorem push (hs : f.Shaped s []) (h : f.Realizes s) (hn : n.kind.admits [] = true) :
    (f.push n).Shaped s [] := by
  have hkeep : ∀ x k, f.kind x = .ok k → (f.push n).kind x = .ok k := fun x k hx => kind_push_of_ok hx n
  obtain ⟨-, hchildless⟩ := h.alone f.not_has_nextId
  constructor
  · intro id k hk
    rcases kind_push_cases hk with rfl | hold
    · rw [kind_push_nextId] at hk
      cases hk
      exact ⟨[], hchildless ▸ .nil, hn⟩
    · obtain ⟨ks, hks, hadmits⟩ := hs.admits hold
      exact ⟨ks, hks.mono hkeep, hadmits⟩
  · intro id hk hchildren hnames
    rcases kind_push_cases hk with rfl | hold
    · exact absurd hchildless hchildren
    · obtain ⟨p, hp, hdecl⟩ := hs.declared hold hchildren hnames
      exact ⟨p, hp, hkeep p _ hdecl⟩

/-- Nodes put under `p`, which has then the children that its kind admits. Names that were being declared
are declared by that, or are still to be. -/
theorem graft {more : List NodeId} (hs : f.Shaped s names) (hfit : s.Fits p before cs after)
    (hkeep : ∀ x k, f.kind x = .ok k → g.kind x = .ok k)
    (hback : ∀ x k, g.kind x = .ok k → x = p ∨ f.kind x = .ok k) (hp : g.kind p = .ok k)
    (hks : f.HaveKinds (before ++ cs ++ after) ks) (hadmits : k.admits ks = true)
    (hnames : ∀ name ∈ names, name ∈ cs ∧ k = .varDecl) (hmore : k = .identifier → p ∈ more) :
    g.Shaped (s.graft p before cs after hfit) more := by
  constructor
  · intro x kx hx
    rw [Layout.children_graft]
    by_cases hxp : x = p
    · subst hxp
      rw [hp] at hx
      cases hx
      exact ⟨ks, by simpa using hks.mono hkeep, hadmits⟩
    · obtain ⟨ks', hks', hadmits'⟩ := hs.admits ((hback x kx hx).resolve_left hxp)
      exact ⟨ks', by simpa [hxp] using hks'.mono hkeep, hadmits'⟩
  · intro x hx hchildren hnot
    by_cases hxp : x = p
    · subst hxp
      rw [hp] at hx
      cases hx
      exact absurd (hmore rfl) hnot
    · have hold := (hback x _ hx).resolve_left hxp
      rw [Layout.children_graft, if_neg hxp] at hchildren
      rw [Layout.parent_graft]
      by_cases hname : x ∈ names
      · obtain ⟨hmem, rfl⟩ := hnames x hname
        exact ⟨p, if_pos hmem, hp⟩
      · -- a declared name has a parent, so it is not among the nodes that are put under `p`
        obtain ⟨q, hq, hdecl⟩ := hs.declared hold hchildren hname
        have hmem : x ∉ cs := by
          intro hm
          rw [hfit.alone x hm] at hq
          cases hq
        exact ⟨q, by rw [if_neg hmem, hq], hkeep q _ hdecl⟩

theorem canonical (hs : f.Shaped s []) (h : f.Realizes s) : f.Canonical := by
  constructor
  · intro id kind hkind
    obtain ⟨kinds, hkinds, hadmits⟩ := hs.admits hkind
    refine ⟨kinds, ?_, hadmits⟩
    unfold childKinds
    rw [h.children_eq (has_of_read hkind)]
    exact hkinds.mapM
  · intro id first rest hkind hchildren
    have hid : f.Has id := has_of_read hkind
    rw [h.children_eq hid] at hchildren
    have hne : s.children id ≠ [] := by simp [Except.ok.inj hchildren]
    obtain ⟨declaration, hparent, hdecl⟩ := hs.declared hkind hne List.not_mem_nil
    exact ⟨declaration, by rw [h.parent_eq hid, hparent], hdecl⟩

end Shaped

/-- The forest has a layout along which the grammar holds. -/
def Grammatical (f : Forest) : Prop := ∃ s, f.Realizes s ∧ f.Shaped s []

end Forest

/-! ## Constructions -/

theorem Layout.Appends.grammatical (hg : s.Appends (f.push n) g f.nextId cs) (h : f.Realizes s)
    (hs : f.Shaped s names) (hks : f.HaveKinds cs ks) (hadmits : n.kind.admits ks = true)
    (hn : n.kind ≠ .identifier) (hnames : ∀ name ∈ names, name ∈ cs ∧ n.kind = .varDecl) :
    g.Grammatical := by
  have hkind : g.kind f.nextId = .ok n.kind := by
    rw [hg.sameContents.kind_eq, Forest.kind_push_nextId]
  refine ⟨_, hg.realizes, hs.graft hg.fits ?_ ?_ hkind ?_ hadmits hnames fun he => absurd he hn⟩
  · intro x k hx
    rw [hg.sameContents.kind_eq]
    exact Forest.kind_push_of_ok hx n
  · intro x k hx
    rw [hg.sameContents.kind_eq] at hx
    exact Forest.kind_push_cases hx
  · simpa [(h.alone f.not_has_nextId).2] using hks

/-- The name has its value now, and is the only name that is not declared yet. -/
theorem Layout.Grafts.shaped (hg : s.Grafts f g name (s.children name) value []) (hs : f.Shaped s [])
    (hname : f.kind name = .ok .identifier) (hempty : s.children name = []) (hvalue : f.kind value = .ok k)
    (hexpression : Role.expression.accepts k = true) :
    g.Shaped (s.graft name (s.children name) [value] [] hg.fits) [name] := by
  have hkinds := hg.sameContents.kind_eq
  have hks : f.HaveKinds (s.children name ++ [value] ++ []) [k] := by
    rw [hempty]
    exact .cons hvalue .nil
  refine hs.graft hg.fits ?_ ?_ (by rwa [hkinds]) hks ?_ nofun fun _ => List.mem_cons_self
  · intro x k hx
    rwa [hkinds]
  · intro x k hx
    rw [hkinds] at hx
    exact .inr hx
  · simpa [Kind.admits, Role.accepts] using hexpression

namespace Edit

theorem allocate_grammatical (h : f.Realizes s) (hs : f.Shaped s []) (hn : n.detachedCopy = n)
    (hadmits : n.kind.admits [] = true) : (allocate n).Leads f fun _ g => g.Grammatical := by
  refine ((allocate_succeeds h hn).mono fun _ g hg => ?_).leads
  obtain ⟨-, rfl, hg⟩ := hg
  exact ⟨s, hg, hs.push h hadmits⟩

theorem parentOf_grammatical (h : f.Realizes s) (hs : f.Shaped s []) (hks : f.HaveKinds cs ks)
    (hadmits : k.admits ks = true) (hk : k ≠ .identifier) (op : Operation) :
    (parentOf k op cs).Leads f fun _ g => g.Grammatical := by
  refine (parentOf_leads h k op cs).mono fun _ g hg => ?_
  obtain ⟨rfl, hg⟩ := hg
  exact hg.grammatical h hs hks hadmits hk nofun

end Edit

theorem Layout.Declares.grammatical {value : Option NodeId} (hd : s.Declares f name value id g)
    (h : f.Realizes s) (hs : f.Shaped s []) (hplays : f.Plays .declaredName name) : g.Grammatical := by
  obtain ⟨k, hname, haccepts⟩ := hplays
  obtain rfl : k = .identifier := by simpa [Role.accepts] using haccepts
  cases hd with
  | bare under => exact under.grammatical h hs (.cons hname .nil) rfl (by decide) nofun
  | @valued value mid _ hplays childless hung under =>
    obtain ⟨kv, hvalue, hexpression⟩ := hplays
    have hname' : mid.kind name = .ok .identifier := by rwa [hung.sameContents.kind_eq]
    have hshaped := hung.shaped hs hname childless hvalue hexpression
    exact under.grammatical (hung.realizes h) hshaped (.cons hname' .nil) rfl (by decide) fun x hx => ⟨hx, rfl⟩

open Edit in
theorem Construction.getProp_grammatical (h : f.Realizes s) (hs : f.Shaped s []) (target : NodeId)
    (property : String) : (Construction.getProp target property).run.Leads f fun _ g => g.Grammatical := by
  refine (getProp_leads h target property).mono fun _ g hg => ?_
  obtain ⟨⟨k, htarget, hexpression⟩, rfl, hg⟩ := hg
  have htarget' := Forest.kind_push_of_ok htarget { kind := .stringLit, payload := .text property }
  have htext := f.kind_push_nextId { kind := .stringLit, payload := .text property }
  refine hg.grammatical (h.push rfl) (hs.push h rfl) (.cons htarget' (.cons htext .nil)) ?_ nofun nofun
  simpa [Kind.admits, Role.accepts] using hexpression

open Edit in
/-- A construction keeps the grammar, whether or not it succeeds. -/
theorem Construction.run_grammatical (h : f.Grammatical) (construction : Construction) :
    construction.run.Leads f fun _ g => g.Grammatical := by
  obtain ⟨s, h, hs⟩ := h
  have hruns := construction.runs
  generalize construction.run = edit at hruns ⊢
  cases hruns with
  | leaf hplain hparts =>
    refine allocate_grammatical h hs rfl (Construction.admits hplain ?_)
    rw [List.map_eq_nil_iff.1 (construction.map_roles.trans hparts)]
    exact .nil
  | checked operation hplain hshape =>
    refine (expects_lead f _).bind_of_read fun _ hplays => ?_
    obtain ⟨ks, hks, hcast⟩ := Forest.exists_kinds hplays
    rw [construction.map_roles] at hks
    refine parentOf_grammatical h hs hks (Construction.admits hplain hcast) ?_ operation
    -- a name has a text, and these nodes have none
    intro hname
    rw [hname] at hshape
    cases hshape
  | declaration name value => exact (declare_leads h name value).mono fun _ g hg => hg.2.grammatical h hs hg.1
  | access target property => exact getProp_grammatical h hs target property

theorem Forest.Built.grammatical (h : f.Built) : f.Grammatical := by
  induction h with
  | empty => exact ⟨_, Forest.realizes_empty, Forest.shaped_empty⟩
  | step construction _ ih => exact (construction.run_grammatical ih).after ih

theorem Forest.Built.runAll (h : f.Built) (constructions : List Construction) :
    (constructions.foldl (fun f construction => construction.run.after f) f).Built := by
  induction constructions generalizing f with
  | nil => exact h
  | cons construction rest ih => exact ih (.step construction h)

/-- Forests made by constructions alone have canonical shapes only. -/
theorem built_canonical (h : f.Built) : f.Canonical := by
  obtain ⟨s, hs, hshaped⟩ := h.grammatical
  exact hshaped.canonical hs

/-- A run with refused constructions in it: a name is declared once only, a declaration is no expression,
and the last argument does not exist. -/
def builtSample : Forest :=
  [Construction.identifier "x", .thisRef, .getProp ⟨1⟩ "y", .varDecl ⟨0⟩ (some ⟨3⟩), .varDecl ⟨0⟩ none,
    .exprResult ⟨4⟩, .identifier "f", .paramList [], .block [⟨4⟩], .function ⟨5⟩ ⟨6⟩ ⟨7⟩,
    .call ⟨8⟩ [⟨9⟩]].foldl (fun f construction => construction.run.after f) .empty

theorem builtSample_canonical :
    builtSample.Canonical ∧ builtSample.childKinds ⟨8⟩ = .ok [.identifier, .paramList, .block] ∧
      builtSample.childKinds ⟨0⟩ = .ok [.getProp] ∧ builtSample.parent ⟨0⟩ = .ok (some ⟨4⟩) ∧
      builtSample.size = 9 :=
  ⟨built_canonical (Forest.Built.empty.runAll _), by decide +kernel, by decide +kernel, by decide +kernel,
    by decide +kernel⟩

end SyntaxForest
