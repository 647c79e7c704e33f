import SyntaxForest.Proofs.Runs
/-!
# Putting nodes together

Which parts a construction takes, and what it makes of them. In a reachable forest a node is made exactly when
each part may play its role, no part has a parent and none is named twice; a declaration with a value also needs
a name without children. The kinds are checked first, so a part of a wrong kind is reported before one that is
not free. What is made is said record by record: the new node, the links of its parts, and nothing else.
-/

namespace SyntaxForest

open Edit

variable {s t : Layout} {f g : Forest} {id x name value target : NodeId} {cs : List NodeId} {n : Node}
  {role : Role} {roles : List (Role × NodeId)} {kind : Kind} {op : Operation}

namespace Forest

/-! ## Free parts -/

/-- The nodes are distinct, and none has a parent. -/
def Free (f : Forest) (cs : List NodeId) : Prop := cs.Nodup ∧ ∀ c ∈ cs, f.parent c = .ok none

theorem Realizes.parent_eq_none_iff (h : f.Realizes s) :
    f.parent x = .ok none ↔ f.Has x ∧ s.parent x = none := by
  constructor
  · intro hx
    have hhas : f.Has x := has_of_read hx
    rw [h.parent_eq hhas] at hx
    exact ⟨hhas, Except.ok.inj hx⟩
  · rintro ⟨hhas, hp⟩
    rw [h.parent_eq hhas, hp]

theorem Realizes.free_iff (h : f.Realizes s) :
    f.Free cs ↔ (∀ c ∈ cs, f.Has c) ∧ (∀ c ∈ cs, s.parent c = none) ∧ cs.Nodup := by
  unfold Free
  simp only [h.parent_eq_none_iff, forall_and]
  tauto

theorem Realizes.checkAllDetached_iff_free (h : f.Realizes s) :
    f.checkAllDetached op [] cs = .ok () ↔ f.Free cs := by
  rw [h.checkAllDetached_ok_iff, h.free_iff]

/-! ## Records under a new node -/

/-- `g` is `f` with the nodes `cs` put under a new node of the kind, and nothing else is changed. -/
structure PutUnder (f g : Forest) (kind : Kind) (id : NodeId) (cs : List NodeId) : Prop where
  fresh : id = f.nextId
  size : g.size = f.size + 1
  record : g.node id =
    .ok { kind := kind, payload := .generic, firstChild := cs.head?, lastChild := cs.getLast? }
  children : g.children id = .ok cs
  parts : ∀ x ∈ cs, ∃ n, f.node x = .ok n ∧
    g.node x = .ok { n with parent := some id, nextSibling := successor? x cs }
  below : ∀ x, f.Has x → g.children x = f.children x
  others : ∀ x, f.Has x → x ∉ cs → g.node x = f.node x

/-- `g` is `f` with the value hung under the name, the name put under a new declaration, and nothing else
changed. -/
structure Declared (f g : Forest) (id name value : NodeId) : Prop where
  fresh : id = f.nextId
  size : g.size = f.size + 1
  record : g.node id =
    .ok { kind := .varDecl, payload := .generic, firstChild := some name, lastChild := some name }
  children : g.children id = .ok [name]
  name_children : g.children name = .ok [value]
  name_record : ∃ n, f.node name = .ok n ∧
    g.node name = .ok { n with parent := some id, firstChild := some value, lastChild := some value }
  value_record : ∃ n, f.node value = .ok n ∧ g.node value = .ok { n with parent := some name }
  others : ∀ x, f.Has x → x ≠ name → x ≠ value → g.node x = f.node x

/-- `g` is `f` with a new text, then the target and the text put under a second new node, and nothing else
changed. -/
structure Accessed (f g : Forest) (id target : NodeId) (property : String) : Prop where
  fresh : id = ⟨f.size + 1⟩
  size : g.size = f.size + 2
  record : g.node id =
    .ok { kind := .getProp, payload := .generic, firstChild := some target, lastChild := some f.nextId }
  children : g.children id = .ok [target, f.nextId]
  text_record : g.node f.nextId =
    .ok { kind := .stringLit, payload := .text property, parent := some id }
  target_record : ∃ n, f.node target = .ok n ∧
    g.node target = .ok { n with parent := some id, nextSibling := some f.nextId }
  others : ∀ x, f.Has x → x ≠ target → g.node x = f.node x

/-- The record of a node that keeps its children. -/
theorem Realizes.node_of_children (hf : f.Realizes s) (hg : g.Realizes t) (hc : g.contents x = f.contents x)
    (hn : f.node x = .ok n) (hcs : t.children x = s.children x) :
    g.node x = .ok { n with parent := t.parent x, nextSibling := t.next x } := by
  have hd := hf.links hn
  rw [hg.node_eq (hc.trans (contents_of_node hn)), hcs, ← hd.firstChild, ← hd.lastChild]
  rfl

end Forest

open Forest

theorem Layout.Appends.putUnder (h : f.Realizes s)
    (hg : s.Appends (f.push { kind := kind, payload := .generic }) g f.nextId cs) :
    f.PutUnder g kind f.nextId cs := by
  obtain ⟨hparent, hchildren⟩ := h.alone f.not_has_nextId
  have hnew : f.nextId ∉ cs := fun hc => hg.fits.ne_parent hc rfl
  have hhas : g.Has f.nextId := hg.sameContents.has.2 (f.has_push_nextId _)
  have hold : ∀ {x}, f.Has x → x ≠ f.nextId := fun hx e => f.not_has_nextId (e ▸ hx)
  have hkeep : ∀ {x}, f.Has x → g.contents x = f.contents x := fun hx =>
    (hg.sameContents _).trans (contents_push_of_has hx)
  -- the new node has no children before, so only its own parts get another sibling
  have hnext : ∀ x, (s.graft f.nextId (s.children f.nextId) cs [] hg.fits).next x =
      if x ∈ cs then successor? x cs else s.next x := by
    intro x
    rw [Layout.next_graft, hchildren]
    simp
  constructor
  · rfl
  · rw [hg.sameContents.size, size_push]
  · have hc : g.contents f.nextId = .ok { kind := kind, payload := .generic } := by
      rw [hg.sameContents]
      exact contents_of_node (node_push_nextId f _)
    rw [hg.realizes.node_eq hc, hnext, Layout.parent_graft, if_neg hnew, if_neg hnew, hparent,
      Layout.next_of_parentless hparent, Layout.children_graft, if_pos rfl, hchildren]
    simp
  · rw [hg.realizes.children_eq hhas, Layout.children_graft, if_pos rfl, hchildren]
    simp
  · intro x hx
    have hx' : f.Has x := has_of_has_push (hg.has x hx) fun e => hnew (e ▸ hx)
    obtain ⟨n, hn⟩ := has_iff_node.1 hx'
    refine ⟨n, hn, ?_⟩
    rw [h.node_of_children hg.realizes (hkeep hx') hn
      (by rw [Layout.children_graft, if_neg (hold hx')]), hnext, Layout.parent_graft, if_pos hx, if_pos hx]
  · intro x hx
    have hx' : g.Has x := has_of_contents (hkeep hx) hx
    rw [hg.realizes.children_eq hx', Layout.children_graft, if_neg (hold hx), h.children_eq hx]
  · intro x hx hxc
    refine h.node_congr hg.realizes hx (hkeep hx) ?_ ?_ ?_
    · rw [Layout.parent_graft, if_neg hxc]
    · rw [Layout.children_graft, if_neg (hold hx)]
    · rw [hnext, if_neg hxc]

theorem Layout.Declares.declared (h : f.Realizes s) (hd : s.Declares f name (some value) id g) :
    f.Declared g id name value := by
  cases hd with
  | @valued _ mid _ _ hempty hung under =>
    have hsize : mid.size = f.size := hung.sameContents.size
    have hput := under.putUnder (hung.realizes h)
    have hne : value ≠ name := hung.fits.ne_parent List.mem_cons_self
    have hrec := hung.rewritten
    have hname : s.parent name = none := by
      have hp := under.fits.alone name List.mem_cons_self
      rwa [Layout.parent_graft, if_neg (by simpa using hne.symm)] at hp
    constructor
    · simp only [nextId, hsize]
    · rw [hput.size, hsize]
    · exact hput.record
    · exact hput.children
    · have hmid := hrec.has.2 hung.has_parent
      rw [hput.below name hmid, (hung.realizes h).children_eq hmid, Layout.children_graft, if_pos rfl, hempty]
      rfl
    · obtain ⟨n, hn⟩ := has_iff_node.1 hung.has_parent
      have hsib : n.nextSibling = none := (h.links hn).nextSibling.trans (Layout.next_of_parentless hname)
      obtain ⟨m, hm, hg⟩ := hput.parts name List.mem_cons_self
      rw [hrec.node hn] at hm
      cases hm
      refine ⟨n, hn, hg.trans ?_⟩
      simp [grafted, hempty, hsib, successor?]
    · obtain ⟨n, hn⟩ := has_iff_node.1 hung.has_child
      have hvalue := hung.fits.alone value List.mem_cons_self
      have hsib : n.nextSibling = none := (h.links hn).nextSibling.trans (Layout.next_of_parentless hvalue)
      refine ⟨n, hn, ?_⟩
      rw [hput.others value (hrec.has.2 hung.has_child) (by simpa using hne), hrec.node hn]
      simp [grafted, hne, hsib]
    · intro x hx hxname hxvalue
      obtain ⟨n, hn⟩ := has_iff_node.1 hx
      rw [hput.others x (hrec.has.2 hx) (by simpa using hxname), hrec.node hn, hn]
      simp [grafted, hxname, hxvalue, hempty]

theorem Forest.PutUnder.accessed {property : String}
    (hg : (f.push { kind := .stringLit, payload := .text property }).PutUnder g .getProp id [target, f.nextId])
    (htarget : f.Has target) : f.Accessed g id target property := by
  have hold : ∀ {x}, f.Has x → x ≠ f.nextId := fun hx e => f.not_has_nextId (e ▸ hx)
  have hne := hold htarget
  constructor
  · simp [hg.fresh, nextId]
  · simp [hg.size]
  · exact hg.record
  · exact hg.children
  · obtain ⟨n, hn, hrec⟩ := hg.parts f.nextId (by simp)
    rw [node_push_nextId] at hn
    cases hn
    rw [hrec]
    simp [successor?, hne]
  · obtain ⟨n, hn, hrec⟩ := hg.parts target (by simp)
    rw [node_push_of_has htarget] at hn
    refine ⟨n, hn, hrec.trans ?_⟩
    simp [successor?]
  · intro x hx hxtarget
    rw [hg.others x (hx.push _) (by simp [hxtarget, hold hx]), node_push_of_has hx]

/-! ## How a construction ends -/

/-- How making a node out of parts ends. The node is made; or a part cannot play its role; or all parts can, and
they are not free. Only the first changes the forest. -/
inductive Outcome (f : Forest) (roles : List (Role × NodeId)) (edit : Edit NodeId) : Prop
  | made {id : NodeId} {g : Forest} (fit : ∀ part ∈ roles, f.Plays part.1 part.2)
    (free : f.Free (roles.map (·.2))) (run : edit f = .ok id g)
  | unfit {role : Role} {kind : Kind} (unfit : ∃ part ∈ roles, ¬ f.Plays part.1 part.2)
    (run : edit f = .error (.argument (.unfit role kind)) f)
  | taken {id : NodeId} {op : Operation} {cause : LinkFault} (fit : ∀ part ∈ roles, f.Plays part.1 part.2)
    (taken : ¬ f.Free (roles.map (·.2))) (run : edit f = .error (.link id op cause) f)

/-- How a check of roles ends. -/
def Judges (f : Forest) (roles : List (Role × NodeId)) (check : Edit Unit) : Prop :=
  (check f = .ok () f ∧ ∀ part ∈ roles, f.Plays part.1 part.2) ∨
    ∃ role kind, check f = .error (.argument (.unfit role kind)) f ∧ ∃ part ∈ roles, ¬ f.Plays part.1 part.2

namespace Edit

theorem parentOf_of_free (h : f.Realizes s) (hfree : f.Free cs) (kind : Kind) (op : Operation) :
    (parentOf kind op cs).Succeeds f fun id g =>
      id = f.nextId ∧ s.Appends (f.push { kind := kind, payload := .generic }) g id cs := by
  obtain ⟨hcs, hp, hd⟩ := h.free_iff.1 hfree
  exact parentOf_succeeds h hcs hp hd kind op

theorem expect_judges (hid : f.Has id) (role : Role) : Judges f [(role, id)] (expect role id) := by
  obtain ⟨n, hn⟩ := has_iff_node.1 hid
  have hkind : f.kind id = .ok n.kind := read_eq_ok_iff.2 ⟨n, hn, rfl⟩
  have hask : ask (·.kind id) f = .ok n.kind f := ask_eq_ok.2 ⟨hkind, rfl⟩
  unfold expect Judges
  rw [bind_of_ok hask]
  by_cases haccepts : role.accepts n.kind = true
  · rw [if_pos haccepts]
    exact .inl ⟨rfl, List.forall_mem_singleton.2 ⟨n.kind, hkind, haccepts⟩⟩
  · rw [if_neg haccepts]
    refine .inr ⟨role, n.kind, rfl, (role, id), List.mem_cons_self, ?_⟩
    rintro ⟨kind, hk, ha⟩
    rw [hkind] at hk
    cases hk
    exact haccepts ha

theorem expects_judge (hhas : ∀ part ∈ roles, f.Has part.2) :
    Judges f roles (roles.forM fun part => expect part.1 part.2) := by
  induction roles with
  | nil => exact .inl ⟨rfl, nofun⟩
  | cons part roles ih =>
    rw [List.forall_mem_cons] at hhas
    unfold Judges
    rw [List.forM_eq_forM, List.forM_cons]
    rcases expect_judges hhas.1 part.1 with ⟨hok, hfit⟩ | ⟨role, kind, herr, hunfit⟩
    · rw [bind_of_ok hok]
      have hpart := hfit part List.mem_cons_self
      rcases ih hhas.2 with ⟨hrest, hall⟩ | ⟨role, kind, herr, bad, hbad, hunfit⟩
      · exact .inl ⟨hrest, List.forall_mem_cons.2 ⟨hpart, hall⟩⟩
      · exact .inr ⟨role, kind, herr, bad, List.mem_cons_of_mem _ hbad, hunfit⟩
    · rw [bind_of_error herr]
      obtain ⟨bad, hbad, hunfit⟩ := hunfit
      rw [List.mem_singleton.1 hbad] at hunfit
      exact .inr ⟨role, kind, rfl, part, List.mem_cons_self, hunfit⟩

end Edit

namespace Outcome

/-- Roles are judged before anything else is asked. -/
theorem of_judges {check : Edit Unit} {rest : Edit NodeId} (hcheck : Judges f roles check)
    (hrest : (∀ part ∈ roles, f.Plays part.1 part.2) → Outcome f roles rest) :
    Outcome f roles (do check; rest) := by
  rcases hcheck with ⟨hok, hfit⟩ | ⟨role, kind, herr, hunfit⟩
  · have hrun : (do check; rest) f = rest f := bind_of_ok hok
    cases hrest hfit with
    | made _ free run => exact .made hfit free (hrun.trans run)
    | unfit hunfit run => exact .unfit hunfit (hrun.trans run)
    | taken _ taken run => exact .taken hfit taken (hrun.trans run)
  · exact .unfit hunfit (bind_of_error herr)

/-- After the roles it is asked whether the parts are free; when they are, nothing fails any more. -/
theorem of_check {rest : Edit NodeId} {Q : NodeId → Forest → Prop} (h : f.Realizes s)
    (hhas : ∀ part ∈ roles, f.Has part.2) (hfit : ∀ part ∈ roles, f.Plays part.1 part.2)
    (hfree : f.Free (roles.map (·.2)) →
      (do ask (·.checkAllDetached op [] (roles.map (·.2))); rest : Edit NodeId).Succeeds f Q) :
    Outcome f roles (do ask (·.checkAllDetached op [] (roles.map (·.2))); rest) := by
  by_cases hparts : f.Free (roles.map (·.2))
  · obtain ⟨id, g, hrun, -⟩ := hfree hparts
    exact .made hfit hparts hrun
  · cases hk : f.checkAllDetached op [] (roles.map (·.2)) with
    | ok u => exact absurd (h.checkAllDetached_iff_free.1 hk) hparts
    | error e =>
      have hrun : (do ask (·.checkAllDetached op [] (roles.map (·.2))); rest : Edit NodeId) f = .error e f :=
        bind_of_error (ask_eq_error.2 ⟨hk, rfl⟩)
      obtain ⟨c, hc, he | rfl | rfl⟩ := checkAllDetached_error_cases hk
      · obtain ⟨part, hpart, rfl⟩ := List.mem_map.1 hc
        exact absurd (hhas part hpart) (read_eq_error_iff.1 he).1
      · exact .taken hfit hparts hrun
      · exact .taken hfit hparts hrun

variable {edit : Edit NodeId} {e : Fault}

theorem answer_iff (h : Outcome f roles edit) :
    (∃ id, edit.answer f = .ok id) ↔
      (∀ part ∈ roles, f.Plays part.1 part.2) ∧ f.Free (roles.map (·.2)) := by
  cases h with
  | @made id _ fit free run => exact iff_of_true ⟨id, by rw [answer, run]⟩ ⟨fit, free⟩
  | unfit hunfit run =>
    obtain ⟨part, hpart, hplays⟩ := hunfit
    exact iff_of_false (by simp [answer, run]) fun hall => hplays (hall.1 part hpart)
  | taken _ taken run => exact iff_of_false (by simp [answer, run]) fun hall => taken hall.2

theorem error_cases (h : Outcome f roles edit) (he : edit.answer f = .error e) :
    ((∃ cause, e = .argument cause) ↔ ∃ part ∈ roles, ¬ f.Plays part.1 part.2) ∧
      ((∃ cause, e = .argument cause) ∨ ∃ id op cause, e = .link id op cause) := by
  cases h with
  | made _ _ run =>
    rw [answer, run] at he
    cases he
  | unfit hunfit run =>
    rw [answer, run] at he
    cases he
    exact ⟨iff_of_true ⟨_, rfl⟩ hunfit, .inl ⟨_, rfl⟩⟩
  | taken fit _ run =>
    rw [answer, run] at he
    cases he
    refine ⟨iff_of_false (by simp) ?_, .inr ⟨_, _, _, rfl⟩⟩
    rintro ⟨part, hpart, hplays⟩
    exact hplays (fit part hpart)

end Outcome

theorem Construction.outcome (h : f.Realizes s) {construction : Construction}
    (hvar : ∀ name value, construction ≠ .varDecl name value) (hhas : ∀ x ∈ construction.parts, f.Has x) :
    Outcome f construction.roles construction.run := by
  rw [← construction.map_roles, List.forall_mem_map] at hhas
  have hruns := construction.runs
  generalize construction.run = edit at hruns ⊢
  cases hruns with
  | leaf plain partless =>
    rw [← construction.map_roles, List.map_eq_nil_iff] at partless
    rw [partless]
    exact .made nofun ⟨List.nodup_nil, nofun⟩ (allocate_eq _ f)
  | checked operation =>
    refine .of_judges (expects_judge hhas) fun hfit => ?_
    rw [← construction.map_roles]
    exact .of_check h hhas hfit fun hfree => parentOf_of_free h hfree _ operation
  | declaration name value => exact absurd rfl (hvar name value)
  | access target property =>
    refine .of_judges (expect_judges (hhas _ List.mem_cons_self) .expression) fun hfit => ?_
    exact .of_check h hhas hfit fun hfree =>
      succeeds_ask (h.checkAllDetached_iff_free.2 hfree) (access_succeeds h (hhas _ List.mem_cons_self)
        ((h.free_iff.1 hfree).2.1 target List.mem_cons_self) property)

/-! ## Declarations -/

theorem Forest.plays_declaredName_iff : f.Plays .declaredName name ↔ f.kind name = .ok .identifier := by
  unfold Plays
  simp [Role.accepts]

namespace Edit

theorem exists_answer_iff {α : Type} {edit : Edit α} {Q : α → Forest → Prop} {P : Prop}
    (hl : edit.Leads f Q) (hq : ∀ a g, Q a g → P) (hs : P → edit.Succeeds f Q) :
    (∃ a, edit.answer f = .ok a) ↔ P := by
  constructor
  · rintro ⟨a, ha⟩
    exact hq a _ (hl.ok (answer_eq_ok_iff.1 ha))
  · intro hp
    obtain ⟨a, ha, -⟩ := (hs hp).answer_after
    exact ⟨a, ha⟩

theorem succeeds_expect {α : Type} {Q : α → Forest → Prop} {rest : Edit α} (hplays : f.Plays role id)
    (hrest : rest.Succeeds f Q) : (do expect role id; rest).Succeeds f Q := by
  obtain ⟨kind, hkind, haccepts⟩ := hplays
  obtain ⟨a, g, hrun, hq⟩ := hrest
  have hexpect : expect role id f = .ok () f := by
    unfold expect
    rw [bind_of_ok (ask_eq_ok.2 ⟨hkind, rfl⟩), if_pos haccepts]
    rfl
  exact ⟨a, g, (bind_of_ok hexpect).trans hrun, hq⟩

theorem declare_bare_iff (h : f.Realizes s) (name : NodeId) :
    (∃ id, (declare name none).answer f = .ok id) ↔
      f.kind name = .ok .identifier ∧ f.parent name = .ok none := by
  refine exists_answer_iff (declare_leads h name none) ?_ ?_
  · rintro id g ⟨hplays, hd⟩
    cases hd with
    | bare under =>
      have hname := under.fits.alone name List.mem_cons_self
      exact ⟨plays_declaredName_iff.1 hplays,
        h.parent_eq_none_iff.2 ⟨has_of_read (plays_declaredName_iff.1 hplays), hname⟩⟩
  · rintro ⟨hkind, hparent⟩
    have hfree : f.Free [name] := ⟨List.nodup_singleton name, List.forall_mem_singleton.2 hparent⟩
    have hplays := plays_declaredName_iff.2 hkind
    refine succeeds_expect hplays (succeeds_ask (h.checkAllDetached_iff_free.2 hfree) ?_)
    refine (parentOf_of_free h hfree _ _).mono fun id g hg => ?_
    obtain ⟨rfl, hg⟩ := hg
    exact ⟨hplays, .bare hg⟩

theorem declare_valued_iff (h : f.Realizes s) (name value : NodeId) :
    (∃ id, (declare name (some value)).answer f = .ok id) ↔
      (f.kind name = .ok .identifier ∧ f.parent name = .ok none) ∧ f.children name = .ok [] ∧
        f.Plays .expression value ∧ f.parent value = .ok none ∧ value ≠ name := by
  refine exists_answer_iff (declare_leads h name (some value)) ?_ ?_
  · rintro id g ⟨hplays, hd⟩
    cases hd with
    | valued hvalue hempty hung under =>
      have hne : value ≠ name := hung.fits.ne_parent List.mem_cons_self
      have hname := under.fits.alone name List.mem_cons_self
      rw [Layout.parent_graft, if_neg (by simpa using hne.symm)] at hname
      refine ⟨⟨plays_declaredName_iff.1 hplays, h.parent_eq_none_iff.2 ⟨hung.has_parent, hname⟩⟩, ?_, hvalue,
        h.parent_eq_none_iff.2 ⟨hung.has_child, hung.fits.alone value List.mem_cons_self⟩, hne⟩
      rw [h.children_eq hung.has_parent, hempty]
  · rintro ⟨⟨hkind, hparent⟩, hchildren, hvalue, hfreevalue, hne⟩
    have hfree : f.Free [name] := ⟨List.nodup_singleton name, List.forall_mem_singleton.2 hparent⟩
    obtain ⟨hname, htop⟩ := h.parent_eq_none_iff.1 hparent
    obtain ⟨hhas, halone⟩ := h.parent_eq_none_iff.1 hfreevalue
    rw [h.children_eq hname] at hchildren
    have hempty : s.children name = [] := Except.ok.inj hchildren
    have hbusy : f.hasChildren name = .ok false := by
      refine h.read_eq hname (·.hasChildren) fun n hn => ?_
      simp [Node.hasChildren, hn.firstChild, hempty]
    -- only the name itself is at or above a name without a parent
    have hclear : ¬ s.Covers value name := fun hv => hne ((Layout.covers_of_parentless htop).1 hv).symm
    have hfits := Layout.fits_one (List.append_nil (s.children name)).symm halone hclear
    have hplays := plays_declaredName_iff.2 hkind
    refine succeeds_expect hplays (succeeds_ask (h.checkAllDetached_iff_free.2 hfree) ?_)
    refine succeeds_expect hvalue (succeeds_ask hbusy ?_)
    refine (appendChild_succeeds h hname hhas hfits).bind fun _ g hg => ?_
    refine (declared_succeeds h hg htop).mono fun id g' hg' => ?_
    obtain ⟨rfl, hg'⟩ := hg'
    exact ⟨hplays, .valued hvalue hempty hg hg'⟩

end Edit

/-! ## What constructions take and make -/

/-- Constructions take exactly the parts that they are meant for, and make exactly what they should of them. -/
structure Forest.AssemblesExactly (f : Forest) : Prop where
  accepted : ∀ construction : Construction, (∀ name value, construction ≠ .varDecl name value) →
    (∀ x ∈ construction.parts, f.Has x) →
    ((∃ id, construction.run.answer f = .ok id) ↔
      (∀ part ∈ construction.roles, f.Plays part.1 part.2) ∧ f.Free construction.parts)
  refused : ∀ (construction : Construction) e, (∀ name value, construction ≠ .varDecl name value) →
    (∀ x ∈ construction.parts, f.Has x) → construction.run.answer f = .error e →
    ((∃ cause, e = .argument cause) ↔ ∃ part ∈ construction.roles, ¬ f.Plays part.1 part.2) ∧
      ((∃ cause, e = .argument cause) ∨ ∃ id op cause, e = .link id op cause)
  accepted_bare : ∀ name, (∃ id, (Construction.varDecl name none).run.answer f = .ok id) ↔
    f.kind name = .ok .identifier ∧ f.parent name = .ok none
  accepted_valued : ∀ name value, (∃ id, (Construction.varDecl name (some value)).run.answer f = .ok id) ↔
    (f.kind name = .ok .identifier ∧ f.parent name = .ok none) ∧ f.children name = .ok [] ∧
      f.Plays .expression value ∧ f.parent value = .ok none ∧ value ≠ name
  made : ∀ (construction : Construction) id, construction.plain = true →
    construction.kind.shape = .generic → construction.run.answer f = .ok id →
    f.PutUnder (construction.run.after f) construction.kind id construction.parts
  made_access : ∀ target property id, (Construction.getProp target property).run.answer f = .ok id →
    f.Accessed ((Construction.getProp target property).run.after f) id target property
  made_bare : ∀ name id, (Construction.varDecl name none).run.answer f = .ok id →
    f.PutUnder ((Construction.varDecl name none).run.after f) .varDecl id [name]
  made_valued : ∀ name value id, (Construction.varDecl name (some value)).run.answer f = .ok id →
    f.Declared ((Construction.varDecl name (some value)).run.after f) id name value
  -- what is linked in the end has been checked before the node was allocated
  links : ∀ kind op cs, f.checkAllDetached op [] cs = .ok () →
    (appendChildren f.nextId cs).answer (f.push { kind := kind, payload := .generic }) = .ok ()

namespace Forest.Realizes

theorem putUnder_nil (h : f.Realizes s) (kind : Kind) :
    f.PutUnder (f.push { kind := kind, payload := .generic }) kind f.nextId [] := by
  have hfits : s.Fits f.nextId (s.children f.nextId) [] [] := fits_nextId h nofun nofun List.nodup_nil
  refine Layout.Appends.putUnder h ⟨hfits, nofun, ?_, .refl _⟩
  rw [Layout.graft_nil]
  exact h.push rfl

theorem plain_putUnder (h : f.Realizes s) {construction : Construction} (hplain : construction.plain = true)
    (hshape : construction.kind.shape = .generic) (hrun : construction.run f = .ok id g) :
    f.PutUnder g construction.kind id construction.parts := by
  have hruns := construction.runs
  generalize construction.run = edit at hruns hrun
  cases hruns with
  | @leaf _ payload _ partless shape =>
    have hpayload : payload = .generic := by
      rw [hshape] at shape
      cases payload <;> first | rfl | cases shape
    rw [allocate_eq] at hrun
    cases hrun
    rw [partless, hpayload]
    exact h.putUnder_nil _
  | checked operation =>
    obtain ⟨_, f', hchecks, hparent⟩ := bind_eq_ok.1 hrun
    obtain ⟨rfl, -⟩ := (expects_lead f _).ok hchecks
    obtain ⟨rfl, hg⟩ := (parentOf_leads h _ operation _).ok hparent
    exact hg.putUnder h
  | declaration | access => cases hplain

theorem assemblesExactly (h : f.Realizes s) : f.AssemblesExactly where
  accepted construction hvar hhas := by
    rw [(Construction.outcome h hvar hhas).answer_iff, construction.map_roles]
  refused construction e hvar hhas he := (Construction.outcome h hvar hhas).error_cases he
  accepted_bare := declare_bare_iff h
  accepted_valued := declare_valued_iff h
  made construction id hplain hshape hid := h.plain_putUnder hplain hshape (answer_eq_ok_iff.1 hid)
  made_access target property id hid := by
    obtain ⟨hplays, rfl, hg⟩ := (getProp_leads h target property).ok (answer_eq_ok_iff.1 hid)
    obtain ⟨kind, hkind, -⟩ := hplays
    exact (hg.putUnder (h.push rfl)).accessed (has_of_read hkind)
  made_bare name id hid := by
    obtain ⟨-, hd⟩ := (declare_leads h name none).ok (answer_eq_ok_iff.1 hid)
    cases hd with
    | bare under => exact under.putUnder h
  made_valued name value id hid :=
    ((declare_leads h name (some value)).ok (answer_eq_ok_iff.1 hid)).2.declared h
  links kind op cs hk := by
    obtain ⟨hcs, hp, hd⟩ := h.checkAllDetached_ok_iff.1 hk
    have hnew : (f.push { kind := kind, payload := .generic }).Realizes s := h.push rfl
    obtain ⟨_, hok, -⟩ := (appendChildren_succeeds hnew (f.has_push_nextId _)
      (fun c hc => (hcs c hc).push _) (fits_nextId h hcs hp hd)).answer_after
    exact hok

end Forest.Realizes

/-- In every reachable forest constructions take and make exactly what they should. -/
theorem reachable_assemblesExactly (hf : f.Reachable) : f.AssemblesExactly := by
  obtain ⟨s, h⟩ := hf.realizes
  exact h.assemblesExactly

/-- A name, a second one, two expressions and a block, none of them under another. -/
def partsSample : Forest :=
  Command.runAll [.construct (.identifier "f"), .construct (.identifier "x"), .construct .thisRef,
    .construct .nullLit, .construct (.block [])] .empty

-- a target that is also an argument, a block as an argument, and a name as its own value are refused
theorem partsSample_assemblesExactly :
    partsSample.AssemblesExactly ∧
      (Construction.call ⟨0⟩ [⟨2⟩, ⟨3⟩]).run.answer partsSample = .ok ⟨5⟩ ∧
      (Construction.call ⟨0⟩ [⟨2⟩, ⟨0⟩]).run.answer partsSample = .error (.link ⟨0⟩ .call .listedTwice) ∧
      (Construction.call ⟨0⟩ [⟨0⟩, ⟨4⟩]).run.answer partsSample = .error (.argument (.unfit .argument .block)) ∧
      (Construction.varDecl ⟨1⟩ (some ⟨3⟩)).run.answer partsSample = .ok ⟨5⟩ ∧
      (Construction.varDecl ⟨1⟩ (some ⟨1⟩)).run.answer partsSample =
        .error (.link ⟨1⟩ .appendChild .ownParent) :=
  ⟨reachable_assemblesExactly (Reachable.empty.runAll _), by decide +kernel, by decide +kernel,
    by decide +kernel, by decide +kernel, by decide +kernel⟩

end SyntaxForest
