import SyntaxForest.Proofs.PayloadAccess
import SyntaxForest.Proofs.PropertyText
import SyntaxForest.Proofs.Worklists
/-!
# What the text of a node depends on

The text of a node is made from its kind, its payload, the name of a function, and whatever of its line,
properties and type is asked for. Nothing else of the forest shows in it: two nodes that agree in these read the
same, in whatever forests they stand and however they came about.
-/

namespace SyntaxForest

open Edit

variable {f g : Forest} {options : RenderOptions} {a b id x : NodeId} {m n : Node} {written : List NodeId}

/-! ## Properties come from changes -/

namespace Forest

/-- The properties of each node are what some changes made of none. -/
def Recorded (f : Forest) : Prop :=
  ∀ id n, f.node id = .ok n → ∃ changes, n.properties = PropertyList.ofChanges changes

theorem Recorded.nodup_keys (hf : f.Recorded) (hn : f.node id = .ok n) : n.properties.keys.Nodup := by
  obtain ⟨changes, hchanges⟩ := hf _ n hn
  rw [hchanges]
  exact (PropertyList.tracks_ofChanges changes).nodup

theorem Recorded.push (hf : f.Recorded) (hn : ∃ changes, n.properties = PropertyList.ofChanges changes) :
    (f.push n).Recorded := by
  intro x m hm
  rcases node_push hm with hm | ⟨-, rfl⟩
  · exact hf x m hm
  · exact hn

theorem Recorded.change {update : Node → Node} (hf : f.Recorded)
    (hu : ∀ n, (update n).properties = n.properties ∨
      ∃ c : PropertyChange, (update n).properties = c.apply n.properties) :
    ((Edit.change id update).after f).Recorded := by
  intro x m hm
  obtain ⟨n, hn, rfl⟩ := (rewritten_after_change id update f).exists_node hm
  obtain ⟨changes, hchanges⟩ := hf _ n hn
  split
  · rcases hu n with he | ⟨c, hc⟩
    · exact ⟨changes, he.trans hchanges⟩
    · refine ⟨changes ++ [c], ?_⟩
      rw [hc, hchanges, PropertyList.ofChanges, PropertyList.ofChanges, List.foldl_concat]
  · exact ⟨changes, hchanges⟩

theorem Write.recorded (h : f.Write written g) (hf : f.Recorded) : g.Recorded := by
  cases h with
  | @relink id update same =>
    refine hf.change fun n => .inl ?_
    show (update n).detachedCopy.properties = n.detachedCopy.properties
    rw [same]
  | create => exact hf.push ⟨[], rfl⟩
  | @copy id n original =>
    have hn : ∃ changes, n.properties = PropertyList.ofChanges changes := hf id n original
    exact hf.push hn
  | setPayload | setPosition | setTypeText => exact hf.change fun _ => .inl rfl
  | setProperties id c => exact hf.change fun _ => .inr ⟨c, rfl⟩

theorem Reachable.recorded (hf : f.Reachable) : f.Recorded := by
  apply hf.of_writes
  · exact fun _ _ hn => nomatch Has.of_node hn
  · exact fun hwrite => hwrite.recorded

/-! ## What the text is made from -/

theorem view_eq_of_read {α : Type} {view : Node → α} {a : α} (hn : f.node id = .ok n)
    (h : (return view (← f.node id) : Except Fault α) = .ok a) : view n = a := by
  rw [hn] at h
  exact Except.ok.inj h

/-- The first child of a node has the text `name`. -/
def Named (f : Forest) (id : NodeId) (name : String) : Prop :=
  ∃ first, f.firstChild id = .ok (some first) ∧ f.text first = .ok name

/-- A function shows the text of its first child, unless that is empty. -/
theorem Realizes.functionName?_eq {s : Layout} (h : f.Realizes s) (hn : f.node id = .ok n) :
    ∃ name, f.functionName? n = .ok name ∧ ∀ text, name = some text ↔ f.Named id text ∧ text ≠ "" := by
  have hlink : f.firstChild id = .ok n.firstChild := read_eq_ok_iff.2 ⟨n, hn, rfl⟩
  unfold functionName? Named
  rw [hlink]
  cases hfirst : n.firstChild with
  | none => exact ⟨none, rfl, by simp⟩
  | some first =>
    rw [(h.links hn).firstChild] at hfirst
    obtain ⟨m, hm⟩ := has_iff_node.1 (h.has_child (List.mem_of_head? hfirst))
    have hpayload : f.payload first = .ok m.payload := read_eq_ok_iff.2 ⟨m, hm, rfl⟩
    refine ⟨m.payload.text?.filter (!·.isEmpty), ?_, fun text => ?_⟩
    · simp only [hpayload, bind, Except.bind, pure, Except.pure]
    have htext : f.text first = .ok text ↔ m.payload.text? = some text := by
      rw [text_eq_ok_iff]
      cases hp : m.payload <;> simp [hm, hp, Payload.text?]
    simp [htext, Option.filter_eq_some_iff]

/-- Nodes with the same parts have the same text. -/
theorem renderNode_congr (hm : f.node a = .ok m) (hn : g.node b = .ok n) (hkind : m.kind = n.kind)
    (hpayload : m.payload = n.payload)
    (hname : m.kind = .function → f.functionName? m = g.functionName? n)
    (hline : options.source = true → renderLine m = renderLine n)
    (hproperties : options.annotations = true → m.properties.render = n.properties.render)
    (htype : options.types = true → m.typeText = n.typeText) :
    f.renderNode options a = g.renderNode options b := by
  have hshown : f.renderPayload m = g.renderPayload n := by
    unfold renderPayload
    rw [← hpayload, ← hkind]
    by_cases hfunction : m.kind.isFunction = true
    · rw [hname (by simpa [Kind.isFunction] using hfunction)]
    · simp [hfunction]
  have hlines : (if options.source then renderLine m else "") = if options.source then renderLine n else "" :=
    ite_congr rfl hline fun _ => rfl
  have htexts : (if options.annotations then m.properties.render else "") =
      if options.annotations then n.properties.render else "" := ite_congr rfl hproperties fun _ => rfl
  have htypes : (if options.types then renderType m else "") = if options.types then renderType n else "" := by
    refine ite_congr rfl (fun htypes => ?_) fun _ => rfl
    rw [renderType, renderType, htype htypes]
  unfold renderNode
  rw [hm, hn]
  simp only [bind, Except.bind, hshown, hlines, htexts, htypes, hkind]

/-! ## Nodes that read the same -/

/-- What is to be shown of `a` in `f` is what is to be shown of `b` in `g`. -/
structure LooksLike (f : Forest) (options : RenderOptions) (a : NodeId) (g : Forest) (b : NodeId) : Prop where
  kind : ∃ kind, f.kind a = .ok kind ∧ g.kind b = .ok kind
  payload : ∃ payload, f.payload a = .ok payload ∧ g.payload b = .ok payload
  /-- The lists count as equal, whatever their order. -/
  properties : options.annotations = true →
    ∃ l l', f.properties a = .ok l ∧ g.properties b = .ok l' ∧ l.same l' = true
  /-- The columns may differ. -/
  line : options.source = true → ∃ p q, f.position a = .ok p ∧ g.position b = .ok q ∧
    (p.line = q.line ∨ p.isKnown = false ∧ q.isKnown = false)
  type : options.types = true → ∃ text, f.typeText a = .ok text ∧ g.typeText b = .ok text
  /-- Functions have first children with the same text, or neither has one with a text to show. -/
  name : f.kind a = .ok .function → (∃ name, f.Named a name ∧ g.Named b name) ∨
    (∀ name, f.Named a name → name = "") ∧ ∀ name, g.Named b name → name = ""

theorem Named.unique {name name' : String} (h : f.Named id name) (h' : f.Named id name') : name = name' := by
  obtain ⟨first, hfirst, hname⟩ := h
  obtain ⟨first', hfirst', hname'⟩ := h'
  rw [hfirst] at hfirst'
  cases hfirst'
  exact Except.ok.inj (hname.symm.trans hname')

theorem LooksLike.named_iff (h : f.LooksLike options a g b) (hkind : f.kind a = .ok .function) {text : String}
    (htext : text ≠ "") : f.Named a text ↔ g.Named b text := by
  rcases h.name hkind with ⟨name, ha, hb⟩ | ⟨ha, hb⟩
  · constructor
    · intro htext
      rwa [htext.unique ha]
    · intro htext
      rwa [htext.unique hb]
  · exact ⟨fun hname => absurd (ha text hname) htext, fun hname => absurd (hb text hname) htext⟩

/-- A position without a line is an unknown one, so positions with the same line show the same. -/
theorem renderLine_congr (h : m.position.line = n.position.line ∨
      m.position.isKnown = false ∧ n.position.isKnown = false) : renderLine m = renderLine n := by
  have hline : m.position.line = n.position.line := by
    rcases h with h | ⟨hm, hn⟩
    · exact h
    · simp_all [Position.isKnown, Position.line]
  unfold renderLine
  rw [hline]

theorem LooksLike.renderNode_eq (hf : f.Reachable) (hg : g.Reachable) (h : f.LooksLike options a g b) :
    ∃ text, f.renderNode options a = .ok text ∧ g.renderNode options b = .ok text := by
  obtain ⟨s, hs⟩ := hf.realizes
  obtain ⟨t, ht⟩ := hg.realizes
  obtain ⟨kind, ha, hb⟩ := h.kind
  obtain ⟨m, hm, rfl⟩ := read_eq_ok_iff.1 ha
  obtain ⟨n, hn, hkind⟩ := read_eq_ok_iff.1 hb
  obtain ⟨text, htext⟩ := hs.renderNode_ok options (.of_node hm)
  refine ⟨text, htext, ?_⟩
  rw [← htext, eq_comm]
  apply renderNode_congr hm hn hkind.symm
  · obtain ⟨payload, hp, hq⟩ := h.payload
    exact (view_eq_of_read hm hp).trans (view_eq_of_read hn hq).symm
  · intro hfunction
    obtain ⟨name, hname, hiff⟩ := hs.functionName?_eq hm
    obtain ⟨name', hname', hiff'⟩ := ht.functionName?_eq hn
    rw [hname, hname']
    congr 1
    apply Option.ext
    intro text
    rw [hiff, hiff']
    exact and_congr_left (h.named_iff (by rw [ha, hfunction]))
  · intro hsource
    obtain ⟨p, q, hp, hq, hline⟩ := h.line hsource
    obtain rfl := view_eq_of_read hm hp
    obtain rfl := view_eq_of_read hn hq
    exact renderLine_congr hline
  · intro hannotations
    obtain ⟨l, l', hl, hl', hsame⟩ := h.properties hannotations
    obtain rfl := view_eq_of_read hm hl
    obtain rfl := view_eq_of_read hn hl'
    exact PropertyList.render_of_same (hf.recorded.nodup_keys hm) (hg.recorded.nodup_keys hn) hsame
  · intro htypes
    obtain ⟨text, hp, hq⟩ := h.type htypes
    exact (view_eq_of_read hm hp).trans (view_eq_of_read hn hq).symm

end Forest

/-! ## Changes of properties that do not show -/

/-- The command that makes a change at a node. -/
def PropertyChange.command (id : NodeId) : PropertyChange → Command
  | .putBool key value => .putBool id key value
  | .putInt key value => .putInt id key value
  | .putObject key value => .putObject id key value
  | .remove key => .removeProperty id key

namespace Forest

/-- `g` is `f` with the properties of `id` changed. -/
def Repropertied (f : Forest) (id : NodeId) (update : PropertyList → PropertyList) (g : Forest) : Prop :=
  f.Rewritten g fun x n => if x = id then { n with properties := update n.properties } else n

theorem repropertied_self (f : Forest) (id : NodeId) : f.Repropertied id (fun l => l) f := by
  intro x
  cases f.node x <;> simp [Except.map]

theorem repropertied_command (f : Forest) (id : NodeId) (c : PropertyChange) :
    f.Repropertied id c.apply ((c.command id).run.after f) := by
  have hrun : (c.command id).run.after f = (changeProperties id c.apply).after f := by
    cases c <;> exact after_done _ f
  rw [hrun]
  exact rewritten_after_change id _ f

theorem repropertied_runAll (f : Forest) (id : NodeId) (changes : List PropertyChange) :
    f.Repropertied id (fun l => changes.foldl (fun l c => c.apply l) l)
      (Command.runAll (changes.map (·.command id)) f) := by
  induction changes generalizing f with
  | nil => exact f.repropertied_self id
  | cons c changes ih =>
    apply ((f.repropertied_command id c).trans (ih _)).congr
    intro x n _
    split <;> rfl

/-- Changes that lead to the same text of the properties lead to the same text of every node. -/
theorem Repropertied.renderNode_eq {h : Forest} {update update' : PropertyList → PropertyList}
    (hg : f.Repropertied id update g) (hh : f.Repropertied id update' h)
    (htext : ∀ n, f.node id = .ok n → (update n.properties).render = (update' n.properties).render)
    (options : RenderOptions) (x : NodeId) : g.renderNode options x = h.renderNode options x := by
  -- the name of a function is read from another node, of which only the payload counts
  have hpayload : ∀ y, g.payload y = h.payload y := by
    intro y
    unfold payload
    rw [hg, hh]
    cases f.node y with
    | error e => rfl
    | ok n =>
      simp only [Except.map]
      split <;> rfl
  cases hx : f.node x with
  | error e =>
    unfold renderNode
    rw [hg, hh, hx]
    rfl
  | ok n =>
    have hgx := hg.node hx
    have hhx := hh.node hx
    by_cases he : x = id
    · subst he
      simp only [if_true] at hgx hhx
      apply renderNode_congr hgx hhx rfl rfl
      · intro _
        simp only [functionName?, hpayload]
      · exact fun _ => rfl
      · exact fun _ => htext n hx
      · exact fun _ => rfl
    · simp only [he, if_false] at hgx hhx
      apply renderNode_congr hgx hhx rfl rfl
      · intro _
        simp only [functionName?, hpayload]
      all_goals exact fun _ => rfl

/-- The changes of different keys may come in any order. -/
theorem Recorded.renderNode_runAll (hf : f.Recorded) {changes changes' : List PropertyChange}
    (h : ∀ key, changes.filter (·.key = key) = changes'.filter (·.key = key)) :
    (Command.runAll (changes.map (·.command id)) f).renderNode options x =
      (Command.runAll (changes'.map (·.command id)) f).renderNode options x := by
  apply (f.repropertied_runAll id changes).renderNode_eq (f.repropertied_runAll id changes')
  intro n hn
  -- the changes come behind those that have made the list, so the whole histories are compared
  obtain ⟨made, hmade⟩ := hf id n hn
  have hbehind : ∀ changes : List PropertyChange,
      changes.foldl (fun l c => c.apply l) n.properties = PropertyList.ofChanges (made ++ changes) := by
    intro changes
    rw [hmade, PropertyList.ofChanges, PropertyList.ofChanges, List.foldl_append]
  rw [hbehind, hbehind]
  apply PropertyList.render_ofChanges_congr
  intro key
  rw [List.filter_append, List.filter_append, h key]

theorem Recorded.renderNode_putObject (hf : f.Recorded) {key : PropertyKey} {l : PropertyList}
    {object other : PropertyObject} (hl : f.properties id = .ok l) (hobject : l.getObject? key = some object)
    (h : object.Indistinct other) :
    ((Command.putObject id key other).run.after f).renderNode options x = f.renderNode options x := by
  apply (f.repropertied_command id (.putObject key other)).renderNode_eq (f.repropertied_self id)
  intro n hn
  obtain rfl := view_eq_of_read hn hl
  exact PropertyList.render_putObject (hf.nodup_keys hn) hobject h

/-- What the properties add to the text of a node stands in one piece: each property that is set, once, by
strictly ascending key. -/
def Annotates (f : Forest) (options : RenderOptions) (id : NodeId) (l : PropertyList) : Prop :=
  ∃ (before after : String) (shown : List Property),
    f.renderNode { options with annotations := false } id = .ok (before ++ after) ∧
      f.renderNode { options with annotations := true } id =
        .ok (before ++ String.join (shown.map Property.shown) ++ after) ∧
      shown.Pairwise (fun p q => p.key.id < q.key.id) ∧ ∀ p, p ∈ shown ↔ l.find? p.key = some p

theorem Recorded.annotates (hf : f.Recorded) {s : Layout} (hs : f.Realizes s) {l : PropertyList}
    (hl : f.properties id = .ok l) (options : RenderOptions) : f.Annotates options id l := by
  obtain ⟨n, hn, rfl⟩ := read_eq_ok_iff.1 hl
  obtain ⟨payload, hpayload⟩ := hs.renderPayload_ok hn
  refine ⟨n.kind.name ++ payload ++ (if options.source then renderLine n else ""),
    if options.types then renderType n else "", n.properties.ordered, ?_, ?_,
    PropertyList.ordered_strict (hf.nodup_keys hn), fun p => PropertyList.mem_ordered_iff⟩
  · simp [renderNode, hn, hpayload, bind, Except.bind, pure, Except.pure]
  · rw [← PropertyList.render_eq]
    simp [renderNode, hn, hpayload, bind, Except.bind, pure, Except.pure]

/-! ## Discretion -/

/-- The texts of nodes give away nothing but what they are there to show. -/
structure Discreet (f : Forest) : Prop where
  /-- What is to be shown decides the text, in whatever forests the nodes stand. -/
  looks : ∀ {options a g b}, g.Reachable → f.LooksLike options a g b →
    ∃ text, f.renderNode options a = .ok text ∧ g.renderNode options b = .ok text
  /-- Properties that are set and unset in another order, though not for one key, lead to the same texts. -/
  history : ∀ {id} {changes changes' : List PropertyChange},
    (∀ key, changes.filter (·.key = key) = changes'.filter (·.key = key)) → ∀ options x,
      (Command.runAll (changes.map (·.command id)) f).renderNode options x =
        (Command.runAll (changes'.map (·.command id)) f).renderNode options x
  /-- A node or a value of another owner in a property can be exchanged unseen, also for a node that does not
  exist. -/
  targets : ∀ {id key l} {object other : PropertyObject}, f.properties id = .ok l → l.getObject? key = some object →
    object.Indistinct other → ∀ options x,
      ((Command.putObject id key other).run.after f).renderNode options x = f.renderNode options x
  keys : ∀ {id l}, f.properties id = .ok l → ∀ options, f.Annotates options id l

end Forest

/-- In a reachable forest the text of a node depends only on what it is there to show. -/
theorem reachable_discreet (hf : f.Reachable) : f.Discreet where
  looks hg h := h.renderNode_eq hf hg
  history h _ _ := hf.recorded.renderNode_runAll h
  targets hl hobject h _ _ := hf.recorded.renderNode_putObject hl hobject h
  keys hl options := by
    obtain ⟨s, hs⟩ := hf.realizes
    exact hf.recorded.annotates hs hl options

/-- A function on line 3 with properties, one of which points at a node that does not exist. -/
def annotatedForest : Forest :=
  Command.runAll [.construct (.identifier "f"), .newNode .function (.ofLineColumn 3 1),
    .appendChild ⟨1⟩ ⟨0⟩, .putInt ⟨1⟩ .length 7, .putObject ⟨1⟩ .jsdocInfo (.node ⟨99⟩),
    .setTypeText ⟨1⟩ (some "number")] .empty

/-- A function that reads the same, from another run: it stands in a script and in another column, its name is
another node, and the properties were set in the other order. -/
def reorderedForest : Forest :=
  Command.runAll [.newNode .function (.ofLineColumn 3 8), .construct .thisRef, .construct (.exprResult ⟨1⟩),
    .construct (.identifier "f"), .appendChild ⟨0⟩ ⟨3⟩, .construct (.script [⟨2⟩, ⟨0⟩]),
    .putObject ⟨0⟩ .jsdocInfo (.node ⟨99⟩), .putInt ⟨0⟩ .length 6, .setTypeText ⟨0⟩ (some "number"),
    .putInt ⟨0⟩ .length 7] .empty

theorem annotatedForest_discreet :
    annotatedForest.LooksLike .all ⟨1⟩ reorderedForest ⟨0⟩ ∧
      annotatedForest.properties ⟨1⟩ ≠ reorderedForest.properties ⟨0⟩ ∧
      (∃ text, annotatedForest.renderNode .all ⟨1⟩ = .ok text ∧ reorderedForest.renderNode .all ⟨0⟩ = .ok text) ∧
      annotatedForest.renderNode ⟨true, false, true⟩ ⟨1⟩ = .ok "FUNCTION f 3 : number" ∧
      ((Command.putObject ⟨1⟩ .jsdocInfo (.node ⟨0⟩)).run.after annotatedForest).renderNode .all ⟨1⟩ =
        annotatedForest.renderNode .all ⟨1⟩ ∧
      annotatedForest.Annotates .all ⟨1⟩ ⟨[⟨.jsdocInfo, 0, some (.node ⟨99⟩)⟩, ⟨.length, 7, none⟩]⟩ := by
  have hdiscreet := reachable_discreet (f := annotatedForest) (Forest.Reachable.empty.runAll _)
  have hproperties : annotatedForest.properties ⟨1⟩ =
      .ok ⟨[⟨.jsdocInfo, 0, some (.node ⟨99⟩)⟩, ⟨.length, 7, none⟩]⟩ := by decide +kernel
  have hlooks : annotatedForest.LooksLike .all ⟨1⟩ reorderedForest ⟨0⟩ :=
    { kind := ⟨.function, by decide +kernel, by decide +kernel⟩
      payload := ⟨.generic, by decide +kernel, by decide +kernel⟩
      properties := fun _ => ⟨_, ⟨[⟨.length, 7, none⟩, ⟨.jsdocInfo, 0, some (.node ⟨99⟩)⟩]⟩, hproperties,
        by decide +kernel, by decide⟩
      line := fun _ => ⟨.ofLineColumn 3 1, .ofLineColumn 3 8, by decide +kernel, by decide +kernel,
        .inl (by decide +kernel)⟩
      type := fun _ => ⟨some "number", by decide +kernel, by decide +kernel⟩
      name := fun _ => .inl ⟨"f", ⟨⟨0⟩, by decide +kernel, by decide +kernel⟩,
        ⟨⟨3⟩, by decide +kernel, by decide +kernel⟩⟩ }
  exact ⟨hlooks, by decide +kernel, hdiscreet.looks (Forest.Reachable.empty.runAll _) hlooks, by decide +kernel,
    hdiscreet.targets hproperties rfl (.node _ _) .all ⟨1⟩, hdiscreet.keys hproperties .all⟩

-- an empty name is not shown, and neither is an unknown line
example :
    (Command.runAll [.newText .identifier (some "") .unknown, .newNode .function .unknown,
      .appendChild ⟨1⟩ ⟨0⟩] .empty).renderNode ⟨true, false, true⟩ ⟨1⟩ = .ok "FUNCTION" := by decide +kernel

end SyntaxForest
