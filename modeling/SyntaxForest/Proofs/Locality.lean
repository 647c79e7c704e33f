import Mathlib.Data.Set.Basic
import SyntaxForest.Command
import SyntaxForest.Proofs.Effects
/-!
# Edits that stay inside a region

A region is a set of nodes that no link leads out of. An edit that begins inside a region and goes along
links finds nothing else, so what it answers and what it makes of the region depend on the region alone, and
it leaves everything outside as it was. This holds read by read and write by write, and needs nothing of the
forest but that the region is closed. Every command that allocates nothing stays inside a region that has the
nodes it names.
-/

namespace SyntaxForest

variable {α β : Type} {region : Set NodeId} {f g : Forest} {p c id sibling : NodeId} {n : Node}
  {cs : List NodeId}

/-! ## Regions -/

/-- A link that leads into the region, if anywhere. -/
def Into (region : Set NodeId) (link : Option NodeId) : Prop := ∀ id, link = some id → id ∈ region

/-- No link of the node leads out of the region. -/
structure Node.Inside (n : Node) (region : Set NodeId) : Prop where
  parent : Into region n.parent
  firstChild : Into region n.firstChild
  lastChild : Into region n.lastChild
  nextSibling : Into region n.nextSibling

theorem into_none : Into region none := by
  intro id h
  cases h

theorem into_some (hid : id ∈ region) : Into region (some id) := by
  rintro _ ⟨⟩
  exact hid

theorem Into.ite {q : Prop} [Decidable q] {a b : Option NodeId} (ha : Into region a)
    (hb : Into region b) : Into region (if q then a else b) := by
  split
  · exact ha
  · exact hb

theorem Into.or {a b : Option NodeId} (ha : Into region a) (hb : Into region b) :
    Into region (a.or b) := by
  cases a with
  | none => exact hb
  | some id => exact ha

theorem Node.Inside.of_links {m : Node} (h : n.Inside region) (hl : Forest.links m = Forest.links n) :
    m.Inside region := by
  simp only [Forest.links, List.cons.injEq, and_true] at hl
  obtain ⟨hp, hf, hb, hn⟩ := hl
  exact ⟨hp ▸ h.parent, hf ▸ h.firstChild, hb ▸ h.lastChild, hn ▸ h.nextSibling⟩

namespace Forest

/-- No link leads out of the region. -/
def Closed (f : Forest) (region : Set NodeId) : Prop :=
  ∀ id n, id ∈ region → f.node id = .ok n → n.Inside region

/-- The two forests are equally large, and the nodes of the region have the same records in both. -/
structure AgreeOn (f g : Forest) (region : Set NodeId) : Prop where
  size : g.size = f.size
  node : ∀ id ∈ region, g.node id = f.node id

theorem AgreeOn.refl (f : Forest) (region : Set NodeId) : f.AgreeOn f region := ⟨rfl, fun _ _ => rfl⟩

theorem AgreeOn.trans {h : Forest} (h₁ : f.AgreeOn g region) (h₂ : g.AgreeOn h region) :
    f.AgreeOn h region :=
  ⟨h₂.size.trans h₁.size, fun id hid => (h₂.node id hid).trans (h₁.node id hid)⟩

theorem Closed.congr (h : f.Closed region) (hfg : f.AgreeOn g region) : g.Closed region := by
  intro id n hid hn
  rw [hfg.node id hid] at hn
  exact h id n hid hn

end Forest

/-! ## Queries that look at the region only -/

/-- The query looks at the region only, and its answer satisfies `P`. -/
def ReadsIn (region : Set NodeId) (query : Forest → Except Fault α) (P : α → Prop) : Prop :=
  ∀ f g, f.Closed region → f.AgreeOn g region → query g = query f ∧ ∀ a, query f = .ok a → P a

section Queries

variable {P : α → Prop} {Q : β → Prop}

theorem reads_ok {a : α} (h : P a) : ReadsIn region (fun _ => .ok a) P := by
  intro f g _ _
  refine ⟨rfl, fun b hb => ?_⟩
  cases hb
  exact h

theorem reads_error (e : Fault) : ReadsIn region (fun _ => .error e) P := by
  intro f g _ _
  exact ⟨rfl, nofun⟩

theorem ReadsIn.bind {query : Forest → Except Fault α} {k : α → Forest → Except Fault β}
    (h : ReadsIn region query P) (hk : ∀ a, P a → ReadsIn region (k a) Q) :
    ReadsIn region (fun f => query f >>= fun a => k a f) Q := by
  intro f g hf hfg
  obtain ⟨heq, hP⟩ := h f g hf hfg
  simp only [heq]
  cases hq : query f with
  | error e => exact ⟨rfl, nofun⟩
  | ok a => exact hk a (hP a hq) f g hf hfg

theorem ReadsIn.ite {q : Prop} [Decidable q] {a b : Forest → Except Fault α} (ha : ReadsIn region a P)
    (hb : ReadsIn region b P) : ReadsIn region (fun f => if q then a f else b f) P := by
  by_cases hq : q
  · simpa [hq] using ha
  · simpa [hq] using hb

theorem reads_node (hid : id ∈ region) : ReadsIn region (·.node id) (·.Inside region) := by
  intro f g hf hfg
  exact ⟨hfg.node id hid, fun n hn => hf id n hid hn⟩

theorem reads_view (hid : id ∈ region) (view : Node → α) (hv : ∀ n, n.Inside region → P (view n)) :
    ReadsIn region (fun f => return view (← f.node id)) P :=
  (reads_node hid).bind fun n hn => reads_ok (hv n hn)

theorem reads_parent (hid : id ∈ region) : ReadsIn region (·.parent id) (Into region) :=
  reads_view hid (·.parent) fun _ hn => hn.parent

theorem reads_firstChild (hid : id ∈ region) : ReadsIn region (·.firstChild id) (Into region) :=
  reads_view hid (·.firstChild) fun _ hn => hn.firstChild

theorem reads_lastChild (hid : id ∈ region) : ReadsIn region (·.lastChild id) (Into region) :=
  reads_view hid (·.lastChild) fun _ hn => hn.lastChild

theorem reads_nextSibling (hid : id ∈ region) : ReadsIn region (·.nextSibling id) (Into region) :=
  reads_view hid (·.nextSibling) fun _ hn => hn.nextSibling

end Queries

/-- Following links from inside the region stays inside. -/
theorem reads_follow {link : Node → Option NodeId} (hlink : ∀ n, n.Inside region → Into region (link n))
    {start : Option NodeId} {met : List NodeId} (hstart : Into region start) (hmet : ∀ id ∈ met, id ∈ region)
    (steps : Nat) :
    ReadsIn region (fun f => f.follow link steps start met) fun ids => ∀ id ∈ ids, id ∈ region := by
  induction steps generalizing start met with
  | zero =>
    cases start with
    | none => exact reads_ok fun id hid => hmet id (List.mem_reverse.1 hid)
    | some id => exact reads_error _
  | succ steps ih =>
    cases start with
    | none => exact reads_ok fun id hid => hmet id (List.mem_reverse.1 hid)
    | some id =>
      have hid := hstart id rfl
      exact (reads_node hid).bind fun n hn => ih (hlink n hn) (List.forall_mem_cons.2 ⟨hid, hmet⟩)

theorem reads_walk {link : Node → Option NodeId} (hlink : ∀ n, n.Inside region → Into region (link n))
    {start : Option NodeId} (hstart : Into region start) :
    ReadsIn region (fun f => f.follow link f.size start []) fun ids => ∀ id ∈ ids, id ∈ region := by
  intro f g hf hfg
  have hnone : ∀ id ∈ ([] : List NodeId), id ∈ region := nofun
  have hsteps := reads_follow hlink hstart hnone f.size f g hf hfg
  simpa only [hfg.size] using hsteps

theorem reads_children (hid : id ∈ region) :
    ReadsIn region (·.children id) fun ids => ∀ id ∈ ids, id ∈ region :=
  (reads_firstChild hid).bind fun _ hfirst => reads_walk (fun _ hn => hn.nextSibling) hfirst

theorem reads_ancestors (hid : id ∈ region) :
    ReadsIn region (·.ancestors id) fun ids => ∀ id ∈ ids, id ∈ region :=
  (reads_parent hid).bind fun _ hp => reads_walk (fun _ hn => hn.parent) hp

theorem mem_of_predecessor? {a : NodeId} (h : Forest.predecessor? id cs = some a) : a ∈ cs := by
  induction cs with
  | nil => cases h
  | cons b cs ih =>
    cases cs with
    | nil => cases h
    | cons d cs =>
      unfold Forest.predecessor? at h
      split at h
      · cases h
        exact List.mem_cons_self
      · exact List.mem_cons_of_mem _ (ih h)

theorem reads_previousSibling (hid : id ∈ region) :
    ReadsIn region (·.previousSibling id) (Into region) := by
  refine (reads_parent hid).bind fun parent hp => ?_
  cases parent with
  | none => exact reads_ok into_none
  | some p =>
    exact (reads_children (hp p rfl)).bind fun ids hids =>
      reads_ok fun a ha => hids a (mem_of_predecessor? ha)

theorem reads_isAncestorOf (hid : id ∈ region) (a : NodeId) :
    ReadsIn region (·.isAncestorOf a id) fun _ => True :=
  (reads_ancestors hid).bind fun _ _ => reads_ok trivial

theorem reads_checkAttachable (hp : p ∈ region) (hc : c ∈ region) (op : Operation) :
    ReadsIn region (·.checkAttachable op p c) fun _ => True := by
  refine (reads_node hc).bind fun n _ => ?_
  refine .ite (reads_error _) (.ite (reads_error _) (.ite (reads_error _) (.ite ?_ (reads_ok trivial))))
  exact (reads_isAncestorOf hp c).bind fun _ _ => .ite (reads_error _) (reads_ok trivial)

theorem reads_checkAllAttachable (hp : p ∈ region) (hcs : ∀ c ∈ cs, c ∈ region) (op : Operation)
    (seen : List NodeId) : ReadsIn region (·.checkAllAttachable op p seen cs) fun _ => True := by
  induction cs generalizing seen with
  | nil => exact reads_ok trivial
  | cons c cs ih =>
    rw [List.forall_mem_cons] at hcs
    refine (reads_checkAttachable hp hcs.1 op).bind fun _ _ => ?_
    exact .ite (reads_error _) (ih hcs.2 _)

/-! ## Edits that stay inside the region -/

namespace Edit

variable {P : α → Prop} {Q : β → Prop}

/-- The edit stays inside the region, whatever the forest is outside: it keeps the region closed and changes
nothing outside, what it answers and makes of the region is decided by the region, and its answer satisfies
`P`. -/
structure Local (edit : Edit α) (region : Set NodeId) (P : α → Prop := fun _ => True) : Prop where
  closed : ∀ {f : Forest}, f.Closed region → (edit.after f).Closed region
  outside : ∀ {f : Forest}, f.Closed region → f.AgreeOn (edit.after f) regionᶜ
  answer : ∀ {f g : Forest}, f.Closed region → f.AgreeOn g region → edit.answer g = edit.answer f
  inside : ∀ {f g : Forest}, f.Closed region → f.AgreeOn g region →
    (edit.after f).AgreeOn (edit.after g) region
  value : ∀ {f : Forest} {a : α}, f.Closed region → edit.answer f = .ok a → P a

theorem local_pure {a : α} (h : P a) : (pure a : Edit α).Local region P where
  closed hf := hf
  outside _ := .refl _ _
  answer _ _ := rfl
  inside _ hfg := hfg
  value _ ha := by
    cases ha
    exact h

theorem local_throw (e : Fault) : (throw e : Edit α).Local region P where
  closed hf := hf
  outside _ := .refl _ _
  answer _ _ := rfl
  inside _ hfg := hfg
  value _ ha := nomatch ha

theorem Local.bind {edit : Edit α} {k : α → Edit β} (h : edit.Local region P)
    (hk : ∀ a, P a → (k a).Local region Q) : (edit >>= k).Local region Q where
  closed {f} hf := by
    rw [after_bind]
    cases ha : edit.answer f with
    | error e => exact h.closed hf
    | ok a => exact (hk a (h.value hf ha)).closed (h.closed hf)
  outside {f} hf := by
    rw [after_bind]
    cases ha : edit.answer f with
    | error e => exact h.outside hf
    | ok a => exact (h.outside hf).trans ((hk a (h.value hf ha)).outside (h.closed hf))
  answer {f g} hf hfg := by
    rw [answer_bind, answer_bind, h.answer hf hfg]
    cases ha : edit.answer f with
    | error e => rfl
    | ok a => exact (hk a (h.value hf ha)).answer (h.closed hf) (h.inside hf hfg)
  inside {f g} hf hfg := by
    rw [after_bind, after_bind, h.answer hf hfg]
    cases ha : edit.answer f with
    | error e => exact h.inside hf hfg
    | ok a => exact (hk a (h.value hf ha)).inside (h.closed hf) (h.inside hf hfg)
  value {f b} hf hb := by
    rw [answer_bind] at hb
    cases ha : edit.answer f with
    | error e =>
      rw [ha] at hb
      cases hb
    | ok a =>
      rw [ha] at hb
      exact (hk a (h.value hf ha)).value (h.closed hf) hb

theorem Local.map {edit : Edit α} {view : α → β} (h : edit.Local region P) (hv : ∀ a, P a → Q (view a)) :
    (view <$> edit).Local region Q := by
  have hb := h.bind fun a ha => local_pure (hv a ha)
  simpa using hb

theorem local_ask {query : Forest → Except Fault α} {k : α → Edit β} (h : ReadsIn region query P)
    (hk : ∀ a, P a → (k a).Local region Q) : (ask query >>= k).Local region Q := by
  refine Local.bind (P := P) ?_ hk
  constructor
  · intro f hf
    rwa [after_ask]
  · intro f _
    rw [after_ask]
    exact .refl _ _
  · intro f g hf hfg
    rw [answer_ask, answer_ask]
    exact (h f g hf hfg).1
  · intro f g _ hfg
    rwa [after_ask, after_ask]
  · intro f a hf ha
    rw [answer_ask] at ha
    exact (h f f hf (.refl f region)).2 a ha

theorem Local.forM {edit : β → Edit Unit} {ids : List β} (h : ∀ b ∈ ids, (edit b).Local region) :
    (ids.forM edit).Local region := by
  induction ids with
  | nil => exact local_pure trivial
  | cons b ids ih =>
    rw [List.forall_mem_cons] at h
    exact h.1.bind fun _ _ => ih h.2

/-- A write to a node of the region, if the links that it leaves behind lead into the region. -/
theorem local_change (hid : id ∈ region) {update : Node → Node}
    (hu : ∀ n, n.Inside region → (update n).Inside region) : (change id update).Local region := by
  have hw := rewritten_after_change id update
  constructor
  · intro f hf x m hx hm
    obtain ⟨n, hn, rfl⟩ := (hw f).exists_node hm
    split
    · exact hu n (hf x n hx hn)
    · exact hf x n hx hn
  · intro f _
    refine ⟨size_after_change id update f, fun x hx => ?_⟩
    have hne : x ≠ id := fun e => hx (e ▸ hid)
    rw [hw]
    cases f.node x <;> simp [Except.map, hne]
  · intro f g _ hfg
    rw [answer_change, answer_change, hfg.size]
  · intro f g _ hfg
    refine ⟨?_, fun x hx => ?_⟩
    · rw [size_after_change, size_after_change, hfg.size]
    · rw [hw, hw, hfg.node x hx]
  · exact fun _ _ => trivial

/-- A write that keeps all links. -/
theorem local_write (hid : id ∈ region) {update : Node → Node}
    (hu : ∀ n, Forest.links (update n) = Forest.links n) : (change id update).Local region :=
  local_change hid fun n hn => hn.of_links (hu n)

/-! ## Links -/

theorem local_point {before target : Option NodeId} (hp : p ∈ region) (hb : Into region before)
    (ht : Into region target) : (point p before target).Local region := by
  cases before with
  | none => exact local_change hp fun n hn => { hn with firstChild := ht }
  | some b => exact local_change (hb b rfl) fun n hn => { hn with nextSibling := ht }

theorem local_linkBack (hp : p ∈ region) (hc : c ∈ region) : (linkBack p c).Local region := by
  refine local_ask (reads_lastChild hp) fun last hlast => ?_
  refine .bind (local_change hc fun n hn => { hn with parent := into_some hp }) fun _ _ => ?_
  refine (local_point hp hlast (into_some hc)).bind fun _ _ => ?_
  exact local_change hp fun n hn => { hn with lastChild := into_some hc }

theorem local_prependChild (hp : p ∈ region) (hc : c ∈ region) : (prependChild p c).Local region := by
  refine local_ask (reads_checkAttachable hp hc _) fun _ _ => ?_
  refine local_ask (reads_firstChild hp) fun first hfirst => ?_
  refine .bind (local_change hc fun n hn =>
    { hn with parent := into_some hp, nextSibling := hfirst }) fun _ _ => ?_
  exact local_change hp fun n hn =>
    { hn with firstChild := into_some hc, lastChild := hn.lastChild.or (into_some hc) }

theorem local_appendChild (hp : p ∈ region) (hc : c ∈ region) : (appendChild p c).Local region :=
  local_ask (reads_checkAttachable hp hc _) fun _ _ => local_linkBack hp hc

theorem local_appendChildren (hp : p ∈ region) (hcs : ∀ c ∈ cs, c ∈ region) :
    (appendChildren p cs).Local region :=
  local_ask (reads_checkAllAttachable hp hcs _ _) fun _ _ => .forM fun c hc => local_linkBack hp (hcs c hc)

theorem local_insertAfter (hc : c ∈ region) (hs : sibling ∈ region) :
    (insertAfter c sibling).Local region := by
  refine local_ask (reads_parent hs) fun parent hparent => ?_
  cases parent with
  | none => exact local_throw _
  | some p =>
    have hp := hparent p rfl
    refine local_ask (reads_checkAttachable hp hc _) fun _ _ => ?_
    refine local_ask (reads_nextSibling hs) fun next hnext => ?_
    refine .bind (local_change hc fun n hn =>
      { hn with parent := into_some hp, nextSibling := hnext }) fun _ _ => ?_
    refine .bind (local_change hs fun n hn => { hn with nextSibling := into_some hc }) fun _ _ => ?_
    exact local_change hp fun n hn => { hn with lastChild := (into_some hc).ite hn.lastChild }

theorem local_insertBefore (hc : c ∈ region) (hs : sibling ∈ region) :
    (insertBefore c sibling).Local region := by
  refine local_ask (reads_parent hs) fun parent hparent => ?_
  cases parent with
  | none => exact local_throw _
  | some p =>
    refine local_ask (reads_previousSibling hs) fun previous hprevious => ?_
    cases previous with
    | none => exact local_prependChild (hparent p rfl) hc
    | some previous => exact local_insertAfter hc (hprevious previous rfl)

theorem local_unlink (hp : p ∈ region) (hc : c ∈ region) : (unlink p c).Local region := by
  refine local_ask (reads_previousSibling hc) fun previous hprevious => ?_
  refine local_ask (reads_nextSibling hc) fun next hnext => ?_
  refine (local_point hp hprevious hnext).bind fun _ _ => ?_
  refine .bind (local_change hp fun n hn =>
    { hn with lastChild := hprevious.ite hn.lastChild }) fun _ _ => ?_
  exact local_change hc fun n hn => { hn with parent := into_none, nextSibling := into_none }

theorem local_detach (hc : c ∈ region) : (detach c).Local region := by
  refine local_ask (reads_parent hc) fun parent hparent => ?_
  cases parent with
  | none => exact local_throw _
  | some p => exact local_unlink (hparent p rfl) hc

theorem local_removeChild (hp : p ∈ region) (hc : c ∈ region) : (removeChild p c).Local region := by
  refine local_ask (reads_parent hc) fun parent _ => ?_
  split
  · exact local_unlink hp hc
  · exact local_throw _

theorem local_removeFirstChild (hp : p ∈ region) : (removeFirstChild p).Local region := by
  refine local_ask (reads_firstChild hp) fun first hfirst => ?_
  cases first with
  | none => exact local_pure trivial
  | some c => exact (local_unlink hp (hfirst c rfl)).bind fun _ _ => local_pure trivial

theorem local_detachChildren (hp : p ∈ region) : (detachChildren p).Local region := by
  refine local_ask (reads_children hp) fun ids hids => ?_
  refine .bind (.forM fun c hc => local_change (hids c hc) fun n hn =>
    { hn with parent := into_none, nextSibling := into_none }) fun _ _ => ?_
  refine .bind (local_change hp fun n hn =>
    { hn with firstChild := into_none, lastChild := into_none }) fun _ _ => ?_
  exact local_pure trivial

theorem local_replaceWith {old : NodeId} (hold : old ∈ region) (hc : c ∈ region) :
    (replaceWith old c).Local region := by
  refine local_ask (reads_parent hold) fun parent hparent => ?_
  cases parent with
  | none => exact local_throw _
  | some p =>
    have hp := hparent p rfl
    refine local_ask (reads_checkAttachable hp hc _) fun _ _ => ?_
    refine local_ask (reads_previousSibling hold) fun previous hprevious => ?_
    refine local_ask (reads_nextSibling hold) fun next hnext => ?_
    refine .bind (local_change hc fun n hn =>
      { hn with parent := into_some hp, nextSibling := hnext }) fun _ _ => ?_
    refine (local_point hp hprevious (into_some hc)).bind fun _ _ => ?_
    refine .bind (local_change hp fun n hn =>
      { hn with lastChild := (into_some hc).ite hn.lastChild }) fun _ _ => ?_
    exact local_change hold fun n hn => { hn with parent := into_none, nextSibling := into_none }

/-! ## Contents -/

theorem local_setText (hid : id ∈ region) (value : String) : (setText id value).Local region := by
  refine local_ask (reads_node hid) fun n _ => ?_
  cases n.payload with
  | text _ => exact local_write hid fun _ => rfl
  | generic | number _ => exact local_throw _

theorem local_setNumber (hid : id ∈ region) (value : Double) : (setNumber id value).Local region := by
  refine local_ask (reads_node hid) fun n _ => ?_
  cases n.payload with
  | number _ => exact local_write hid fun _ => rfl
  | generic | text _ => exact local_throw _

theorem local_copyPosition {source : NodeId} (hid : id ∈ region) (hsource : source ∈ region) :
    (copyPosition id source).Local region :=
  local_ask (P := fun _ => True) (reads_view hsource (·.position) fun _ _ => trivial) fun _ _ =>
    local_write hid fun _ => rfl

end Edit

/-! ## Commands -/

open Edit in
/-- A command that allocates nothing stays inside a region that has the nodes it names. -/
theorem Command.run_local {command : Command} (hsize : command.allocates = false)
    (h : ∀ id ∈ command.targets, id ∈ region) : command.run.Local region := by
  have done : ∀ {edit : Edit Unit}, edit.Local region →
      (edit >>= fun _ => pure Reply.done).Local region := fun he => he.bind fun _ _ => local_pure trivial
  cases command with
  | newNode | newText | newNumber | construct | copyNode | copyTree => cases hsize
  | prependChild parent child =>
    exact done (local_prependChild (h parent (by simp [targets])) (h child (by simp [targets])))
  | appendChild parent child =>
    exact done (local_appendChild (h parent (by simp [targets])) (h child (by simp [targets])))
  | appendChildren parent children =>
    rw [targets, List.forall_mem_cons] at h
    exact done (local_appendChildren h.1 h.2)
  | insertAfter child sibling =>
    exact done (local_insertAfter (h child (by simp [targets])) (h sibling (by simp [targets])))
  | insertBefore child sibling =>
    exact done (local_insertBefore (h child (by simp [targets])) (h sibling (by simp [targets])))
  | detach id => exact done (local_detach (h id List.mem_cons_self))
  | removeChild parent child =>
    exact done (local_removeChild (h parent (by simp [targets])) (h child (by simp [targets])))
  | removeFirstChild parent => exact (local_removeFirstChild (h parent List.mem_cons_self)).map fun _ _ => trivial
  | detachChildren parent => exact (local_detachChildren (h parent List.mem_cons_self)).map fun _ _ => trivial
  | replaceWith old replacement =>
    exact done (local_replaceWith (h old (by simp [targets])) (h replacement (by simp [targets])))
  | setText id value => exact done (local_setText (h id List.mem_cons_self) value)
  | setNumber id value => exact done (local_setNumber (h id List.mem_cons_self) value)
  | copyPosition id source =>
    exact done (local_copyPosition (h id (by simp [targets])) (h source (by simp [targets])))
  | setPosition id | putBool id | putInt id | putObject id | removeProperty id | setTypeText id =>
    exact done (local_write (h id List.mem_cons_self) fun _ => rfl)

end SyntaxForest
