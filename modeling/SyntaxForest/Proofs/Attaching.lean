import SyntaxForest.Forest.Attach
import SyntaxForest.Proofs.Records
/-!
# Attaching edits

Every attaching edit first asks the guard, and the guard answers what the layout says: the child has no
parent and does not have the new parent below it. After that all writes succeed, and they graft the
child in its place. A refused edit changes nothing.
-/

namespace SyntaxForest

variable {s : Layout} {f g : Forest} {p c x : NodeId} {before cs after : List NodeId} {n : Node}

/-! ## The guard of attaching edits -/

namespace Forest

variable {op : Operation}

theorem checkAttachable_of_not_has (h : ¬ f.Has c) :
    f.checkAttachable op p c = .error (.outOfRange f.size c.index) := by
  simp only [checkAttachable, node_eq_error_iff.2 ⟨h, rfl⟩, bind, Except.bind]

theorem isAncestorOf_of_not_has (h : ¬ f.Has p) :
    f.isAncestorOf c p = .error (.outOfRange f.size p.index) := by
  simp only [isAncestorOf, ancestors, Forest.parent, node_eq_error_iff.2 ⟨h, rfl⟩, bind, Except.bind]

namespace Realizes

theorem isAncestorOf_iff (h : f.Realizes s) : f.isAncestorOf c p = .ok true ↔ s.Above c p := by
  by_cases hp : f.Has p
  · rw [h.isAncestorOf_eq hp]
    simp
  · -- a handle from outside has nothing above it, and asking for that is refused
    rw [isAncestorOf_of_not_has hp, Layout.above_iff, (h.alone hp).1]
    simp

/-- The guard as the layout sees it: the test for a sibling never bites. -/
theorem checkAttachable_eq (h : f.Realizes s) (hc : f.Has c) :
    f.checkAttachable op p c =
      if (s.parent c).isSome then .error (.link c op .hasParent)
      else if p = c then .error (.link c op .ownParent)
      else if (s.children c).head?.isSome then do
        if ← f.isAncestorOf c p then .error (.link c op .ownDescendant) else .ok ()
      else .ok () := by
  obtain ⟨n, hn⟩ := has_iff_node.1 hc
  have hd := h.links hn
  have hsib : (s.parent c).isSome = false → n.nextSibling.isSome = false := by
    intro hp
    rw [hd.nextSibling, Layout.next_of_parentless (by simpa using hp)]
    rfl
  simp only [checkAttachable, hn, Node.hasChildren, hd.parent, hd.firstChild, bind, Except.bind]
  by_cases hp : (s.parent c).isSome
  · simp [hp]
  · simp [hp, hsib (by simpa using hp)]

/-- How the guard refuses: a handle is from outside, or a link is in the way. That is never a sibling link. -/
theorem checkAttachable_error_cases (h : f.Realizes s) {e : Fault}
    (he : f.checkAttachable op p c = .error e) :
    (¬ (f.Has p ∧ f.Has c) ∧ ∃ index, e = .outOfRange f.size index) ∨
      ∃ cause, cause ≠ .hasSibling ∧ e = .link c op cause := by
  by_cases hc : f.Has c
  · rw [h.checkAttachable_eq hc] at he
    split at he
    · cases he
      exact .inr ⟨.hasParent, by decide, rfl⟩
    · split at he
      · cases he
        exact .inr ⟨.ownParent, by decide, rfl⟩
      · split at he
        · by_cases hp : f.Has p
          · rw [h.isAncestorOf_eq hp] at he
            simp only [bind, Except.bind] at he
            split at he <;> cases he
            exact .inr ⟨.ownDescendant, by decide, rfl⟩
          · rw [isAncestorOf_of_not_has hp] at he
            cases he
            exact .inl ⟨fun hpc => hp hpc.1, _, rfl⟩
        · cases he
  · rw [checkAttachable_of_not_has hc] at he
    cases he
    exact .inl ⟨fun hpc => hc hpc.2, _, rfl⟩

theorem checkAttachable_error (h : f.Realizes s) {e : Fault}
    (he : f.checkAttachable op p c = .error e) : e.Ordinary := by
  rcases h.checkAttachable_error_cases he with ⟨-, index, rfl⟩ | ⟨cause, hcause, rfl⟩
  · trivial
  · cases cause <;> trivial

/-- The guard lets through only a parentless node that does not have the parent below it. A childless
node has nothing below it, so skipping the walk up for it loses nothing. -/
theorem checkAttachable_ok (h : f.Realizes s) (hk : f.checkAttachable op p c = .ok ()) :
    f.Has c ∧ s.parent c = none ∧ ¬ s.Covers c p := by
  by_cases hc : f.Has c
  · rw [h.checkAttachable_eq hc] at hk
    split at hk
    · cases hk
    · rename_i hn
      split at hk
      · cases hk
      · rename_i hpc
        refine ⟨hc, by simpa using hn, ?_⟩
        rw [Layout.covers_iff, not_or]
        refine ⟨hpc, ?_⟩
        split at hk
        · by_cases hp : f.Has p
          · rw [h.isAncestorOf_eq hp] at hk
            simp only [bind, Except.bind] at hk
            split at hk
            · cases hk
            · rename_i ha
              simpa using ha
          · rw [isAncestorOf_of_not_has hp] at hk
            cases hk
        · rename_i hl
          exact Layout.not_above_of_childless (by simpa using hl)
  · rw [checkAttachable_of_not_has hc] at hk
    cases hk

/-- The guard lets every such node through. -/
theorem checkAttachable_of_free (h : f.Realizes s) (hp : f.Has p) (hc : f.Has c)
    (hn : s.parent c = none) (hv : ¬ s.Covers c p) : f.checkAttachable op p c = .ok () := by
  rw [Layout.covers_iff, not_or] at hv
  rw [h.checkAttachable_eq hc, h.isAncestorOf_eq hp]
  simp [hn, hv.1, hv.2, bind, Except.bind]

end Realizes

/-! ## The guard over a list -/

section Batch

variable {seen : List NodeId}

/-- A walk over a list that remembers what it has seen, and passes on new good nodes only, passes a list
of distinct good nodes. -/
theorem passes_iff {good : NodeId → Prop} (passes : List NodeId → List NodeId → Prop)
    (hnil : ∀ seen, passes seen [])
    (hcons : ∀ seen c cs, passes seen (c :: cs) ↔ good c ∧ c ∉ seen ∧ passes (c :: seen) cs) :
    passes seen cs ↔ (∀ c ∈ cs, good c) ∧ (∀ c ∈ cs, c ∉ seen) ∧ cs.Nodup := by
  induction cs generalizing seen with
  | nil => simp [hnil]
  | cons c cs ih =>
    rw [hcons, ih, List.nodup_cons, List.forall_mem_cons, List.forall_mem_cons]
    constructor
    · rintro ⟨hc, hs, hcs, hss, hn⟩
      exact ⟨⟨hc, hcs⟩, ⟨hs, fun x hx hm => hss x hx (List.mem_cons_of_mem _ hm)⟩,
        fun hm => hss c hm List.mem_cons_self, hn⟩
    · rintro ⟨⟨hc, hcs⟩, ⟨hs, hss⟩, hm, hn⟩
      refine ⟨hc, hs, hcs, fun x hx hx' => ?_, hn⟩
      rcases List.mem_cons.1 hx' with rfl | hx'
      · exact hm hx
      · exact hss x hx hx'

theorem checkAllAttachable_ok_iff :
    f.checkAllAttachable op p seen cs = .ok () ↔
      (∀ c ∈ cs, f.checkAttachable op p c = .ok ()) ∧ (∀ c ∈ cs, c ∉ seen) ∧ cs.Nodup := by
  refine passes_iff (fun seen cs => f.checkAllAttachable op p seen cs = .ok ()) (fun _ => rfl)
    fun seen c cs => ?_
  rw [checkAllAttachable]
  cases f.checkAttachable op p c with
  | error e => simp [bind, Except.bind]
  | ok u => by_cases hs : c ∈ seen <;> simp [bind, Except.bind, hs]

theorem checkAllDetached_ok_iff :
    f.checkAllDetached op seen cs = .ok () ↔
      (∀ c ∈ cs, f.isDetached c = .ok true) ∧ (∀ c ∈ cs, c ∉ seen) ∧ cs.Nodup := by
  refine passes_iff (fun seen cs => f.checkAllDetached op seen cs = .ok ()) (fun _ => rfl)
    fun seen c cs => ?_
  rw [checkAllDetached]
  cases f.isDetached c with
  | error e => simp [bind, Except.bind]
  | ok d => cases d <;> by_cases hs : c ∈ seen <;> simp [bind, Except.bind, hs]

theorem checkAllAttachable_error_cases {e : Fault}
    (he : f.checkAllAttachable op p seen cs = .error e) :
    ∃ c ∈ cs, f.checkAttachable op p c = .error e ∨ e = .link c op .listedTwice := by
  induction cs generalizing seen with
  | nil => cases he
  | cons c cs ih =>
    rw [checkAllAttachable] at he
    cases hc : f.checkAttachable op p c with
    | error e' =>
      rw [hc] at he
      cases he
      exact ⟨c, List.mem_cons_self, .inl hc⟩
    | ok u =>
      simp only [hc, bind, Except.bind] at he
      split at he
      · cases he
        exact ⟨c, List.mem_cons_self, .inr rfl⟩
      · obtain ⟨d, hd, hfault⟩ := ih he
        exact ⟨d, List.mem_cons_of_mem _ hd, hfault⟩

theorem Realizes.checkAllAttachable_error (h : f.Realizes s) {e : Fault}
    (he : f.checkAllAttachable op p seen cs = .error e) : e.Ordinary := by
  obtain ⟨c, -, he | rfl⟩ := checkAllAttachable_error_cases he
  · exact h.checkAttachable_error he
  · trivial

theorem Realizes.checkAllDetached_ok_iff (h : f.Realizes s) :
    f.checkAllDetached op [] cs = .ok () ↔
      (∀ c ∈ cs, f.Has c) ∧ (∀ c ∈ cs, s.parent c = none) ∧ cs.Nodup := by
  rw [Forest.checkAllDetached_ok_iff]
  constructor
  · rintro ⟨hdet, -, hd⟩
    have hcs : ∀ c ∈ cs, f.Has c := fun c hc => has_of_read (hdet c hc)
    refine ⟨hcs, fun c hc => ?_, hd⟩
    have hdc := hdet c hc
    rw [h.isDetached_eq (hcs c hc)] at hdc
    simpa using hdc
  · rintro ⟨hcs, hp, hd⟩
    refine ⟨fun c hc => ?_, fun _ _ => List.not_mem_nil, hd⟩
    rw [h.isDetached_eq (hcs c hc), hp c hc]
    rfl

theorem checkAllDetached_error_cases {e : Fault} (he : f.checkAllDetached op seen cs = .error e) :
    ∃ c ∈ cs, f.isDetached c = .error e ∨ e = .link c op .listedTwice ∨ e = .link c op .attached := by
  induction cs generalizing seen with
  | nil => cases he
  | cons c cs ih =>
    rw [checkAllDetached] at he
    cases hc : f.isDetached c with
    | error e' =>
      rw [hc] at he
      cases he
      exact ⟨c, List.mem_cons_self, .inl hc⟩
    | ok d =>
      simp only [hc, bind, Except.bind] at he
      split at he
      · split at he
        · cases he
          exact ⟨c, List.mem_cons_self, .inr (.inl rfl)⟩
        · obtain ⟨d, hd, hfault⟩ := ih he
          exact ⟨d, List.mem_cons_of_mem _ hd, hfault⟩
      · cases he
        exact ⟨c, List.mem_cons_self, .inr (.inr rfl)⟩

theorem checkAllDetached_error {e : Fault} (he : f.checkAllDetached op seen cs = .error e) :
    e.Ordinary := by
  obtain ⟨c, -, he | rfl | rfl⟩ := checkAllDetached_error_cases he
  · exact ordinary_of_read he
  · trivial
  · trivial

end Batch

end Forest

/-- `g` is `f` with `cs` linked behind the last child of `p`, where they fit. -/
structure Layout.Appends (s : Layout) (f g : Forest) (p : NodeId) (cs : List NodeId) : Prop where
  fits : s.Fits p (s.children p) cs []
  has : ∀ c ∈ cs, f.Has c
  realizes : g.Realizes (s.graft p (s.children p) cs [] fits)
  sameContents : f.SameContents g

theorem Layout.appends_nil (h : f.Realizes s) (p : NodeId) : s.Appends f f p [] := by
  have hfit : s.Fits p (s.children p) [] [] := ⟨(List.append_nil _).symm, nofun, nofun, List.nodup_nil⟩
  exact ⟨hfit, nofun, (graft_nil hfit).symm ▸ h, .refl f⟩

theorem Layout.children_appended (h : s.Fits p (s.children p) [c] []) :
    (s.graft p (s.children p) [c] [] h).children p = s.children p ++ [c] := by
  rw [place_graft, List.append_nil]

/-- A node is linked behind the last child of `p`, and then a list behind that node. -/
theorem Layout.Appends.cons {g' : Forest} {hfit : s.Fits p (s.children p) [c] []}
    (hcs : (s.graft p (s.children p) [c] [] hfit).Appends g g' p cs)
    (hc : s.Grafts f g p (s.children p) c []) : s.Appends f g' p (c :: cs) := by
  have hrest := hcs.fits
  rw [children_appended] at hrest
  refine ⟨hfit.cons hrest, ?_, ?_, hc.sameContents.trans hcs.sameContents⟩
  · exact List.forall_mem_cons.2 ⟨hc.has_child, fun x hx => hc.rewritten.has.1 (hcs.has x hx)⟩
  · rw [← graft_cons (hfit.cons hrest)]
    simpa only [children_appended] using hcs.realizes

/-! ## Linking -/

namespace Edit

/-- The record of `x` once the link to a place among the children of `p` is pointed at `target`. -/
def pointed (p : NodeId) (before target : Option NodeId) (x : NodeId) (n : Node) : Node :=
  { n with
    firstChild := if x = p ∧ before = none then target else n.firstChild
    nextSibling := if before = some x then target else n.nextSibling }

theorem point_succeeds {before : Option NodeId} (hp : f.Has p) (hb : ∀ b, before = some b → f.Has b)
    (target : Option NodeId) :
    (point p before target).Succeeds f fun _ g => f.Rewritten g (pointed p before target) := by
  cases before with
  | none =>
    refine (succeeds_change hp _).mono fun _ g hw x => ?_
    rw [hw]
    congr 1
    funext n
    by_cases hx : x = p <;> simp [pointed, hx]
  | some b =>
    refine (succeeds_change (hb b rfl) _).mono fun _ g hw x => ?_
    rw [hw]
    congr 1
    funext n
    by_cases hx : x = b
    · simp [pointed, hx]
    · simp [pointed, hx, Ne.symm hx]

theorem linkBack_succeeds (h : f.Realizes s) (hp : f.Has p) (hc : f.Has c)
    (hfit : s.Fits p (s.children p) [c] []) :
    (linkBack p c).Succeeds f fun _ g => s.Grafts f g p (s.children p) c [] := by
  have hlast : ∀ b, (s.children p).getLast? = some b → f.Has b := fun b hb =>
    h.has_child (List.mem_of_getLast? hb)
  refine succeeds_ask (h.lastChild_eq hp) ?_
  refine (succeeds_change hc _).bind fun _ g₁ h₁ => ?_
  refine (point_succeeds (h₁.has.2 hp) (fun b hb => h₁.has.2 (hlast b hb)) _).bind fun _ g₂ h₂ => ?_
  refine (succeeds_change (h₂.has.2 (h₁.has.2 hp)) _).mono fun _ g₃ h₃ => ?_
  refine ⟨hfit, hp, hc, ((h₁.trans h₂).trans h₃).congr fun x n hn => ?_⟩
  have hcp : c ≠ p := hfit.ne_parent List.mem_cons_self
  -- of the three records written, that of the child has to lose no sibling link: it had none
  by_cases hxc : x = c
  · subst hxc
    have hl : (s.children p).getLast? ≠ some x := fun e =>
      hfit.not_mem_children List.mem_cons_self p (List.mem_of_getLast? e)
    have hnext : n.nextSibling = none := by
      rw [(h.links hn).nextSibling]
      exact Layout.next_of_parentless (hfit.alone x List.mem_cons_self)
    simp [grafted, pointed, hcp, hl, hnext]
  · by_cases hxp : x = p <;> simp [grafted, pointed, hxc, hxp, hcp.symm]

/-! ## Attaching edits

Each of them succeeds in a place where the child fits, and leads to such a place or nowhere. -/

theorem prependChild_succeeds (h : f.Realizes s) (hp : f.Has p) (hc : f.Has c)
    (hfit : s.Fits p [] [c] (s.children p)) :
    (prependChild p c).Succeeds f fun _ g => s.Grafts f g p [] c (s.children p) := by
  have hcp : c ≠ p := hfit.ne_parent List.mem_cons_self
  refine succeeds_ask (h.checkAttachable_of_free hp hc (hfit.alone c List.mem_cons_self)
    (hfit.clear c List.mem_cons_self)) ?_
  refine succeeds_ask (h.firstChild_eq hp) ?_
  refine (succeeds_change hc _).bind fun _ g₁ h₁ => ?_
  refine (succeeds_change (h₁.has.2 hp) _).mono fun _ g₂ h₂ => ?_
  refine ⟨hfit, hp, hc, (h₁.trans h₂).congr fun x n hn => ?_⟩
  by_cases hxc : x = c
  · subst hxc
    simp [grafted, hcp]
  · by_cases hxp : x = p
    · -- the first child is also the last one if there was none
      subst hxp
      have hl : n.lastChild.or (some c) = if s.children x = [] then some c else n.lastChild := by
        rw [(h.links hn).lastChild]
        rcases List.eq_nil_or_concat' (s.children x) with he | ⟨cs, a, he⟩ <;> simp [he]
      simp [grafted, hxc, hl]
    · simp [grafted, hxc, hxp]

theorem insertAfter_succeeds {sibling : NodeId} (h : f.Realizes s) (hc : f.Has c)
    (hfit : s.Fits p (before ++ [sibling]) [c] after) :
    (insertAfter c sibling).Succeeds f fun _ g => s.Grafts f g p (before ++ [sibling]) c after := by
  have hplace : s.children p = before ++ sibling :: after := by simp [hfit.place]
  have hs := Layout.parent_of_middle hplace
  obtain ⟨hp, hsib⟩ := h.has hs
  have hcp : c ≠ p := hfit.ne_parent List.mem_cons_self
  have hsp : sibling ≠ p := Layout.ne_of_parent hs
  have hcs : c ≠ sibling := hfit.ne_child List.mem_cons_self hs
  refine succeeds_ask (h.parent_eq hsib) ?_
  rw [hs]
  refine succeeds_ask (h.checkAttachable_of_free hp hc (hfit.alone c List.mem_cons_self)
    (hfit.clear c List.mem_cons_self)) ?_
  refine succeeds_ask (h.nextSibling_eq hsib) ?_
  refine (succeeds_change hc _).bind fun _ g₁ h₁ => ?_
  refine (succeeds_change (h₁.has.2 hsib) _).bind fun _ g₂ h₂ => ?_
  refine (succeeds_change (h₂.has.2 (h₁.has.2 hp)) _).mono fun _ g₃ h₃ => ?_
  refine ⟨hfit, hp, hc, ((h₁.trans h₂).trans h₃).congr fun x n hn => ?_⟩
  by_cases hxc : x = c
  · subst hxc
    simp [grafted, hcp, hcs, Layout.next_of_middle hplace]
  · by_cases hxs : x = sibling
    · subst hxs
      simp [grafted, hxc, hsp]
    · by_cases hxp : x = p
      · subst hxp
        have hl : n.lastChild = some sibling ↔ after = [] := by
          rw [(h.links hn).lastChild, Layout.last_iff_of_middle hplace]
        simp [grafted, hxc, hxs, Ne.symm hxs, hl]
      · simp [grafted, hxc, hxs, Ne.symm hxs, hxp]

theorem insertBefore_succeeds {sibling : NodeId} (h : f.Realizes s) (hc : f.Has c)
    (hfit : s.Fits p before [c] (sibling :: after)) :
    (insertBefore c sibling).Succeeds f fun _ g => s.Grafts f g p before c (sibling :: after) := by
  have hs := Layout.parent_of_middle hfit.place
  refine succeeds_ask (h.parent_eq (h.has hs).2) ?_
  rw [hs]
  refine succeeds_ask (h.previousSibling_eq hfit.place) ?_
  rcases List.eq_nil_or_concat' before with rfl | ⟨before, previous, rfl⟩
  · have hk : s.children p = sibling :: after := hfit.place
    rw [← hk] at hfit ⊢
    exact prependChild_succeeds h (h.has hs).1 hc hfit
  · rw [List.getLast?_concat]
    exact insertAfter_succeeds h hc hfit

/-- Linking a list behind the children of `p`, node by node, by an edit that links one node there. -/
theorem forM_appends {link : NodeId → Edit Unit}
    (hlink : ∀ {f s c}, f.Realizes s → f.Has p → f.Has c → s.Fits p (s.children p) [c] [] →
      (link c).Succeeds f fun _ g => s.Grafts f g p (s.children p) c [])
    (h : f.Realizes s) (hp : f.Has p) (hcs : ∀ c ∈ cs, f.Has c) (hfit : s.Fits p (s.children p) cs []) :
    (cs.forM link).Succeeds f fun _ g => s.Appends f g p cs := by
  induction cs generalizing f s with
  | nil => exact succeeds_pure (Layout.appends_nil h p)
  | cons c cs ih =>
    rw [List.forall_mem_cons] at hcs
    refine (hlink h hp hcs.1 hfit.first).bind fun _ g hg => ?_
    have hcs' : ∀ x ∈ cs, g.Has x := fun x hx => hg.rewritten.has.2 (hcs.2 x hx)
    have hrest := hfit.rest
    rw [← Layout.children_appended hfit.first] at hrest
    exact (ih (hg.realizes h) (hg.rewritten.has.2 hp) hcs' hrest).mono fun _ g' hg' => hg'.cons hg

theorem linkBacks_succeed (h : f.Realizes s) (hp : f.Has p) (hcs : ∀ c ∈ cs, f.Has c)
    (hfit : s.Fits p (s.children p) cs []) :
    (cs.forM (linkBack p)).Succeeds f fun _ g => s.Appends f g p cs :=
  forM_appends linkBack_succeeds h hp hcs hfit

theorem leads_parent {α : Type} {k : Option NodeId → Edit α} {Q : α → Forest → Prop} {id : NodeId}
    (h : f.Realizes s) (hk : f.Has id → (k (s.parent id)).Leads f Q) :
    (ask (·.parent id) >>= k).Leads f Q := by
  refine leads_ask (fun e => ordinary_of_read) fun parent hp => ?_
  have hid := has_of_read hp
  rw [h.parent_eq hid] at hp
  cases hp
  exact hk hid

theorem leads_of_parentless {α : Type} {k : Option NodeId → Edit α} {Q : α → Forest → Prop} {id : NodeId}
    (h : f.Realizes s) (hid : s.parent id = none) (hk : (k none).Leads f Q) :
    (ask (·.parent id) >>= k).Leads f Q := by
  refine leads_parent h fun _ => ?_
  rwa [hid]

theorem prependChild_leads (h : f.Realizes s) (p c : NodeId) :
    (prependChild p c).Leads f fun _ g => s.Grafts f g p [] c (s.children p) := by
  by_cases hk : f.Has p ∧ f.checkAttachable .prependChild p c = .ok ()
  · obtain ⟨hc, hn, hv⟩ := h.checkAttachable_ok hk.2
    exact (prependChild_succeeds h hk.1 hc (Layout.fits_one rfl hn hv)).leads
  · refine leads_ask (fun e => h.checkAttachable_error) fun _ hk' => ?_
    refine leads_ask (fun e => ordinary_of_read) fun _ hf => ?_
    exact absurd ⟨has_of_read hf, hk'⟩ hk

theorem appendChild_succeeds (h : f.Realizes s) (hp : f.Has p) (hc : f.Has c)
    (hfit : s.Fits p (s.children p) [c] []) :
    (appendChild p c).Succeeds f fun _ g => s.Grafts f g p (s.children p) c [] :=
  succeeds_ask (h.checkAttachable_of_free hp hc (hfit.alone c List.mem_cons_self)
    (hfit.clear c List.mem_cons_self)) (linkBack_succeeds h hp hc hfit)

theorem appendChild_leads (h : f.Realizes s) (p c : NodeId) :
    (appendChild p c).Leads f fun _ g => s.Grafts f g p (s.children p) c [] := by
  by_cases hk : f.Has p ∧ f.checkAttachable .appendChild p c = .ok ()
  · obtain ⟨hc, hn, hv⟩ := h.checkAttachable_ok hk.2
    exact (appendChild_succeeds h hk.1 hc (Layout.fits_one (List.append_nil _).symm hn hv)).leads
  · refine leads_ask (fun e => h.checkAttachable_error) fun _ hk' => ?_
    refine leads_ask (fun e => ordinary_of_read) fun _ hf => ?_
    exact absurd ⟨has_of_read hf, hk'⟩ hk

theorem insertAfter_leads_at {sibling : NodeId} (h : f.Realizes s)
    (hplace : s.children p = before ++ sibling :: after) (c : NodeId) :
    (insertAfter c sibling).Leads f fun _ g => s.Grafts f g p (before ++ [sibling]) c after := by
  have hs := Layout.parent_of_middle hplace
  by_cases hk : f.checkAttachable .insertAfter p c = .ok ()
  · obtain ⟨hc, hn, hv⟩ := h.checkAttachable_ok hk
    exact (insertAfter_succeeds h hc (Layout.fits_one (by simpa using hplace) hn hv)).leads
  · refine leads_parent h fun _ => ?_
    rw [hs]
    exact leads_ask (fun e => h.checkAttachable_error) fun _ hk' => absurd hk' hk

theorem insertBefore_leads_at {sibling : NodeId} (h : f.Realizes s)
    (hplace : s.children p = before ++ sibling :: after) (c : NodeId) :
    (insertBefore c sibling).Leads f fun _ g => s.Grafts f g p before c (sibling :: after) := by
  refine leads_parent h fun _ => ?_
  rw [Layout.parent_of_middle hplace]
  refine leads_ask (fun e he => ?_) fun previous hprev => ?_
  · rw [h.previousSibling_eq hplace] at he
    cases he
  · rw [h.previousSibling_eq hplace] at hprev
    cases hprev
    -- without a previous sibling the edit prepends, otherwise it inserts after that one
    rcases List.eq_nil_or_concat' before with rfl | ⟨before, previous, rfl⟩
    · rw [List.nil_append] at hplace
      exact hplace ▸ prependChild_leads h p c
    · rw [List.getLast?_concat]
      exact insertAfter_leads_at h (by simpa using hplace) c

theorem insertAfter_leads (h : f.Realizes s) (c sibling : NodeId) :
    (insertAfter c sibling).Leads f fun _ g =>
      ∃ p before after, s.Grafts f g p (before ++ [sibling]) c after := by
  cases hs : s.parent sibling with
  | none => exact leads_of_parentless h hs (leads_throw trivial)
  | some p =>
    obtain ⟨before, after, hplace⟩ := Layout.exists_place hs
    exact (insertAfter_leads_at h hplace c).mono fun _ g hg => ⟨p, before, after, hg⟩

theorem insertBefore_leads (h : f.Realizes s) (c sibling : NodeId) :
    (insertBefore c sibling).Leads f fun _ g =>
      ∃ p before after, s.Grafts f g p before c (sibling :: after) := by
  cases hs : s.parent sibling with
  | none => exact leads_of_parentless h hs (leads_throw trivial)
  | some p =>
    obtain ⟨before, after, hplace⟩ := Layout.exists_place hs
    exact (insertBefore_leads_at h hplace c).mono fun _ g hg => ⟨p, before, after, hg⟩

/-! ## Attaching a list -/

theorem appendChildren_succeeds (h : f.Realizes s) (hp : f.Has p) (hcs : ∀ c ∈ cs, f.Has c)
    (hfit : s.Fits p (s.children p) cs []) :
    (appendChildren p cs).Succeeds f fun _ g => s.Appends f g p cs := by
  have hk : f.checkAllAttachable .appendChildren p [] cs = .ok () := by
    refine Forest.checkAllAttachable_ok_iff.2 ⟨fun c hc => ?_, fun _ _ => List.not_mem_nil, hfit.distinct⟩
    exact h.checkAttachable_of_free hp (hcs c hc) (hfit.alone c hc) (hfit.clear c hc)
  exact succeeds_ask hk (linkBacks_succeed h hp hcs hfit)

theorem appendChildren_leads (h : f.Realizes s) (p : NodeId) (cs : List NodeId) :
    (appendChildren p cs).Leads f fun _ g => s.Appends f g p cs := by
  refine leads_ask (fun e => h.checkAllAttachable_error) fun _ hk => ?_
  obtain ⟨hfree, -, hn⟩ := Forest.checkAllAttachable_ok_iff.1 hk
  have hfree := fun c hc => h.checkAttachable_ok (hfree c hc)
  have hfit : s.Fits p (s.children p) cs [] :=
    ⟨(List.append_nil _).symm, fun c hc => (hfree c hc).2.1, fun c hc => (hfree c hc).2.2, hn⟩
  cases cs with
  | nil => exact leads_pure (Layout.appends_nil h p)
  | cons c cs =>
    by_cases hp : f.Has p
    · exact (linkBacks_succeed h hp (fun c hc => (hfree c hc).1) hfit).leads
    · -- the first link looks at the parent before it writes
      have hfirst : (linkBack p c).Leads f fun _ _ => False :=
        leads_ask (fun e => ordinary_of_read) fun _ hl => absurd (has_of_read hl) hp
      exact hfirst.bind fun _ _ hf => hf.elim

end Edit

end SyntaxForest
