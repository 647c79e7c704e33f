import SyntaxForest.Proofs.Detaching
/-!
# Trees that an edit leaves alone

An edit also writes to nodes that it does not name: to a parent, to the sibling before, to the last child
so far. They all stand in the tree of a named node. `Spares` says this of an edit through the layouts before
and after it: a tree without a named node keeps its lists of children. That is enough for every record in it.
-/

namespace SyntaxForest

variable {s t u : Layout} {f g : Forest} {r p c x id old : NodeId}
  {before cs after names more : List NodeId} {n : Node}

/-! ## Trees on which two layouts agree -/

namespace Layout

/-- `r` has no parent in either layout, and the tree under it is the same in both. -/
structure AgreeUnder (s t : Layout) (r : NodeId) : Prop where
  top : s.parent r = none
  top' : t.parent r = none
  children : ∀ {x}, s.Covers r x → t.children x = s.children x

namespace AgreeUnder

theorem refl (hr : s.parent r = none) : s.AgreeUnder s r := ⟨hr, hr, fun _ => rfl⟩

theorem covers (h : s.AgreeUnder t r) : t.Covers r x ↔ s.Covers r x := by
  constructor
  · intro hx
    induction hx with
    | refl => exact Covers.refl s r
    | tail _ hz ih =>
      rw [← t.mem_children, h.children ih, s.mem_children] at hz
      exact .tail ih hz
  · intro hx
    induction hx with
    | refl => exact Covers.refl t r
    | tail hy hz ih =>
      rw [← s.mem_children, ← h.children hy, t.mem_children] at hz
      exact .tail ih hz

theorem trans (h₁ : s.AgreeUnder t r) (h₂ : t.AgreeUnder u r) : s.AgreeUnder u r where
  top := h₁.top
  top' := h₂.top'
  children hx := (h₂.children (h₁.covers.2 hx)).trans (h₁.children hx)

/-- Above a node of the tree, and below its top, is the parent of the node. -/
theorem covers_parent (h : s.AgreeUnder t r) (hx : s.Covers r x) (hp : s.parent x = some p) :
    s.Covers r p := by
  rcases covers_iff.1 hx with rfl | hx
  · rw [h.top] at hp
    cases hp
  · obtain ⟨q, hq, hrq⟩ := above_iff.1 hx
    rw [hp] at hq
    cases hq
    exact hrq

theorem parent (h : s.AgreeUnder t r) (hx : s.Covers r x) : t.parent x = s.parent x := by
  rcases covers_iff.1 hx with rfl | hx
  · rw [h.top, h.top']
  · obtain ⟨p, hp, hrp⟩ := above_iff.1 hx
    rw [hp, ← t.mem_children, h.children hrp, s.mem_children, hp]

theorem next (h : s.AgreeUnder t r) (hx : s.Covers r x) : t.next x = s.next x := by
  unfold Layout.next
  rw [h.parent hx]
  refine Option.bind_congr fun p hp => ?_
  rw [h.children (h.covers_parent hx hp)]

end AgreeUnder

theorem agreeUnder_graft (h : s.Fits p before cs after) (hr : s.parent r = none)
    (hp : ¬ s.Covers r p) (hcs : r ∉ cs) : s.AgreeUnder (s.graft p before cs after h) r where
  top := hr
  top' := by rw [parent_graft, if_neg hcs, hr]
  children {x} hx := by
    have hxp : x ≠ p := fun e => hp (e ▸ hx)
    rw [children_graft, if_neg hxp]

theorem agreeUnder_prune (h : s.children p = before ++ cs ++ after) (hr : s.parent r = none)
    (hp : ¬ s.Covers r p) : s.AgreeUnder (s.prune p before cs after h) r where
  top := hr
  top' := by rw [parent_prune, hr, ite_self]
  children {x} hx := by
    have hxp : x ≠ p := fun e => hp (e ▸ hx)
    rw [children_prune, if_neg hxp]

end Layout

/-! ## Trees that an edit spares -/

namespace Forest

theorem node_of_contents {y : NodeId} (h : g.contents y = f.contents x) (hn : f.node x = .ok n) :
    ∃ m, g.node y = .ok m ∧ m.detachedCopy = n.detachedCopy := by
  rw [contents, contents, hn] at h
  cases hm : g.node y with
  | ok m =>
    rw [hm] at h
    exact ⟨m, rfl, Except.ok.inj h⟩
  | error e =>
    rw [hm] at h
    cases h

theorem has_of_contents (h : g.contents x = f.contents x) (hx : f.Has x) : g.Has x := by
  obtain ⟨n, hn⟩ := has_iff_node.1 hx
  obtain ⟨m, hm, -⟩ := node_of_contents h hn
  exact .of_node hm

/-- What a node carries and its place in the layout make up its record. -/
theorem Realizes.node_eq (hf : f.Realizes s) (hc : f.contents x = .ok n) :
    f.node x = .ok { n with
      parent := s.parent x, firstChild := (s.children x).head?, lastChild := (s.children x).getLast?,
      nextSibling := s.next x } := by
  unfold contents at hc
  cases hm : f.node x with
  | error e =>
    rw [hm] at hc
    cases hc
  | ok m =>
    rw [hm] at hc
    have hn : m.detachedCopy = n := Except.ok.inj hc
    have hd := hf.links hm
    rw [← hd.parent, ← hd.firstChild, ← hd.lastChild, ← hd.nextSibling, ← hn]
    rfl

theorem contents_of_node (hn : f.node x = .ok n) : f.contents x = .ok n.detachedCopy := by
  rw [contents, hn]
  rfl

theorem Realizes.node_congr (hf : f.Realizes s) (hg : g.Realizes t) (hx : f.Has x)
    (hc : g.contents x = f.contents x) (hp : t.parent x = s.parent x)
    (hcs : t.children x = s.children x) (hn : t.next x = s.next x) : g.node x = f.node x := by
  obtain ⟨n, hnode⟩ := has_iff_node.1 hx
  have hn' := contents_of_node hnode
  rw [hf.node_eq hn', hg.node_eq (hc.trans hn'), hp, hcs, hn]

/-- What its nodes carry and a layout make up the whole forest. -/
theorem Realizes.eq_of_layout (hf : f.Realizes s) (hg : g.Realizes s) (hfg : f.SameContents g) : g = f := by
  refine eq_of_nodes hfg.size fun x => ?_
  by_cases hx : f.Has x
  · exact hf.node_congr hg hx (hfg x) rfl rfl rfl
  · rw [node_eq_error_iff.2 ⟨hx, rfl⟩, node_eq_error_iff.2 ⟨mt hfg.has.1 hx, rfl⟩, hfg.size]

/-- An edit that names `names` leads from `f`, with layout `s`, to `g`, with layout `t`: a tree without a
named node is left as it is, and only named nodes may carry something else. -/
structure Spares (f : Forest) (s : Layout) (names : List NodeId) (g : Forest) (t : Layout) : Prop where
  realizes : g.Realizes t
  agree : ∀ {r}, f.Has r → s.parent r = none → (∀ a ∈ names, ¬ s.Covers r a) → s.AgreeUnder t r
  contents : ∀ {x}, f.Has x → x ∉ names → g.contents x = f.contents x

namespace Spares

theorem refl (hf : f.Realizes s) (names : List NodeId) : f.Spares s names f s where
  realizes := hf
  agree _ hr _ := .refl hr
  contents _ _ := rfl

/-- A second edit may name the same nodes, and nodes that the first one has made. -/
theorem trans {h : Forest} (h₁ : f.Spares s names g t) (h₂ : g.Spares t more h u) (hf : f.Realizes s)
    (hmore : ∀ a ∈ more, f.Has a → a ∈ names) : f.Spares s names h u where
  realizes := h₂.realizes
  agree {r} hr htop hno := by
    have hagree := h₁.agree hr htop hno
    have hr' : g.Has r := by
      refine has_of_contents (h₁.contents hr fun hm => ?_) hr
      exact hno r hm (Layout.Covers.refl s r)
    refine hagree.trans (h₂.agree hr' hagree.top' fun a ha hv => ?_)
    rw [hagree.covers] at hv
    exact hno a (hmore a ha (hf.has_of_covers hr hv)) hv
  contents {x} hx hno := by
    have hkept := h₁.contents hx hno
    rw [h₂.contents (has_of_contents hkept hx) fun hm => hno (hmore x hm hx), hkept]

/-- Every record in a tree without a named node stays as it is. -/
theorem node_eq (h : f.Spares s names g t) (hf : f.Realizes s) (hr : f.Has r) (htop : s.parent r = none)
    (hno : ∀ a ∈ names, ¬ s.Covers r a) (hx : s.Covers r x) : g.node x = f.node x := by
  have hagree := h.agree hr htop hno
  have hkept := h.contents (hf.has_of_covers hr hx) fun hm => hno x hm hx
  exact hf.node_congr h.realizes (hf.has_of_covers hr hx) hkept (hagree.parent hx) (hagree.children hx)
    (hagree.next hx)

end Spares

theorem SameContents.spares (hfg : f.SameContents g) (hg : g.Realizes t)
    (hagree : ∀ r, s.parent r = none → (∀ a ∈ names, ¬ s.Covers r a) → s.AgreeUnder t r) :
    f.Spares s names g t where
  realizes := hg
  agree {r} _ := hagree r
  contents {x} _ _ := hfg x

end Forest

/-! ## Edits of links -/

namespace Layout

/-- A tree without a named node does not reach up to what is above one. -/
theorem not_covers_of_named (hp : ∃ a ∈ names, s.Covers p a) (hno : ∀ a ∈ names, ¬ s.Covers r a) :
    ¬ s.Covers r p := by
  obtain ⟨a, ha, hpa⟩ := hp
  exact fun hv => hno a ha (hv.trans hpa)

theorem not_mem_of_named (hno : ∀ a ∈ names, ¬ s.Covers r a) (hcs : cs ⊆ names) : r ∉ cs :=
  fun hr => hno r (hcs hr) (Covers.refl s r)

theorem Grafts.spares (hg : s.Grafts f g p before c after) (hf : f.Realizes s)
    (hp : ∃ a ∈ names, s.Covers p a) (hc : c ∈ names) :
    f.Spares s names g (s.graft p before [c] after hg.fits) := by
  refine hg.sameContents.spares (hg.realizes hf) fun r hr hno => ?_
  exact agreeUnder_graft hg.fits hr (not_covers_of_named hp hno) (not_mem_of_named hno (by simpa using hc))

theorem Appends.spares (hg : s.Appends f g p cs) (hp : p ∈ names) (hcs : cs ⊆ names) :
    f.Spares s names g (s.graft p (s.children p) cs [] hg.fits) := by
  refine hg.sameContents.spares hg.realizes fun r hr hno => ?_
  exact agreeUnder_graft hg.fits hr (hno p hp) (not_mem_of_named hno hcs)

theorem Prunes.spares (hg : s.Prunes f g p before cs after) (hf : f.Realizes s)
    (hp : ∃ a ∈ names, s.Covers p a) : f.Spares s names g (s.prune p before cs after hg.place) := by
  refine hg.sameContents.spares (hg.realizes hf) fun r hr hno => ?_
  exact agreeUnder_prune hg.place hr (not_covers_of_named hp hno)

theorem Replaces.spares (hg : s.Replaces f g p before old c after) (hf : f.Realizes s)
    (hold : old ∈ names) (hc : c ∈ names) :
    f.Spares s names g ((s.prune p before [old] after hg.place).graft p before [c] after hg.fits) := by
  refine hg.sameContents.spares (hg.realizes hf) fun r hr hno => ?_
  have hp : ¬ s.Covers r p :=
    not_covers_of_named ⟨old, hold, .single (parent_of_place hg.place List.mem_cons_self)⟩ hno
  have hpruned := agreeUnder_prune hg.place hr hp
  refine hpruned.trans (agreeUnder_graft hg.fits hpruned.top' ?_ ?_)
  · rwa [hpruned.covers]
  · exact not_mem_of_named hno (by simpa using hc)

end Layout

end SyntaxForest
