import Mathlib.Data.List.Nodup
import Mathlib.Logic.Relation
import SyntaxForest.Forest.Queries
/-!
# Layouts

A layout says who stands under whom and in which order, as lists of children and a parent for each
node, with no links. It carries the promises of an ordered forest itself, so there is no layout with a
cycle or with a child listed twice. Grafting puts parentless nodes among the children of a node and
pruning takes children away; every edit of links is one of these two, or one after the other.
-/

namespace SyntaxForest

/-! ## Neighbours in a list -/

/-- The element right after `id` in a list. -/
def successor? (id : NodeId) : List NodeId → Option NodeId
  | [] => none
  | a :: rest => if a = id then rest.head? else successor? id rest

theorem mem_of_successor? {id b : NodeId} {xs : List NodeId} (h : successor? id xs = some b) : b ∈ xs := by
  induction xs with
  | nil => cases h
  | cons a xs ih =>
    unfold successor? at h
    split at h
    · exact List.mem_cons_of_mem _ (List.mem_of_head? h)
    · exact List.mem_cons_of_mem _ (ih h)

theorem successor?_append_right {id : NodeId} {xs : List NodeId} (h : id ∉ xs) (ys : List NodeId) :
    successor? id (xs ++ ys) = successor? id ys := by
  induction xs with
  | nil => rfl
  | cons a xs ih =>
    rw [List.mem_cons, not_or] at h
    simp [successor?, Ne.symm h.1, ih h.2]

theorem successor?_append_left {id : NodeId} {xs : List NodeId} (hn : xs.Nodup) (h : id ∈ xs)
    (ys : List NodeId) :
    successor? id (xs ++ ys) = if xs.getLast? = some id then ys.head? else successor? id xs := by
  induction xs with
  | nil => cases h
  | cons a xs ih =>
    rw [List.nodup_cons] at hn
    by_cases ha : a = id
    · subst ha
      cases xs with
      | nil => simp [successor?]
      | cons b xs =>
        have hlast : (b :: xs).getLast? ≠ some a := fun he => hn.1 (List.mem_of_getLast? he)
        rw [List.getLast?_cons_cons, if_neg hlast]
        simp [successor?]
    · have hm : id ∈ xs := (List.mem_cons.1 h).resolve_left (Ne.symm ha)
      have hlast : (a :: xs).getLast? = xs.getLast? := by
        cases xs with
        | nil => cases hm
        | cons b xs => exact List.getLast?_cons_cons
      simpa [successor?, ha, hlast] using ih hn.2 hm

/-- What follows an element outside `mid` depends on `mid` only right before it. -/
theorem successor?_around {id : NodeId} {xs mid : List NodeId} (hn : xs.Nodup) (h : id ∉ mid)
    (ys : List NodeId) :
    successor? id (xs ++ mid ++ ys) =
      if xs.getLast? = some id then (mid ++ ys).head?
      else if id ∈ xs then successor? id xs else successor? id ys := by
  rw [List.append_assoc]
  by_cases hx : id ∈ xs
  · rw [successor?_append_left hn hx, if_pos hx]
  · have hlast : xs.getLast? ≠ some id := fun he => hx (List.mem_of_getLast? he)
    rw [successor?_append_right hx, successor?_append_right h, if_neg hlast, if_neg hx]

/-- In a list without repetition, what follows a place is the head of the rest. -/
theorem successor?_middle {id : NodeId} {xs : List NodeId} (h : id ∉ xs) (ys : List NodeId) :
    successor? id (xs ++ id :: ys) = ys.head? := by
  rw [successor?_append_right h]
  simp [successor?]

theorem predecessor?_of_not_mem {id a : NodeId} {xs : List NodeId} (h : id ∉ xs) :
    Forest.predecessor? id (a :: xs) = none := by
  induction xs generalizing a with
  | nil => rfl
  | cons b xs ih =>
    rw [List.mem_cons, not_or] at h
    simp [Forest.predecessor?, Ne.symm h.1, ih h.2]

/-- In a list without repetition, what precedes a place is the last element before it. -/
theorem predecessor?_middle {id : NodeId} {xs ys : List NodeId} (h : id ∉ xs) (h' : id ∉ ys) :
    Forest.predecessor? id (xs ++ id :: ys) = xs.getLast? := by
  induction xs with
  | nil => exact predecessor?_of_not_mem h'
  | cons a xs ih =>
    rw [List.mem_cons, not_or] at h
    cases xs with
    | nil => simp [Forest.predecessor?]
    | cons b xs =>
      have hb : b ≠ id := fun e => h.2 (e ▸ List.mem_cons_self)
      rw [List.getLast?_cons_cons, ← ih h.2]
      simp [Forest.predecessor?, hb]

/-! ## Layouts and the order of nodes above each other -/

/-- Who stands under whom and in which order. -/
structure Layout where
  /-- The children of a node, in order. -/
  children : NodeId → List NodeId
  /-- The node that a node stands under, if any. -/
  parent : NodeId → Option NodeId
  /-- The children of a node are the nodes that stand under it. -/
  mem_children : ∀ {p c}, c ∈ children p ↔ parent c = some p
  /-- No child is listed twice. -/
  nodup : ∀ p, (children p).Nodup
  /-- No node is above itself. -/
  acyclic : ∀ id, ¬ Relation.TransGen (fun a b => parent b = some a) id id

namespace Layout

variable (s : Layout)

/-- `s.Above a b`: going up from `b` by one or more steps leads to `a`. -/
def Above (a b : NodeId) : Prop := Relation.TransGen (fun a b => s.parent b = some a) a b

/-- `s.Covers a b`: `b` is `a`, or `a` is above it. -/
def Covers (a b : NodeId) : Prop := Relation.ReflTransGen (fun a b => s.parent b = some a) a b

/-- The sibling right after a node. -/
def next (id : NodeId) : Option NodeId := (s.parent id).bind fun p => successor? id (s.children p)

/-- The layout in which every node stands alone. -/
def scattered : Layout where
  children _ := []
  parent _ := none
  mem_children := by simp
  nodup := by simp
  acyclic id h := by
    cases h with
    | single h => cases h
    | tail _ h => cases h

variable {s : Layout} {p a b c : NodeId}

theorem ext_children {s t : Layout} (h : ∀ p, s.children p = t.children p) : s = t := by
  have hc : s.children = t.children := funext h
  have hp : s.parent = t.parent := by
    funext c
    refine Option.ext fun p => ?_
    rw [← s.mem_children, ← t.mem_children, h]
  cases s
  cases t
  cases hc
  cases hp
  rfl

theorem covers_iff : s.Covers a b ↔ b = a ∨ s.Above a b := Relation.reflTransGen_iff_eq_or_transGen

theorem Above.covers (h : s.Above a b) : s.Covers a b := h.to_reflTransGen

theorem Covers.refl (s : Layout) (a : NodeId) : s.Covers a a := Relation.ReflTransGen.refl

/-- Above a node is its parent, and what is above its parent. -/
theorem above_iff : s.Above a b ↔ ∃ p, s.parent b = some p ∧ s.Covers a p :=
  Relation.TransGen.tail'_iff.trans (exists_congr fun _ => and_comm)

theorem not_above_of_childless (h : s.children a = []) : ¬ s.Above a b := by
  intro hab
  obtain ⟨c, hc, -⟩ := Relation.TransGen.head'_iff.1 hab
  rw [← s.mem_children, h] at hc
  cases hc

theorem covers_of_parentless (h : s.parent b = none) : s.Covers a b ↔ b = a := by
  refine ⟨fun hab => ?_, fun e => e ▸ Covers.refl s b⟩
  rcases covers_iff.1 hab with e | hab
  · exact e
  · obtain ⟨p, hp, -⟩ := above_iff.1 hab
    rw [h] at hp
    cases hp

theorem next_of_parentless (h : s.parent a = none) : s.next a = none := by
  simp [next, h]

/-- A sibling stands under the same node. -/
theorem parent_of_next (h : s.next a = some b) : ∃ p, s.parent a = some p ∧ s.parent b = some p := by
  obtain ⟨p, hp, hb⟩ := Option.bind_eq_some_iff.1 h
  exact ⟨p, hp, s.mem_children.1 (mem_of_successor? hb)⟩

theorem ne_of_parent (h : s.parent c = some p) : c ≠ p := by
  rintro rfl
  exact s.acyclic c (.single h)

theorem not_covers_parent (h : s.parent c = some p) : ¬ s.Covers c p :=
  fun hv => s.acyclic c (above_iff.2 ⟨p, h, hv⟩)

section Place

variable {before after : List NodeId} (h : s.children p = before ++ c :: after)

include h

theorem parent_of_middle : s.parent c = some p := by
  rw [← s.mem_children, h]
  exact List.mem_append_right _ List.mem_cons_self

theorem parent_of_beside (ha : a ∈ before ++ after) : s.parent a = some p := by
  rw [← s.mem_children, h]
  rcases List.mem_append.1 ha with ha | ha
  · exact List.mem_append_left _ ha
  · exact List.mem_append_right _ (List.mem_cons_of_mem _ ha)

theorem not_mem_of_middle : c ∉ before ∧ c ∉ after := by
  have hn := s.nodup p
  rw [h, List.nodup_middle, List.nodup_cons, List.mem_append, not_or] at hn
  exact hn.1

theorem next_of_middle : s.next c = after.head? := by
  rw [next, parent_of_middle h, Option.bind_some, h, successor?_middle (not_mem_of_middle h).1]

/-- A child is the last one when none is after it. -/
theorem last_iff_of_middle : (s.children p).getLast? = some c ↔ after = [] := by
  rw [h]
  constructor
  · intro hl
    rcases List.eq_nil_or_concat' after with he | ⟨after, a, rfl⟩
    · exact he
    · rw [← List.cons_append, ← List.append_assoc, List.getLast?_concat] at hl
      cases hl
      exact absurd (List.mem_append_right _ List.mem_cons_self) (not_mem_of_middle h).2
  · rintro rfl
    exact List.getLast?_concat

end Place

/-- Where a child stands among the children of its parent. -/
theorem exists_place (h : s.parent c = some p) :
    ∃ before after, s.children p = before ++ c :: after :=
  List.append_of_mem (s.mem_children.2 h)

/-! ## Grafting -/

/-- The nodes `cs` may be put between `before` and `after` under `p`: these two make up the children of
`p`, and the nodes of `cs` are distinct, stand alone and do not have `p` below them. -/
structure Fits (s : Layout) (p : NodeId) (before cs after : List NodeId) : Prop where
  place : s.children p = before ++ after
  alone : ∀ c ∈ cs, s.parent c = none
  clear : ∀ c ∈ cs, ¬ s.Covers c p
  distinct : cs.Nodup

variable {before cs after : List NodeId}

theorem Fits.not_mem_children (h : s.Fits p before cs after) (hc : c ∈ cs) (q : NodeId) :
    c ∉ s.children q := by
  rw [s.mem_children, h.alone c hc]
  exact nofun

theorem Fits.ne_parent (h : s.Fits p before cs after) (hc : c ∈ cs) : c ≠ p := by
  rintro rfl
  exact h.clear c hc (Covers.refl s c)

theorem Fits.ne_child (h : s.Fits p before cs after) (hc : c ∈ cs) (hb : s.parent b = some a) :
    c ≠ b := by
  rintro rfl
  rw [h.alone c hc] at hb
  cases hb

/-- A way up through new links under `p` goes up old links only, or passes from a grafted node to `p`. -/
theorem above_of_regrafted (s : Layout) (p : NodeId) (cs : List NodeId)
    (h : Relation.TransGen (fun a b => (if b ∈ cs then some p else s.parent b) = some a) a b) :
    s.Above a b ∨ s.Covers a p ∧ ∃ c ∈ cs, s.Covers c b := by
  induction h with
  | @single b hb =>
    by_cases hm : b ∈ cs
    · rw [if_pos hm, Option.some.injEq] at hb
      exact .inr ⟨hb ▸ Covers.refl s p, b, hm, Covers.refl s b⟩
    · rw [if_neg hm] at hb
      exact .inl (.single hb)
  | @tail b d _ hd ih =>
    by_cases hm : d ∈ cs
    · rw [if_pos hm, Option.some.injEq] at hd
      subst hd
      rcases ih with ih | ⟨hap, -⟩
      · exact .inr ⟨ih.covers, d, hm, Covers.refl s d⟩
      · exact .inr ⟨hap, d, hm, Covers.refl s d⟩
    · rw [if_neg hm] at hd
      rcases ih with ih | ⟨hap, c, hc, hcb⟩
      · exact .inl (.tail ih hd)
      · exact .inr ⟨hap, c, hc, .tail hcb hd⟩

/-- The layout with `cs` put between `before` and `after` under `p`. -/
def graft (s : Layout) (p : NodeId) (before cs after : List NodeId) (h : s.Fits p before cs after) :
    Layout where
  children q := if q = p then before ++ cs ++ after else s.children q
  parent x := if x ∈ cs then some p else s.parent x
  mem_children := by
    intro q x
    by_cases hx : x ∈ cs
    · by_cases hq : q = p
      · simp [hq, hx]
      · simp [hq, hx, h.not_mem_children hx q, Ne.symm hq]
    · by_cases hq : q = p
      · have hm : x ∈ s.children p ↔ x ∈ before ∨ x ∈ after := by rw [h.place, List.mem_append]
        simp [hq, hx, ← s.mem_children, hm]
      · simp [hq, hx, s.mem_children]
  nodup := by
    intro q
    by_cases hq : q = p
    · have hn := s.nodup p
      have hm : ∀ c ∈ cs, c ∉ before ++ after := fun c hc => h.place ▸ h.not_mem_children hc p
      rw [h.place, List.nodup_append'] at hn
      rw [if_pos hq, List.append_assoc, List.nodup_append', List.nodup_append']
      refine ⟨hn.1, ⟨h.distinct, hn.2.1, ?_⟩, ?_⟩
      · exact fun c hc ha => hm c hc (List.mem_append_right _ ha)
      · intro x hb hx
        rcases List.mem_append.1 hx with hx | hx
        · exact hm x hx (List.mem_append_left _ hb)
        · exact hn.2.2 hb hx
    · rw [if_neg hq]
      exact s.nodup q
  acyclic := by
    -- a cycle through a new link would lead from a node of `cs` down to `p`
    intro x hx
    rcases above_of_regrafted s p cs hx with hx | ⟨hp, c, hc, hcx⟩
    · exact s.acyclic x hx
    · exact h.clear c hc (hcx.trans hp)

theorem children_graft (h : s.Fits p before cs after) (q : NodeId) :
    (s.graft p before cs after h).children q = if q = p then before ++ cs ++ after else s.children q :=
  rfl

theorem parent_graft (h : s.Fits p before cs after) (x : NodeId) :
    (s.graft p before cs after h).parent x = if x ∈ cs then some p else s.parent x :=
  rfl

theorem next_graft (h : s.Fits p before cs after) (x : NodeId) :
    (s.graft p before cs after h).next x =
      if x ∈ cs then successor? x (cs ++ after)
      else if before.getLast? = some x then (cs ++ after).head? else s.next x := by
  have hn : before.Nodup := (List.nodup_append'.1 (h.place ▸ s.nodup p)).1
  have hb : ∀ {y}, y ∈ before → s.parent y = some p := fun hy =>
    s.mem_children.1 (h.place ▸ List.mem_append_left _ hy)
  unfold next
  rw [parent_graft]
  by_cases hx : x ∈ cs
  · have hxb : x ∉ before := fun hy => nomatch (h.alone x hx).symm.trans (hb hy)
    simp only [if_pos hx, Option.bind_some, children_graft, if_true]
    rw [List.append_assoc, successor?_append_right hxb]
  · rw [if_neg hx, if_neg hx]
    by_cases hp : s.parent x = some p
    · simp only [hp, Option.bind_some, children_graft, if_true]
      have hold := successor?_around hn (List.not_mem_nil (a := x)) after
      rw [List.append_nil, ← h.place] at hold
      rw [successor?_around hn hx, hold]
      split <;> rfl
    · have hlast : before.getLast? ≠ some x := fun he => hp (hb (List.mem_of_getLast? he))
      rw [if_neg hlast]
      refine Option.bind_congr fun q hq => ?_
      have hqp : q ≠ p := fun e => hp (e ▸ hq)
      rw [children_graft, if_neg hqp]

theorem place_graft (h : s.Fits p before cs after) :
    (s.graft p before cs after h).children p = before ++ cs ++ after := by
  rw [children_graft, if_pos rfl]

/-- Grafting takes nothing away from above a node: only parentless nodes get a parent. -/
theorem Covers.graft (h : s.Fits p before cs after) (hab : s.Covers a b) :
    (s.graft p before cs after h).Covers a b := by
  refine Relation.ReflTransGen.mono (fun x y hxy => ?_) a b hab
  have hy : y ∉ cs := fun hm => by
    rw [h.alone y hm] at hxy
    cases hxy
  rwa [parent_graft, if_neg hy]

/-- Grafting under `p` puts nothing above `p`. -/
theorem covers_of_graft (h : s.Fits p before cs after)
    (ha : (s.graft p before cs after h).Covers a p) : s.Covers a p := by
  rcases covers_iff.1 ha with rfl | ha
  · exact Covers.refl s p
  · rcases above_of_regrafted s p cs ha with ha | ⟨ha, -⟩
    · exact ha.covers
    · exact ha

theorem fits_one (h : s.children p = before ++ after) (hc : s.parent c = none)
    (hv : ¬ s.Covers c p) : s.Fits p before [c] after where
  place := h
  alone x hx := by rw [List.mem_singleton.1 hx, hc]
  clear x hx := by rwa [List.mem_singleton.1 hx]
  distinct := List.nodup_singleton c

theorem Fits.behind (h : s.Fits p before cs []) : s.Fits p (s.children p) cs [] :=
  ⟨(List.append_nil _).symm, h.alone, h.clear, h.distinct⟩

theorem Fits.first (h : s.Fits p before (c :: cs) after) : s.Fits p before [c] after :=
  fits_one h.place (h.alone c List.mem_cons_self) (h.clear c List.mem_cons_self)

/-- After the first of a list is grafted, the rest fits behind it. -/
theorem Fits.rest (h : s.Fits p before (c :: cs) after) :
    (s.graft p before [c] after h.first).Fits p (before ++ [c]) cs after where
  place := by rw [children_graft, if_pos rfl]
  alone x hx := by
    have hxc : x ≠ c := fun e => (List.nodup_cons.1 h.distinct).1 (e ▸ hx)
    rw [parent_graft, if_neg (by simpa using hxc)]
    exact h.alone x (List.mem_cons_of_mem _ hx)
  clear x hx hv := h.clear x (List.mem_cons_of_mem _ hx) (covers_of_graft h.first hv)
  distinct := (List.nodup_cons.1 h.distinct).2

/-- What fits behind a grafted node fits together with it: grafting one node under `p` neither gave another
node of the list a parent nor put `p` below it. -/
theorem Fits.cons (h : s.Fits p before [c] after)
    (hrest : (s.graft p before [c] after h).Fits p (before ++ [c]) cs after) :
    s.Fits p before (c :: cs) after := by
  have halone : ∀ x ∈ cs, x ≠ c ∧ s.parent x = none := by
    intro x hx
    have hx' := hrest.alone x hx
    rw [parent_graft] at hx'
    split at hx'
    · cases hx'
    · rename_i hne
      exact ⟨by simpa using hne, hx'⟩
  constructor
  · exact h.place
  · exact List.forall_mem_cons.2 ⟨h.alone c List.mem_cons_self, fun x hx => (halone x hx).2⟩
  · exact List.forall_mem_cons.2 ⟨h.clear c List.mem_cons_self, fun x hx hv => hrest.clear x hx (hv.graft h)⟩
  · exact List.nodup_cons.2 ⟨fun hc => (halone c hc).1 rfl, hrest.distinct⟩

theorem graft_cons (h : s.Fits p before (c :: cs) after) :
    (s.graft p before [c] after h.first).graft p (before ++ [c]) cs after h.rest =
      s.graft p before (c :: cs) after h := by
  refine ext_children fun q => ?_
  by_cases hq : q = p <;> simp [children_graft, hq]

theorem graft_nil (h : s.Fits p before [] after) : s.graft p before [] after h = s := by
  refine ext_children fun q => ?_
  by_cases hq : q = p <;> simp [children_graft, hq, h.place]

/-! ## Pruning -/

theorem parent_of_place (h : s.children p = before ++ cs ++ after) (hc : c ∈ cs) :
    s.parent c = some p := by
  rw [← s.mem_children, h]
  exact List.mem_append_left _ (List.mem_append_right _ hc)

theorem not_mem_around (h : s.children p = before ++ cs ++ after) (hc : c ∈ cs) :
    c ∉ before ++ after := by
  have hn := s.nodup p
  rw [h, List.append_assoc, List.nodup_append', List.nodup_append'] at hn
  rw [List.mem_append, not_or]
  exact ⟨fun hb => hn.2.2 hb (List.mem_append_left _ hc), fun ha => hn.2.1.2.2 hc ha⟩

/-- The layout with `cs` taken away from between `before` and `after` under `p`. -/
def prune (s : Layout) (p : NodeId) (before cs after : List NodeId)
    (h : s.children p = before ++ cs ++ after) : Layout where
  children q := if q = p then before ++ after else s.children q
  parent x := if x ∈ cs then none else s.parent x
  mem_children := by
    intro q x
    by_cases hx : x ∈ cs
    · by_cases hq : q = p
      · have hd := not_mem_around h hx
        rw [List.mem_append] at hd
        simp [hq, hx, hd]
      · simp [hq, hx, s.mem_children, parent_of_place h hx, Ne.symm hq]
    · by_cases hq : q = p
      · have hm : x ∈ s.children p ↔ x ∈ before ∨ x ∈ after := by simp [h, hx]
        simp [hq, hx, ← s.mem_children, hm]
      · simp [hq, hx, s.mem_children]
  nodup := by
    intro q
    by_cases hq : q = p
    · have hs : (before ++ after).Sublist (s.children p) := by
        rw [h]
        exact (List.sublist_append_left before cs).append_right after
      rw [if_pos hq]
      exact hs.nodup (s.nodup p)
    · rw [if_neg hq]
      exact s.nodup q
  acyclic := by
    -- every way up that is left was there before
    intro x hx
    refine s.acyclic x (Relation.TransGen.mono (fun a b hab => ?_) x x hx)
    by_cases hb : b ∈ cs
    · rw [if_pos hb] at hab
      cases hab
    · rwa [if_neg hb] at hab

theorem children_prune (h : s.children p = before ++ cs ++ after) (q : NodeId) :
    (s.prune p before cs after h).children q = if q = p then before ++ after else s.children q :=
  rfl

theorem parent_prune (h : s.children p = before ++ cs ++ after) (x : NodeId) :
    (s.prune p before cs after h).parent x = if x ∈ cs then none else s.parent x :=
  rfl

theorem next_prune (h : s.children p = before ++ cs ++ after) (x : NodeId) :
    (s.prune p before cs after h).next x =
      if x ∈ cs then none else if before.getLast? = some x then after.head? else s.next x := by
  have hn : before.Nodup := by
    have hs := s.nodup p
    rw [h, List.append_assoc, List.nodup_append'] at hs
    exact hs.1
  unfold next
  rw [parent_prune]
  by_cases hx : x ∈ cs
  · rw [if_pos hx, if_pos hx]
    rfl
  · rw [if_neg hx, if_neg hx]
    by_cases hp : s.parent x = some p
    · simp only [hp, Option.bind_some, children_prune, if_true]
      have hnew := successor?_around hn (List.not_mem_nil (a := x)) after
      rw [List.append_nil] at hnew
      rw [h, successor?_around hn hx, hnew]
      split <;> rfl
    · have hlast : before.getLast? ≠ some x := by
        intro he
        apply hp
        rw [← s.mem_children, h, List.append_assoc]
        exact List.mem_append_left _ (List.mem_of_getLast? he)
      rw [if_neg hlast]
      refine Option.bind_congr fun q hq => ?_
      have hqp : q ≠ p := fun e => hp (e ▸ hq)
      rw [children_prune, if_neg hqp]

theorem covers_of_prune (h : s.children p = before ++ cs ++ after)
    (hab : (s.prune p before cs after h).Covers a b) : s.Covers a b := by
  refine Relation.ReflTransGen.mono (fun x y hxy => ?_) a b hab
  rw [parent_prune] at hxy
  split at hxy
  · cases hxy
  · exact hxy

theorem fits_of_prune (h : s.children p = before ++ cs ++ after) (hc : s.parent c = none)
    (hv : ¬ s.Covers c p) : (s.prune p before cs after h).Fits p before [c] after := by
  refine fits_one ?_ ?_ fun hv' => hv (covers_of_prune h hv')
  · rw [children_prune, if_pos rfl]
  · rw [parent_prune, hc, ite_self]

theorem prune_nil (h : s.children p = before ++ [] ++ after) : s.prune p before [] after h = s := by
  refine ext_children fun q => ?_
  by_cases hq : q = p <;> simp [children_prune, hq, h]

/-- The first child is taken away, and then all others. -/
theorem prune_prune_first (h : s.children p = [] ++ (c :: cs) ++ []) {hfirst : s.children p = [] ++ [c] ++ cs}
    {hrest : (s.prune p [] [c] cs hfirst).children p = [] ++ cs ++ []} :
    (s.prune p [] [c] cs hfirst).prune p [] cs [] hrest = s.prune p [] (c :: cs) [] h := by
  refine ext_children fun q => ?_
  by_cases hq : q = p <;> simp [children_prune, hq]

/-! ## Grafting and pruning in the same place -/

/-- What was pruned fits in its old place. -/
theorem fits_pruned (h : s.children p = before ++ cs ++ after) :
    (s.prune p before cs after h).Fits p before cs after where
  place := by rw [children_prune, if_pos rfl]
  alone c hc := by rw [parent_prune, if_pos hc]
  clear c hc hv := not_covers_parent (parent_of_place h hc) (covers_of_prune h hv)
  distinct := by
    have hn := s.nodup p
    rw [h, List.append_assoc, List.nodup_append', List.nodup_append'] at hn
    exact hn.2.1.1

theorem graft_prune (h : s.children p = before ++ cs ++ after) :
    (s.prune p before cs after h).graft p before cs after (fits_pruned h) = s := by
  refine ext_children fun q => ?_
  by_cases hq : q = p <;> simp [children_graft, children_prune, hq, h]

/-- Putting `c` before `a`, and then taking `a` away, is putting `c` in the place of `a`. -/
theorem prune_graft_before (h : s.children p = before ++ [a] ++ after) (hfit : s.Fits p before [c] (a :: after))
    (h' : (s.graft p before [c] (a :: after) hfit).children p = before ++ [c] ++ [a] ++ after)
    (hfit' : (s.prune p before [a] after h).Fits p before [c] after) :
    (s.graft p before [c] (a :: after) hfit).prune p (before ++ [c]) [a] after h' =
      (s.prune p before [a] after h).graft p before [c] after hfit' := by
  refine ext_children fun q => ?_
  by_cases hq : q = p <;> simp [children_graft, children_prune, hq]

theorem prune_graft (h : s.Fits p before cs after) :
    (s.graft p before cs after h).prune p before cs after (place_graft h) = s := by
  refine ext_children fun q => ?_
  by_cases hq : q = p <;> simp [children_graft, children_prune, hq, h.place]

end Layout

end SyntaxForest
