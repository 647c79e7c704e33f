import SyntaxForest.Proofs.Insertion
/-!
# Edits as sequences of smaller ones

Appending a list, replacing a node and detaching all children each patch the links in one go. Smaller edits,
one after the other, reach the same layout through other forests, and change nothing that a node carries. A
layout and what the nodes carry make up the whole forest, so both ways leave the same forest behind.
-/

namespace SyntaxForest

open Edit

variable {s : Layout} {f g g' : Forest} {p c old : NodeId} {before cs ds after : List NodeId}

/-! ## Appending a list -/

theorem Layout.Appends.unique (h : s.Appends f g p cs) (h' : s.Appends f g' p cs) : g' = g :=
  h.realizes.eq_of_layout h'.realizes (h.sameContents.symm.trans h'.sameContents)

namespace Edit

/-- The batch is checked against the forest before the first link, a sequence each time against a forest that
has changed. But a link under `p` puts nothing above `p`, so what the sequence lets through fits at once. -/
theorem appends_of_each (h : f.Realizes s) (hp : f.Has p) (he : cs.forM (appendChild p) f = .ok () g) :
    s.Appends f g p cs := by
  induction cs generalizing f s with
  | nil =>
    cases he
    exact Layout.appends_nil h p
  | cons c cs ih =>
    obtain ⟨_, g₁, hfirst, hrest⟩ := bind_eq_ok.1 he
    have hg₁ := (appendChild_leads h p c).ok hfirst
    exact (ih (hg₁.realizes h) (hg₁.rewritten.has.2 hp) hrest).cons hg₁

theorem appendChildren_eq_ok_iff (h : f.Realizes s) (hp : f.Has p) :
    appendChildren p cs f = .ok () g ↔ cs.forM (appendChild p) f = .ok () g := by
  constructor
  · intro he
    have hg := (appendChildren_leads h p cs).ok he
    obtain ⟨_, g', he', hg'⟩ := forM_appends appendChild_succeeds h hp hg.has hg.fits
    rwa [hg.unique hg'] at he'
  · intro he
    have hg := appends_of_each h hp he
    obtain ⟨_, g', he', hg'⟩ := appendChildren_succeeds h hp hg.has hg.fits
    rwa [hg.unique hg'] at he'

end Edit

/-- In a reachable forest a list can be appended at once exactly when its nodes can be appended in turn, with
the same forest as the result. When some node cannot be appended in its turn, none is appended. -/
theorem reachable_appendChildren_inTurn (hf : f.Reachable) (hp : f.Has p) (cs : List NodeId) :
    (∀ g, appendChildren p cs f = .ok () g ↔ cs.forM (appendChild p) f = .ok () g) ∧
      ∀ e, (cs.forM (appendChild p)).answer f = .error e → ∃ e', appendChildren p cs f = .error e' f := by
  obtain ⟨s, h⟩ := hf.realizes
  refine ⟨fun g => appendChildren_eq_ok_iff h hp, fun e he => ?_⟩
  cases hbatch : appendChildren p cs f with
  | ok u g =>
    rw [answer_eq_error_iff, (appendChildren_eq_ok_iff h hp).1 hbatch] at he
    cases he
  | error e' g => exact ⟨e', by rw [((appendChildren_leads h p cs).error hbatch).2]⟩

/-- The statements of the block stand alone, beside the script that the block is in. -/
def scatteredSample : Forest := Command.runAll [.detach ⟨3⟩, .detach ⟨2⟩] sampleForest

-- the script is above the block, so it cannot follow the statement that is already linked in its turn
theorem scatteredSample_appendChildren_inTurn :
    (appendChildren ⟨4⟩ [⟨2⟩, ⟨6⟩, ⟨3⟩]).answer scatteredSample = .ok () ∧
      (∀ g, appendChildren ⟨4⟩ [⟨2⟩, ⟨6⟩, ⟨3⟩] scatteredSample = .ok () g ↔
        [⟨2⟩, ⟨6⟩, ⟨3⟩].forM (appendChild ⟨4⟩) scatteredSample = .ok () g) ∧
      ([⟨2⟩, ⟨5⟩, ⟨3⟩].forM (appendChild ⟨4⟩)).answer scatteredSample =
        .error (.link ⟨5⟩ .appendChild .ownDescendant) ∧
      ∃ e, appendChildren ⟨4⟩ [⟨2⟩, ⟨5⟩, ⟨3⟩] scatteredSample = .error e scatteredSample := by
  have hreach : scatteredSample.Reachable := reachable_sampleForest.runAll _
  have hhas : scatteredSample.Has ⟨4⟩ := by decide +kernel
  have hfails : ([⟨2⟩, ⟨5⟩, ⟨3⟩].forM (appendChild ⟨4⟩)).answer scatteredSample =
      .error (.link ⟨5⟩ .appendChild .ownDescendant) := by decide +kernel
  exact ⟨by decide +kernel, (reachable_appendChildren_inTurn hreach hhas _).1, hfails,
    (reachable_appendChildren_inTurn hreach hhas _).2 _ hfails⟩

/-! ## Replacing -/

namespace Edit

theorem replaceWith_eq_insertBefore (h : f.Realizes s) (ha : (replaceWith old c).answer f = .ok ()) :
    (do insertBefore c old; detach old) f = replaceWith old c f := by
  have hreplaced := answer_eq_ok_iff.1 ha
  obtain ⟨p, before, after, hr⟩ := (replaceWith_leads h old c).ok hreplaced
  have hplace : s.children p = before ++ old :: after := by simpa using hr.place
  obtain ⟨_, g, hinserted, hg⟩ :=
    insertBefore_succeeds h hr.has_child (Layout.fits_one hplace hr.alone hr.clear)
  -- the old node has moved one place back
  have hplace' := Layout.place_graft hg.fits
  obtain ⟨_, g', hdetached, hg'⟩ := detach_succeeds (hg.realizes h) hplace'
  have hrealizes := hg'.realizes (hg.realizes h)
  rw [Layout.prune_graft_before hr.place hg.fits hg'.place hr.fits] at hrealizes
  have hsame : f.SameContents g' := hg.sameContents.trans hg'.sameContents
  rw [bind_of_ok hinserted, hdetached, hreplaced,
    (hr.realizes h).eq_of_layout hrealizes (hr.sameContents.symm.trans hsame)]

/-! ## Detaching all children -/

/-- `Drains p f cs g`: taking the first child of `p` away, again and again until there is none, answers the
nodes of `cs` in turn and leads from `f` to `g`. -/
inductive Drains (p : NodeId) : Forest → List NodeId → Forest → Prop
  | done {f g : Forest} : removeFirstChild p f = .ok none g → Drains p f [] g
  | next {f g h : Forest} {c : NodeId} {cs : List NodeId} :
      removeFirstChild p f = .ok (some c) g → Drains p g cs h → Drains p f (c :: cs) h

theorem Drains.unique (h : Drains p f cs g) (h' : Drains p f ds g') : ds = cs ∧ g' = g := by
  induction h generalizing ds with
  | done hnone =>
    cases h' with
    | done hnone' =>
      rw [hnone] at hnone'
      cases hnone'
      exact ⟨rfl, rfl⟩
    | next hsome' _ =>
      rw [hnone] at hsome'
      cases hsome'
  | next hsome _ ih =>
    cases h' with
    | done hnone' =>
      rw [hsome] at hnone'
      cases hnone'
    | next hsome' hrest' =>
      rw [hsome] at hsome'
      cases hsome'
      obtain ⟨rfl, rfl⟩ := ih hrest'
      exact ⟨rfl, rfl⟩

theorem drains_of_place (h : f.Realizes s) (hp : f.Has p) (hplace : s.children p = [] ++ cs ++ []) :
    ∃ g, Drains p f cs g ∧ g.Realizes (s.prune p [] cs [] hplace) ∧ f.SameContents g := by
  induction cs generalizing f s with
  | nil =>
    obtain ⟨_, g, he, ⟨-, rfl, rfl⟩ | ⟨c, rest, -, hg⟩⟩ := removeFirstChild_succeeds h hp
    · exact ⟨g, .done he, (Layout.prune_nil hplace).symm ▸ h, .refl g⟩
    · cases hplace.symm.trans hg.place
  | cons c cs ih =>
    obtain ⟨_, g, he, ⟨hnone, -, -⟩ | ⟨c', rest, rfl, hg⟩⟩ := removeFirstChild_succeeds h hp
    · cases hplace.symm.trans hnone
    · obtain ⟨rfl, rfl⟩ : c = c' ∧ cs = rest := by simpa using hplace.symm.trans hg.place
      have hrest : (s.prune p [] [c] cs hg.place).children p = [] ++ cs ++ [] := by
        simp [Layout.children_prune]
      obtain ⟨g', hdrains, hrealizes, hsame⟩ := ih (hg.realizes h) (hg.rewritten.has.2 hp) hrest
      rw [Layout.prune_prune_first hplace] at hrealizes
      exact ⟨g', .next he hdrains, hrealizes, hg.sameContents.trans hsame⟩

/-- Detaching all children at once does what taking the first one away does, repeated until none is left. -/
theorem drains_of_detachChildren (h : f.Realizes s) (hp : f.Has p) (he : detachChildren p f = .ok cs g) :
    Drains p f cs g := by
  obtain ⟨rfl, hg⟩ := (detachChildren_leads h p).ok he
  obtain ⟨g', hdrains, hrealizes, hsame⟩ := drains_of_place h hp hg.place
  rwa [(hg.realizes h).eq_of_layout hrealizes (hg.sameContents.symm.trans hsame)] at hdrains

end Edit

/-- Replacing and detaching all children are sequences of smaller edits. -/
structure Forest.Decomposes (f : Forest) : Prop where
  replaceWith_iff : ∀ old c,
    (replaceWith old c).answer f = .ok () ↔ (insertBefore c old).answer f = .ok ()
  replaceWith : ∀ old c, (replaceWith old c).answer f = .ok () →
    (do insertBefore c old; detach old) f = Edit.replaceWith old c f
  /-- Taking away the first child until there is none comes to an end, with the same nodes and the same forest. -/
  detachChildren : ∀ p, f.Has p → ∃ cs g, Edit.detachChildren p f = .ok cs g ∧
    ∀ ds g', Drains p f ds g' ↔ ds = cs ∧ g' = g

/-- In a reachable forest the edits that do several things at once do what smaller edits do in turn. -/
theorem reachable_decomposes (hf : f.Reachable) : f.Decomposes := by
  obtain ⟨s, h⟩ := hf.realizes
  constructor
  · exact fun old c => (replaceWith_answer h old c).trans (insertBefore_answer h c old).symm
  · exact fun old c => replaceWith_eq_insertBefore h
  · intro p hp
    obtain ⟨cs, g, he, -⟩ := detachChildren_succeeds h hp
    have hdrains := drains_of_detachChildren h hp he
    refine ⟨cs, g, he, fun ds g' => ⟨hdrains.unique, ?_⟩⟩
    rintro ⟨rfl, rfl⟩
    exact hdrains

-- the copied block takes the place of the last statement, and the block loses both of its statements
theorem sampleForest_decomposes :
    sampleForest.Decomposes ∧ (replaceWith ⟨2⟩ ⟨6⟩).answer sampleForest = .ok () ∧
      (replaceWith ⟨2⟩ ⟨5⟩).answer sampleForest = .error (.link ⟨5⟩ .replaceWith .ownDescendant) ∧
      (detachChildren ⟨4⟩).answer sampleForest = .ok [⟨3⟩, ⟨2⟩] :=
  ⟨reachable_decomposes reachable_sampleForest, by decide +kernel, by decide +kernel, by decide +kernel⟩

end SyntaxForest
