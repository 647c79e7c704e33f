import SyntaxForest.Command
import SyntaxForest.Proofs.Copying
import SyntaxForest.Proofs.Detaching
/-!
# Runs of commands

Every command leads from a forest with a layout to a forest with a layout and spares the trees that it
names no node of, or changes nothing. Hence every reachable forest has a layout. So it is well formed,
and a command that fails on it leaves it as it was.
-/

namespace SyntaxForest

open Edit

variable {s : Layout} {f g : Forest} {id : NodeId}

/-! ## Creation and contents -/

theorem Layout.Describes.of_links {n m : Node} (h : s.Describes id n)
    (hl : Forest.links m = Forest.links n) : s.Describes id m := by
  simp only [Forest.links, List.cons.injEq, and_true] at hl
  obtain ⟨hp, hf, hb, hn⟩ := hl
  exact ⟨hp.trans h.parent, hf.trans h.firstChild, hb.trans h.lastChild, hn.trans h.nextSibling⟩

namespace Edit

theorem newNode_leads (h : f.Realizes s) (kind : Kind) (position : Position) :
    (newNode kind position).Leads f fun _ g => f.Spares s [] g s := by
  unfold newNode
  split
  · exact leads_throw trivial
  · exact allocate_leads h rfl []

theorem newText_leads (h : f.Realizes s) (kind : Kind) (value : Option String) (position : Position) :
    (newText kind value position).Leads f fun _ g => f.Spares s [] g s := by
  unfold newText
  split
  · exact leads_throw trivial
  · cases value with
    | none => exact leads_throw trivial
    | some text => exact allocate_leads h rfl []

/-- A change that writes no link keeps the layout. -/
theorem change_leads (h : f.Realizes s) {id : NodeId} {names : List NodeId} (hid : id ∈ names)
    {update : Node → Node} (hu : ∀ n, Forest.links (update n) = Forest.links n) :
    (change id update).Leads f fun _ g => f.Spares s names g s := by
  by_cases hhas : f.Has id
  · refine ((succeeds_change hhas update).mono fun _ g hg => ⟨?_, fun _ hr _ => .refl hr, ?_⟩).leads
    · refine hg.realizes h (fun x n hn => ?_) h.has
      by_cases hx : x = id
      · subst hx
        rw [if_pos rfl]
        exact hn.of_links (hu n)
      · rwa [if_neg hx]
    · intro x hx hno
      have hne : x ≠ id := fun e => hno (e ▸ hid)
      obtain ⟨n, hn⟩ := Forest.has_iff_node.1 hx
      rw [Forest.contents, Forest.contents, hg.node hn, hn, if_neg hne]
  · constructor
    · intro a g hok
      exact absurd (change_eq_ok.1 hok).1 hhas
    · intro e g herror
      obtain ⟨-, rfl, rfl⟩ := change_eq_error.1 herror
      exact ⟨trivial, rfl⟩

theorem setText_leads (h : f.Realizes s) (id : NodeId) (value : String) :
    (setText id value).Leads f fun _ g => f.Spares s [id] g s := by
  refine leads_ask (fun _ => ordinary_of_node) fun n _ => ?_
  cases n.payload with
  | text _ => exact change_leads h List.mem_cons_self fun _ => rfl
  | generic | number _ => exact leads_throw trivial

theorem setNumber_leads (h : f.Realizes s) (id : NodeId) (value : Double) :
    (setNumber id value).Leads f fun _ g => f.Spares s [id] g s := by
  refine leads_ask (fun _ => ordinary_of_node) fun n _ => ?_
  cases n.payload with
  | number _ => exact change_leads h List.mem_cons_self fun _ => rfl
  | generic | text _ => exact leads_throw trivial

theorem changeProperties_leads (h : f.Realizes s) (id : NodeId) (update : PropertyList → PropertyList) :
    (changeProperties id update).Leads f fun _ g => f.Spares s [id] g s :=
  change_leads h List.mem_cons_self fun _ => rfl

end Edit

/-! ## Commands -/

/-- A command spares the trees that it names no node of, or changes nothing. -/
theorem Command.run_leads (h : f.Realizes s) (command : Command) :
    command.run.Leads f fun _ g => ∃ t, f.Spares s command.targets g t := by
  have same : ∀ {α : Type} {edit : Edit α} {names}, edit.Leads f (fun _ g => f.Spares s names g s) →
      edit.Leads f fun _ g => ∃ t, f.Spares s names g t := fun he => he.mono fun _ _ hg => ⟨s, hg⟩
  have done : ∀ {edit : Edit Unit} {names}, edit.Leads f (fun _ g => ∃ t, f.Spares s names g t) →
      (edit >>= fun _ => pure Reply.done).Leads f fun _ g => ∃ t, f.Spares s names g t :=
    fun he => he.bind fun _ _ hg => succeeds_pure hg
  have named : ∀ {p : NodeId} {names : List NodeId}, p ∈ names → ∃ a ∈ names, s.Covers p a :=
    fun {p} {_} hp => ⟨p, hp, Layout.Covers.refl s p⟩
  cases command with
  | newNode kind position => exact (same (newNode_leads h kind position)).map
  | newText kind value position => exact (same (newText_leads h kind value position)).map
  | newNumber value position => exact (same (allocate_leads h rfl [])).map
  | construct construction => exact (construction.run_leads h).map
  | prependChild parent child =>
    refine done ((prependChild_leads h parent child).mono fun _ g hg => ?_)
    exact ⟨_, hg.spares h (named List.mem_cons_self) (by simp [targets])⟩
  | appendChild parent child =>
    refine done ((appendChild_leads h parent child).mono fun _ g hg => ?_)
    exact ⟨_, hg.spares h (named List.mem_cons_self) (by simp [targets])⟩
  | appendChildren parent children =>
    refine done ((appendChildren_leads h parent children).mono fun _ g hg => ?_)
    exact ⟨_, hg.spares List.mem_cons_self (List.subset_cons_self _ _)⟩
  | insertAfter child sibling =>
    refine done ((insertAfter_leads h child sibling).mono fun _ g hg => ?_)
    obtain ⟨p, before, after, hg⟩ := hg
    have hplace : s.children p = before ++ sibling :: after := by simpa using hg.fits.place
    exact ⟨_, hg.spares h ⟨sibling, by simp [targets], .single (Layout.parent_of_middle hplace)⟩
      List.mem_cons_self⟩
  | insertBefore child sibling =>
    refine done ((insertBefore_leads h child sibling).mono fun _ g hg => ?_)
    obtain ⟨p, before, after, hg⟩ := hg
    exact ⟨_, hg.spares h ⟨sibling, by simp [targets], .single (Layout.parent_of_middle hg.fits.place)⟩
      List.mem_cons_self⟩
  | detach id =>
    refine done ((detach_leads h id).mono fun _ g hg => ?_)
    obtain ⟨p, before, after, hg⟩ := hg
    exact ⟨_, hg.spares h ⟨id, List.mem_cons_self,
      .single (Layout.parent_of_place hg.place List.mem_cons_self)⟩⟩
  | removeChild parent child =>
    refine done ((removeChild_leads h parent child).mono fun _ g hg => ?_)
    obtain ⟨before, after, hg⟩ := hg
    exact ⟨_, hg.spares h (named List.mem_cons_self)⟩
  | removeFirstChild parent =>
    refine Leads.map ((removeFirstChild_leads h parent).mono fun _ g hg => ?_)
    rcases hg with ⟨-, -, rfl⟩ | ⟨_, _, -, hg⟩
    · exact ⟨s, .refl h _⟩
    · exact ⟨_, hg.spares h (named List.mem_cons_self)⟩
  | detachChildren parent =>
    refine Leads.map ((detachChildren_leads h parent).mono fun _ g hg => ?_)
    exact ⟨_, hg.2.spares h (named List.mem_cons_self)⟩
  | replaceWith old replacement =>
    refine done ((replaceWith_leads h old replacement).mono fun _ g hg => ?_)
    obtain ⟨p, before, after, hg⟩ := hg
    exact ⟨_, hg.spares h List.mem_cons_self (by simp [targets])⟩
  | copyNode id => exact (same (copyNode_leads h id _)).map
  | copyTree root => exact (copyTree_leads h root _).map
  | setText id value => exact done (same (setText_leads h id value))
  | setNumber id value => exact done (same (setNumber_leads h id value))
  | setPosition id position => exact done (same (change_leads h List.mem_cons_self fun _ => rfl))
  | copyPosition id source =>
    refine done (same (leads_ask (fun _ => ordinary_of_read) fun position _ => ?_))
    exact change_leads h List.mem_cons_self fun _ => rfl
  | putBool id key value => exact done (same (changeProperties_leads h id _))
  | putInt id key value => exact done (same (changeProperties_leads h id _))
  | putObject id key value => exact done (same (changeProperties_leads h id _))
  | removeProperty id key => exact done (same (changeProperties_leads h id _))
  | setTypeText id text => exact done (same (change_leads h List.mem_cons_self fun _ => rfl))

/-! ## Runs -/

theorem Forest.Reachable.realizes (h : f.Reachable) : ∃ s, f.Realizes s := by
  induction h with
  | empty => exact ⟨_, Forest.realizes_empty⟩
  | step command _ ih =>
    obtain ⟨s, hs⟩ := ih
    have hstep : command.run.Leads _ fun _ g => ∃ t, g.Realizes t :=
      (command.run_leads hs).mono fun _ _ ⟨t, hg⟩ => ⟨t, hg.realizes⟩
    exact hstep.after ⟨s, hs⟩

/-- The forest that a sequence of commands makes from `f`, whatever they answer. -/
def Command.runAll (commands : List Command) (f : Forest) : Forest :=
  commands.foldl (fun f command => command.run.after f) f

theorem Forest.Reachable.runAll (h : f.Reachable) (commands : List Command) :
    (Command.runAll commands f).Reachable := by
  induction commands generalizing f with
  | nil => exact h
  | cons command commands ih => exact ih (.step command h)

/-- A run with refused commands in it: a script is put together, is not hung under its own leaf, and
has its block copied and its statements put in another order. -/
def sampleRun : List Command :=
  [.construct .thisRef, .construct (.identifier "x"), .construct (.exprResult ⟨0⟩),
    .construct (.exprResult ⟨1⟩), .construct (.block [⟨2⟩, ⟨3⟩]), .construct (.script [⟨4⟩]),
    .appendChild ⟨0⟩ ⟨5⟩, .copyTree ⟨4⟩, .detach ⟨2⟩, .insertAfter ⟨2⟩ ⟨3⟩, .replaceWith ⟨40⟩ ⟨2⟩]

def sampleForest : Forest := Command.runAll sampleRun .empty

theorem reachable_sampleForest : sampleForest.Reachable := Forest.Reachable.empty.runAll sampleRun

/-! ## What every run keeps -/

/-- Every reachable forest is well formed. -/
theorem reachable_wellFormed (h : f.Reachable) : f.WellFormed := by
  obtain ⟨s, hs⟩ := h.realizes
  exact hs.wellFormed

theorem sampleForest_wellFormed :
    sampleForest.WellFormed ∧ sampleForest.size = 11 ∧ sampleForest.children ⟨4⟩ = .ok [⟨3⟩, ⟨2⟩] :=
  ⟨reachable_wellFormed reachable_sampleForest, by decide +kernel, by decide +kernel⟩

/-- A command that fails on a reachable forest leaves it as it was. -/
theorem after_eq_self_of_error (hf : f.Reachable) {command : Command} {e : Fault}
    (h : command.run.answer f = .error e) : command.run.after f = f := by
  obtain ⟨s, hs⟩ := hf.realizes
  exact ((command.run_leads hs).error (answer_eq_error_iff.1 h)).2

-- one of the two could be linked, and is not
theorem sampleForest_after_repeated :
    (Command.appendChildren ⟨5⟩ [⟨6⟩, ⟨6⟩]).run.answer sampleForest =
        .error (.link ⟨6⟩ .appendChildren .listedTwice) ∧
      (Command.appendChildren ⟨5⟩ [⟨6⟩, ⟨6⟩]).run.after sampleForest = sampleForest := by
  have h : (Command.appendChildren ⟨5⟩ [⟨6⟩, ⟨6⟩]).run.answer sampleForest =
      .error (.link ⟨6⟩ .appendChildren .listedTwice) := by decide +kernel
  exact ⟨h, after_eq_self_of_error reachable_sampleForest h⟩

end SyntaxForest
