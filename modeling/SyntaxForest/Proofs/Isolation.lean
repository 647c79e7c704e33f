import SyntaxForest.Proofs.Roots
import SyntaxForest.Proofs.Runs
/-!
# Trees that a run leaves alone

A command keeps every record in a tree that it names no node of. Such a tree also stays a tree of its own,
so the same holds of runs of any length, while other trees are joined and split. A copy shares no tree with
what was there before, and neither does a node that is allocated later.
-/

namespace SyntaxForest

open Edit

variable {s t : Layout} {f g : Forest} {r x : NodeId} {names : List NodeId}

namespace Forest

/-- The tree of `root` is the same in `g` as in `f`: it has the same nodes, with the same records. -/
structure KeepsTree (f g : Forest) (root : NodeId) : Prop where
  node : ∀ x, f.rootOf x = .ok root → g.node x = f.node x
  rootOf : ∀ x, g.rootOf x = .ok root ↔ f.rootOf x = .ok root

theorem KeepsTree.refl (f : Forest) (r : NodeId) : f.KeepsTree f r := ⟨fun _ _ => rfl, fun _ => Iff.rfl⟩

theorem KeepsTree.trans {h : Forest} (h₁ : f.KeepsTree g r) (h₂ : g.KeepsTree h r) : f.KeepsTree h r where
  node x hx := (h₂.node x ((h₁.rootOf x).2 hx)).trans (h₁.node x hx)
  rootOf x := (h₂.rootOf x).trans (h₁.rootOf x)

theorem Spares.keepsTree (h : f.Spares s names g t) (hf : f.Realizes s) (hr : f.rootOf r = .ok r)
    (hno : ∀ a ∈ names, f.rootOf a ≠ .ok r) : f.KeepsTree g r := by
  obtain ⟨hhas, htop, -⟩ := hf.rootOf_eq_iff.1 hr
  have hno : ∀ a ∈ names, ¬ s.Covers r a := fun a ha hv =>
    hno a ha (hf.rootOf_eq_iff.2 ⟨hf.has_of_covers hhas hv, htop, hv⟩)
  have hagree := h.agree hhas htop hno
  have hhas' : g.Has r := by
    obtain ⟨n, hn⟩ := has_iff_node.1 hhas
    rw [← h.node_eq hf hhas htop hno (Layout.Covers.refl s r)] at hn
    exact .of_node hn
  constructor
  · intro x hx
    exact h.node_eq hf hhas htop hno (hf.rootOf_eq_iff.1 hx).2.2
  · intro x
    rw [h.realizes.rootOf_eq_iff, hf.rootOf_eq_iff, hagree.covers]
    constructor
    · rintro ⟨-, -, hv⟩
      exact ⟨hf.has_of_covers hhas hv, htop, hv⟩
    · rintro ⟨-, -, hv⟩
      exact ⟨h.realizes.has_of_covers hhas' (hagree.covers.2 hv), hagree.top', hv⟩

end Forest

/-! ## Commands and runs -/

theorem Command.run_keepsTree (hf : f.Reachable) (hr : f.rootOf r = .ok r) {command : Command}
    (hno : ∀ a ∈ command.targets, f.rootOf a ≠ .ok r) : f.KeepsTree (command.run.after f) r := by
  obtain ⟨s, h⟩ := hf.realizes
  have hstep : command.run.Leads f fun _ g => f.KeepsTree g r :=
    (command.run_leads h).mono fun _ g ⟨t, hg⟩ => hg.keepsTree h hr hno
  exact hstep.after (.refl f r)

/-- No command of the run names a node in the tree of `root`, as the forest is when the command comes. -/
def Command.Avoid (root : NodeId) : List Command → Forest → Prop
  | [], _ => True
  | command :: rest, f =>
    (∀ a ∈ command.targets, f.rootOf a ≠ .ok root) ∧ Avoid root rest (command.run.after f)

instance Command.decidableAvoid (root : NodeId) :
    (commands : List Command) → (f : Forest) → Decidable (Command.Avoid root commands f)
  | [], _ => isTrue trivial
  | command :: rest, f =>
    have := decidableAvoid root rest (command.run.after f)
    inferInstanceAs (Decidable (_ ∧ _))

theorem Command.runAll_keepsTree (hf : f.Reachable) (hr : f.rootOf r = .ok r) {commands : List Command}
    (h : Command.Avoid r commands f) : f.KeepsTree (Command.runAll commands f) r := by
  induction commands generalizing f with
  | nil => exact .refl f r
  | cons command rest ih =>
    obtain ⟨hno, hrest⟩ := h
    have hstep := Command.run_keepsTree hf hr hno
    exact hstep.trans (ih (.step command hf) ((hstep.rootOf r).2 hr) hrest)

/-! ## Copies and later nodes -/

theorem copyTree_keepsTree (hf : f.Reachable) (hr : f.rootOf r = .ok r) (root : NodeId) :
    f.KeepsTree ((Command.copyTree root).run.after f) r := by
  obtain ⟨s, h⟩ := hf.realizes
  -- the copied tree is named, and left alone all the same
  have hstep : (copyTree root).Leads f fun _ g => f.KeepsTree g r :=
    (copyTree_leads h root []).mono fun _ g ⟨t, hg⟩ => hg.keepsTree h hr nofun
  exact hstep.map.after (.refl f r)

/-- Commands that name only nodes which `f` does not have avoid each tree that is still as it is in `f`. -/
theorem Command.avoid_of_new (hg : g.Reachable) (hr : f.rootOf r = .ok r) (hfg : f.KeepsTree g r)
    {commands : List Command} (hnew : ∀ command ∈ commands, ∀ a ∈ command.targets, ¬ f.Has a) :
    Command.Avoid r commands g := by
  induction commands generalizing g with
  | nil => trivial
  | cons command rest ih =>
    have hno : ∀ a ∈ command.targets, g.rootOf a ≠ .ok r := by
      intro a ha hroot
      rw [hfg.rootOf] at hroot
      exact hnew command List.mem_cons_self a ha (Forest.has_of_rootOf hroot)
    have hstep := Command.run_keepsTree hg ((hfg.rootOf r).2 hr) hno
    exact ⟨hno, ih (.step command hg) (hfg.trans hstep) fun c hc => hnew c (List.mem_cons_of_mem _ hc)⟩

/-! ## Isolation -/

namespace Forest

/-- What commands leave alone. -/
structure Isolated (f : Forest) : Prop where
  /-- One command keeps the nodes that stand in the tree of no node it names. -/
  command : ∀ (command : Command) x, f.Has x →
    (∀ a ∈ command.targets, f.Has a → f.rootOf a ≠ f.rootOf x) →
    (command.run.after f).node x = f.node x ∧ (command.run.after f).rootOf x = f.rootOf x
  /-- A run keeps a tree that it never names a node of. -/
  run : ∀ commands root, f.rootOf root = .ok root → Command.Avoid root commands f →
    f.KeepsTree (Command.runAll commands f) root
  /-- After a tree is copied, commands on the copy and on later nodes keep all nodes from before. -/
  copy : ∀ original commands, (∀ command ∈ commands, ∀ a ∈ command.targets, ¬ f.Has a) → ∀ x, f.Has x →
    (Command.runAll (.copyTree original :: commands) f).node x = f.node x ∧
      (Command.runAll (.copyTree original :: commands) f).rootOf x = f.rootOf x

theorem KeepsTree.at_node (h : f.KeepsTree g r) (hx : f.rootOf x = .ok r) :
    g.node x = f.node x ∧ g.rootOf x = f.rootOf x :=
  ⟨h.node x hx, ((h.rootOf x).2 hx).trans hx.symm⟩

end Forest

/-- In a reachable forest, trees that are not named are left alone by commands, runs and edits of copies. -/
theorem reachable_isolated (hf : f.Reachable) : f.Isolated := by
  obtain ⟨s, h⟩ := hf.realizes
  constructor
  · intro command x hx hno
    obtain ⟨r, hroot, -⟩ := h.exists_top hx
    refine (Command.run_keepsTree hf (h.rootOf_root hroot) fun a ha hr => ?_).at_node hroot
    exact hno a ha (Forest.has_of_rootOf hr) (hr.trans hroot.symm)
  · intro commands root hr havoid
    exact Command.runAll_keepsTree hf hr havoid
  · intro original commands hnew x hx
    obtain ⟨r, hroot, -⟩ := h.exists_top hx
    have hr := h.rootOf_root hroot
    have hcopy := copyTree_keepsTree hf hr original
    have hg : ((Command.copyTree original).run.after f).Reachable := .step _ hf
    have hrest := Command.runAll_keepsTree hg ((hcopy.rootOf r).2 hr)
      (Command.avoid_of_new hg hr hcopy hnew)
    exact (hcopy.trans hrest).at_node hroot

-- the statements of the copied block are edited, and the script that it was copied from stays
theorem sampleForest_isolated :
    Command.Avoid ⟨5⟩ [.detach ⟨8⟩, .setText ⟨9⟩ "y", .appendChild ⟨6⟩ ⟨7⟩, .prependChild ⟨6⟩ ⟨8⟩]
        sampleForest ∧
      sampleForest.KeepsTree (Command.runAll
        [.detach ⟨8⟩, .setText ⟨9⟩ "y", .appendChild ⟨6⟩ ⟨7⟩, .prependChild ⟨6⟩ ⟨8⟩] sampleForest) ⟨5⟩ := by
  have h : Command.Avoid ⟨5⟩
      [.detach ⟨8⟩, .setText ⟨9⟩ "y", .appendChild ⟨6⟩ ⟨7⟩, .prependChild ⟨6⟩ ⟨8⟩] sampleForest := by
    decide +kernel
  exact ⟨h, (reachable_isolated reachable_sampleForest).run _ ⟨5⟩ (by decide +kernel) h⟩

end SyntaxForest
