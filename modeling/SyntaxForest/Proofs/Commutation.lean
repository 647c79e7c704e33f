import SyntaxForest.Proofs.Locality
import SyntaxForest.Proofs.Roots
import SyntaxForest.Proofs.Runs
/-!
# Commands on different trees commute

Links lead from a node to nodes of the same tree, so the trees of the nodes that a command names are a region
that the command stays inside. Two commands that name nodes of different trees stay inside regions without a
common node. Neither sees what the other has done, and so their order does not matter.
-/

namespace SyntaxForest

open Edit

variable {α β : Type} {s : Layout} {f g : Forest} {here there : Set NodeId} {p c : NodeId}
  {names : List NodeId}

/-! ## Edits inside different regions -/

namespace Edit

/-- The order of the two edits does not matter: each answers the same with the other before it, and they
leave the same forest behind. -/
structure Commute (first : Edit α) (second : Edit β) (f : Forest) : Prop where
  first_answer : first.answer (second.after f) = first.answer f
  second_answer : second.answer (first.after f) = second.answer f
  after : second.after (first.after f) = first.after (second.after f)

/-- An edit leaves a region as it is when it stays inside another. -/
theorem Local.agreeOn {edit : Edit α} (h : edit.Local there) (ht : f.Closed there)
    (hd : ∀ x ∈ here, x ∉ there) : f.AgreeOn (edit.after f) here where
  size := (h.outside ht).size
  node x hx := (h.outside ht).node x (hd x hx)

theorem Local.commute {first : Edit α} {second : Edit β} (h₁ : first.Local here) (h₂ : second.Local there)
    (hh : f.Closed here) (ht : f.Closed there) (hd : ∀ x ∈ here, x ∉ there) : first.Commute second f := by
  have hd' : ∀ x ∈ there, x ∉ here := fun x hx hx' => hd x hx' hx
  have hthere : f.AgreeOn (first.after f) there := h₁.agreeOn hh hd'
  have hhere : f.AgreeOn (second.after f) here := h₂.agreeOn ht hd
  refine ⟨h₁.answer hh hhere, h₂.answer ht hthere, ?_⟩
  have hin₁ := h₁.inside hh hhere
  have hin₂ := h₂.inside ht hthere
  have hout₁ := h₁.outside (hh.congr hhere)
  have hout₂ := h₂.outside (ht.congr hthere)
  refine Forest.eq_of_nodes ?_ fun x => ?_
  · rw [hin₂.size, hin₁.size, (h₂.outside ht).size, (h₁.outside hh).size]
  · by_cases hx : x ∈ there
    · -- the first edit does not reach this node, and the second does the same on it as alone
      rw [hin₂.node x hx, hout₁.node x (hd' x hx)]
    · rw [hout₂.node x hx]
      by_cases hx' : x ∈ here
      · rw [hin₁.node x hx']
      · rw [hout₁.node x hx', (h₁.outside hh).node x hx', (h₂.outside ht).node x hx]

end Edit

/-! ## Trees as regions -/

namespace Forest

/-- The nodes of the trees of `names`. -/
def treesOf (f : Forest) (names : List NodeId) : Set NodeId := {x | ∃ a ∈ names, f.rootOf x = f.rootOf a}

theorem Realizes.rootOf_child (h : f.Realizes s) (hp : s.parent c = some p) : f.rootOf c = f.rootOf p := by
  obtain ⟨hhas, hhas'⟩ := h.has hp
  obtain ⟨r, hroot, htop, hcov⟩ := h.exists_top hhas
  rw [hroot, h.rootOf_eq_iff]
  exact ⟨hhas', htop, .tail hcov hp⟩

/-- Links stay within a tree. -/
theorem Realizes.closed_treesOf (h : f.Realizes s) (names : List NodeId) : f.Closed (f.treesOf names) := by
  rintro x n ⟨a, ha, hroot⟩ hn
  have hd := h.links hn
  have same : ∀ {y}, f.rootOf y = f.rootOf x → y ∈ f.treesOf names := fun hy => ⟨a, ha, hy.trans hroot⟩
  constructor
  · intro y hy
    rw [hd.parent] at hy
    exact same (h.rootOf_child hy).symm
  · intro y hy
    rw [hd.firstChild] at hy
    exact same (h.rootOf_child (s.mem_children.1 (List.mem_of_head? hy)))
  · intro y hy
    rw [hd.lastChild] at hy
    exact same (h.rootOf_child (s.mem_children.1 (List.mem_of_getLast? hy)))
  · intro y hy
    rw [hd.nextSibling] at hy
    obtain ⟨p, hx, hy⟩ := Layout.parent_of_next hy
    exact same ((h.rootOf_child hy).trans (h.rootOf_child hx).symm)

theorem disjoint_treesOf {more : List NodeId} (h : ∀ a ∈ names, ∀ b ∈ more, f.rootOf a ≠ f.rootOf b) :
    ∀ x ∈ f.treesOf names, x ∉ f.treesOf more := by
  rintro x ⟨a, ha, hxa⟩ ⟨b, hb, hxb⟩
  exact h a ha b hb (hxa.symm.trans hxb)

end Forest

/-- In a reachable forest two commands that allocate nothing commute when no node that the one names is in
the tree of a node that the other names. -/
theorem reachable_commute (hf : f.Reachable) {first second : Command} (h₁ : first.allocates = false)
    (h₂ : second.allocates = false)
    (hdiffer : ∀ a ∈ first.targets, ∀ b ∈ second.targets, f.rootOf a ≠ f.rootOf b) :
    first.run.Commute second.run f := by
  obtain ⟨s, h⟩ := hf.realizes
  have hfirst := Command.run_local h₁ fun a ha => (⟨a, ha, rfl⟩ : a ∈ f.treesOf first.targets)
  have hsecond := Command.run_local h₂ fun a ha => (⟨a, ha, rfl⟩ : a ∈ f.treesOf second.targets)
  exact hfirst.commute hsecond (h.closed_treesOf _) (h.closed_treesOf _) (Forest.disjoint_treesOf hdiffer)

-- one command takes the block out of the script, the other makes the copied block lose its statements
theorem sampleForest_commute :
    (Command.detach ⟨4⟩).run.answer sampleForest = .ok .done ∧
      (Command.detachChildren ⟨6⟩).run.answer sampleForest = .ok (.nodes [⟨7⟩, ⟨8⟩]) ∧
      (Command.detach ⟨4⟩).run.Commute (Command.detachChildren ⟨6⟩).run sampleForest := by
  refine ⟨by decide +kernel, by decide +kernel, reachable_commute reachable_sampleForest rfl rfl ?_⟩
  decide +kernel

end SyntaxForest
