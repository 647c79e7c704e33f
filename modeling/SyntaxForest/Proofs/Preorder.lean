import Mathlib.Data.List.Pairwise
import SyntaxForest.Forest.Unfolding
import SyntaxForest.Proofs.Detaching
/-!
# Trees under nodes, and their pre-order

Under every node of a forest with a layout stands a finite tree. Its nodes are those that the node covers,
each once. The pre-order that steps along links from node to node, and climbs up where a node has no
children, lists the tree as recursion on it does, and never runs out of steps.
-/

namespace SyntaxForest

variable {s : Layout} {f g : Forest} {p a b c x id root : NodeId} {ts : List Tree} {t : Tree}

/-! ## Nodes above a common node -/

namespace Layout

/-- Of two nodes above a third one, one is above the other. -/
theorem covers_total (ha : s.Covers a x) (hb : s.Covers b x) : s.Covers a b ∨ s.Covers b a := by
  induction ha with
  | refl => exact .inr hb
  | @tail y x hay hx ih =>
    rcases covers_iff.1 hb with rfl | hb
    · exact .inl (.tail hay hx)
    · obtain ⟨q, hq, hbq⟩ := above_iff.1 hb
      rw [hx] at hq
      cases hq
      exact ih hbq

theorem not_above_self (s : Layout) (a : NodeId) : ¬ s.Above a a := s.acyclic a

/-- The trees under two children of a node have no node in common. -/
theorem eq_of_covers_of_siblings (ha : s.parent a = some p) (hb : s.parent b = some p)
    (hax : s.Covers a x) (hbx : s.Covers b x) : a = b := by
  have lower : ∀ {a b : NodeId}, s.parent a = some p → s.parent b = some p → s.Covers a b → a = b := by
    intro a b ha hb hab
    rcases covers_iff.1 hab with rfl | hab
    · rfl
    · obtain ⟨q, hq, haq⟩ := above_iff.1 hab
      rw [hb] at hq
      cases hq
      exact absurd haq (not_covers_parent ha)
  rcases covers_total hax hbx with hab | hba
  · exact lower ha hb hab
  · exact (lower hb ha hba).symm

/-- Below a node are the trees under its children. -/
theorem covers_iff_child : s.Covers a x ↔ x = a ∨ ∃ c ∈ s.children a, s.Covers c x := by
  unfold Covers
  rw [Relation.ReflTransGen.cases_head_iff]
  simp only [s.mem_children, eq_comm]

end Layout

/-! ## How far up a node is -/

namespace Forest

open Classical in
/-- The number of nodes below a node grows on the way up, and is less than the number of all nodes. -/
theorem Realizes.exists_rank (h : f.Realizes s) : ∃ rank : NodeId → Nat,
    (∀ id, f.Has id → rank id < f.size) ∧ ∀ {p c}, s.parent c = some p → rank c < rank p := by
  refine ⟨fun id => (f.ids.filter fun x => decide (s.Above id x)).length, fun id hid => ?_, fun {p c} hp => ?_⟩
  · have hall : f.ids.length = f.size := by simp [ids]
    rw [← hall, List.length_filter_lt_length_iff_exists]
    exact ⟨id, mem_ids.2 hid, by simpa using s.not_above_self id⟩
  · -- what is below the child is below the parent, and so is the child itself
    have hbelow : ∀ x, s.Above c x → s.Above p x := fun x hx => Relation.TransGen.head hp hx
    have hsub : (f.ids.filter fun x => decide (s.Above c x)) =
        (f.ids.filter fun x => decide (s.Above p x)).filter fun x => decide (s.Above c x) := by
      rw [List.filter_filter]
      refine List.filter_congr fun x _ => ?_
      by_cases hx : s.Above c x <;> simp [hx, hbelow x]
    have hmem : c ∈ f.ids.filter fun x => decide (s.Above p x) := by
      rw [List.mem_filter, decide_eq_true_iff]
      exact ⟨mem_ids.2 (h.has hp).2, .single hp⟩
    show List.length _ < List.length _
    rw [hsub, List.length_filter_lt_length_iff_exists]
    exact ⟨c, hmem, by simpa using s.not_above_self c⟩

/-- What holds of a node whenever it holds of its children holds of every node of the forest. -/
theorem Realizes.induct_children (h : f.Realizes s) {P : NodeId → Prop}
    (step : ∀ id, f.Has id → (∀ c ∈ s.children id, P c) → P id) (hid : f.Has id) : P id := by
  obtain ⟨rank, -, hup⟩ := h.exists_rank
  induction hr : rank id using Nat.strongRecOn generalizing id with
  | _ n ih =>
    refine step id hid fun c hc => ih (rank c) ?_ (h.has_child hc) rfl
    rw [← hr]
    exact hup (s.mem_children.1 hc)

/-! ## The tree under a node -/

theorem has_of_in (ht : t.In f) : f.Has t.root := by
  cases t with
  | node id ts =>
    have hchildren := (Tree.in_node.1 ht).1
    by_contra hid
    rw [Tree.root_node] at hid
    rw [children_of_not_has hid] at hchildren
    cases hchildren

theorem Realizes.in_node_iff (h : f.Realizes s) :
    (Tree.node id ts).In f ↔ f.Has id ∧ s.children id = Tree.roots ts ∧ ∀ t ∈ ts, t.In f := by
  rw [Tree.in_node]
  by_cases hid : f.Has id
  · rw [h.children_eq hid, Except.ok.injEq]
    simp [hid]
  · rw [children_of_not_has hid]
    simp [hid]

theorem exists_trees {cs : List NodeId} (h : ∀ c ∈ cs, ∃ t : Tree, t.root = c ∧ t.In f) :
    ∃ ts, Tree.roots ts = cs ∧ ∀ t ∈ ts, t.In f := by
  induction cs with
  | nil => exact ⟨[], rfl, nofun⟩
  | cons c cs ih =>
    obtain ⟨t, rfl, ht⟩ := h c List.mem_cons_self
    obtain ⟨ts, rfl, hts⟩ := ih fun c hc => h c (List.mem_cons_of_mem _ hc)
    exact ⟨t :: ts, rfl, List.forall_mem_cons.2 ⟨ht, hts⟩⟩

theorem Realizes.exists_tree (h : f.Realizes s) (hid : f.Has id) : ∃ t : Tree, t.root = id ∧ t.In f := by
  refine h.induct_children (P := fun id => ∃ t : Tree, t.root = id ∧ t.In f) (fun id hid ih => ?_) hid
  obtain ⟨ts, hroots, hts⟩ := exists_trees ih
  exact ⟨.node id ts, rfl, h.in_node_iff.2 ⟨hid, hroots.symm, hts⟩⟩

end Forest

/-- What holds of a tree whenever it holds of the trees below its root holds of every tree. -/
theorem Tree.induct {P : Tree → Prop} (step : ∀ id ts, (∀ t ∈ ts, P t) → P (.node id ts)) (t : Tree) :
    P t := by
  refine @Tree.rec P (fun ts => ∀ t ∈ ts, P t) step ?_ ?_ t
  · intro t ht
    cases ht
  · intro t ts ht hts u hu
    rcases List.mem_cons.1 hu with rfl | hu
    · exact ht
    · exact hts u hu

/-- A tree stays in a forest in which its nodes keep their lists of children. -/
theorem Tree.In.congr (ht : t.In f) (h : ∀ x ∈ t.preorder, g.children x = f.children x) : t.In g := by
  induction t using Tree.induct with
  | step id ts ih =>
    obtain ⟨hchildren, hts⟩ := in_node.1 ht
    refine in_node.2 ⟨?_, fun t htm => ih t htm (hts t htm) fun x hx => h x (mem_preorder_of_mem htm hx)⟩
    rw [h id (root_mem_preorder (node id ts)), hchildren]

namespace Forest.Realizes

theorem mem_preorder_iff (h : f.Realizes s) (ht : t.In f) : x ∈ t.preorder ↔ s.Covers t.root x := by
  induction t using Tree.induct with
  | step id ts ih =>
    obtain ⟨-, hroots, hts⟩ := h.in_node_iff.1 ht
    have hbelow : x ∈ Tree.preorderAll ts ↔ ∃ c ∈ s.children id, s.Covers c x := by
      rw [Tree.preorderAll_eq_flatMap, List.mem_flatMap, hroots]
      constructor
      · rintro ⟨t, ht, hx⟩
        exact ⟨t.root, List.mem_map_of_mem ht, (ih t ht (hts t ht)).1 hx⟩
      · rintro ⟨c, hc, hx⟩
        obtain ⟨t, ht, rfl⟩ := List.mem_map.1 hc
        exact ⟨t, ht, (ih t ht (hts t ht)).2 hx⟩
    rw [Tree.preorder, List.mem_cons, hbelow, Tree.root_node, Layout.covers_iff_child]

theorem has_of_mem_preorder (h : f.Realizes s) (ht : t.In f) (hx : x ∈ t.preorder) : f.Has x :=
  h.has_of_covers (has_of_in ht) ((h.mem_preorder_iff ht).1 hx)

theorem nodup_preorder (h : f.Realizes s) (ht : t.In f) : t.preorder.Nodup := by
  induction t using Tree.induct with
  | step id ts ih =>
    obtain ⟨-, hroots, hts⟩ := h.in_node_iff.1 ht
    have hparent : ∀ t ∈ ts, s.parent t.root = some id := fun t ht => by
      rw [← s.mem_children, hroots]
      exact List.mem_map_of_mem ht
    have hne : ts.Pairwise fun t u => t.root ≠ u.root := by
      have hn := s.nodup id
      rwa [hroots, List.Nodup, Tree.roots, List.pairwise_map] at hn
    rw [Tree.preorder, Tree.preorderAll_eq_flatMap, List.nodup_cons, List.nodup_flatMap]
    refine ⟨fun hm => ?_, fun t ht => ih t ht (hts t ht), ?_⟩
    · obtain ⟨t, ht, hx⟩ := List.mem_flatMap.1 hm
      exact Layout.not_covers_parent (hparent t ht) ((h.mem_preorder_iff (hts t ht)).1 hx)
    · refine hne.imp_of_mem fun {t u} ht hu hne x hxt hxu => hne ?_
      exact Layout.eq_of_covers_of_siblings (hparent t ht) (hparent u hu)
        ((h.mem_preorder_iff (hts t ht)).1 hxt) ((h.mem_preorder_iff (hts u hu)).1 hxu)

theorem size_le (h : f.Realizes s) (ht : t.In f) (hroot : f.Has t.root) : t.size ≤ f.size := by
  rw [← Tree.length_preorder]
  exact length_le_size (h.nodup_preorder ht) fun x hx =>
    h.has_of_covers hroot ((h.mem_preorder_iff ht).1 hx)

end Forest.Realizes

/-! ## Climbing -/

namespace Forest

/-- Listing from the top of a tree lists the tree, and goes on where the climb from its top leads. -/
def ListsTree (f : Forest) (root : NodeId) (t : Tree) : Prop :=
  ∀ o, f.climb root f.size t.root = .ok o → ∀ steps met,
    f.preorderFrom root (steps + t.size) (some t.root) met =
      f.preorderFrom root steps o (t.preorder.reverse ++ met)

theorem climb_mono {steps more : Nat} {o : Option NodeId} (hs : steps ≤ more)
    (h : f.climb root steps id = .ok o) : f.climb root more id = .ok o := by
  induction steps generalizing id more with
  | zero => cases h
  | succ steps ih =>
    obtain ⟨more, rfl⟩ : ∃ k, more = k + 1 := ⟨more - 1, by omega⟩
    rw [climb] at h ⊢
    split
    · rename_i he
      rwa [if_pos he] at h
    · rename_i hne
      rw [if_neg hne] at h
      cases hn : f.node id with
      | error e =>
        rw [hn] at h
        cases h
      | ok n =>
        simp only [hn, bind, Except.bind] at h ⊢
        -- only the step up depends on the steps that are left
        split at h
        · exact h
        · exact ih (by omega) h
        · exact h

namespace Realizes

/-- One step of a climb. -/
theorem climb_succ (h : f.Realizes s) (hid : f.Has id) (hne : id ≠ root) (steps : Nat) :
    f.climb root (steps + 1) id =
      match s.next id, s.parent id with
      | some sibling, _ => .ok (some sibling)
      | none, some parent => f.climb root steps parent
      | none, none => .ok none := by
  obtain ⟨n, hn⟩ := has_iff_node.1 hid
  rw [climb, if_neg hne]
  simp only [hn, bind, Except.bind, (h.links hn).nextSibling, (h.links hn).parent]
  rfl

/-- The nodes below a node grow in number on the way up, so a climb ends within as many steps as there
are nodes. -/
theorem climb_ends (h : f.Realizes s) (root : NodeId) (hid : f.Has id) :
    ∃ o, f.climb root f.size id = .ok o := by
  obtain ⟨rank, hlt, hup⟩ := h.exists_rank
  suffices ∀ steps id, f.Has id → f.size ≤ steps + rank id → ∃ o, f.climb root steps id = .ok o from
    this f.size id hid (Nat.le_add_right _ _)
  intro steps
  induction steps with
  | zero =>
    intro id hid hs
    have := hlt id hid
    omega
  | succ steps ih =>
    intro id hid hs
    by_cases hroot : id = root
    · exact ⟨none, by rw [climb, if_pos hroot]; rfl⟩
    · rw [h.climb_succ hid hroot]
      cases s.next id with
      | some sibling => exact ⟨_, rfl⟩
      | none =>
        cases hp : s.parent id with
        | none => exact ⟨_, rfl⟩
        | some p =>
          have := hup hp
          exact ih p (h.has hp).1 (by omega)

theorem climb_root (hroot : f.Has root) : f.climb root f.size root = .ok none := by
  have hpos : root.index < f.size := hroot
  obtain ⟨k, hk⟩ : ∃ k, f.size = k + 1 := ⟨f.size - 1, by omega⟩
  rw [hk, climb, if_pos rfl]
  rfl

/-- From a child the climb goes to the next child, or where it goes from the parent. -/
theorem climb_child (h : f.Realizes s) {before rest : List NodeId} {o : Option NodeId}
    (hp : s.children p = before ++ c :: rest) (hroot : s.Covers root p)
    (ho : f.climb root f.size p = .ok o) : f.climb root f.size c = .ok (rest.head?.or o) := by
  have hc := Layout.parent_of_middle hp
  have hne : c ≠ root := fun e => Layout.not_covers_parent hc (e ▸ hroot)
  have hhas : f.Has c := (h.has hc).2
  have hpos : c.index < f.size := hhas
  obtain ⟨k, hk⟩ : ∃ k, f.size = k + 1 := ⟨f.size - 1, by omega⟩
  have hstep := h.climb_succ hhas hne k
  rw [← hk, Layout.next_of_middle hp, hc] at hstep
  cases rest with
  | cons d rest => exact hstep
  | nil =>
    -- one step fewer is left for the parent, and that is enough
    obtain ⟨o', ho'⟩ := h.climb_ends root hhas
    have hless : f.climb root k p = .ok o' := by rw [← ho', hstep]; rfl
    have hmore := climb_mono (Nat.le_succ k) hless
    rw [Nat.succ_eq_add_one, ← hk, ho] at hmore
    rw [ho', ← hmore]
    rfl

/-! ## The pre-order -/

theorem successor_eq (h : f.Realizes s) {o : Option NodeId} (hid : f.Has id)
    (ho : f.climb root f.size id = .ok o) :
    f.successor root id = .ok ((s.children id).head?.or o) := by
  simp only [successor, h.firstChild_eq hid, bind, Except.bind]
  cases s.children id with
  | nil => exact ho
  | cons c rest => rfl

/-- The trees under the children that are left are listed one after the other. -/
theorem preorderFrom_trees (h : f.Realizes s) {before : List NodeId} {o : Option NodeId}
    (hts : ∀ t ∈ ts, f.ListsTree root t) (hp : s.children p = before ++ Tree.roots ts)
    (hroot : s.Covers root p) (ho : f.climb root f.size p = .ok o) (steps : Nat) (met : List NodeId) :
    f.preorderFrom root (steps + Tree.sizeAll ts) ((Tree.roots ts).head?.or o) met =
      f.preorderFrom root steps o ((Tree.preorderAll ts).reverse ++ met) := by
  induction ts generalizing before met with
  | nil => rfl
  | cons t ts ih =>
    have hnext : f.climb root f.size t.root = .ok ((Tree.roots ts).head?.or o) :=
      h.climb_child hp hroot ho
    have hp' : s.children p = (before ++ [t.root]) ++ Tree.roots ts := by simpa using hp
    have hsteps : steps + Tree.sizeAll (t :: ts) = steps + Tree.sizeAll ts + t.size := by
      rw [Tree.sizeAll]
      omega
    rw [hsteps, Tree.roots_cons, List.head?_cons, Option.some_or, hts t List.mem_cons_self _ hnext,
      ih (fun u hu => hts u (List.mem_cons_of_mem _ hu)) hp', Tree.preorderAll]
    simp

theorem listsTree (h : f.Realizes s) (ht : t.In f) (hroot : s.Covers root t.root) :
    f.ListsTree root t := by
  induction t using Tree.induct with
  | step id ts ih =>
    intro o ho steps met
    obtain ⟨hid, hroots, hts⟩ := h.in_node_iff.1 ht
    rw [Tree.root_node] at hroot ho
    have hbelow : ∀ t ∈ ts, f.ListsTree root t := by
      intro t htm
      have hparent : s.parent t.root = some id := by
        rw [← s.mem_children, hroots]
        exact List.mem_map_of_mem htm
      exact ih t htm (hts t htm) (.tail hroot hparent)
    have hplace : s.children id = [] ++ Tree.roots ts := hroots
    have hnext : f.successor root id = .ok ((Tree.roots ts).head?.or o) := hroots ▸ h.successor_eq hid ho
    have hsteps : steps + (Tree.node id ts).size = steps + Tree.sizeAll ts + 1 := by
      rw [Tree.size]
      omega
    rw [hsteps, Tree.root_node, preorderFrom, hnext]
    simp only [bind, Except.bind]
    rw [h.preorderFrom_trees hbelow hplace hroot ho, Tree.preorder]
    simp

/-- The pre-order along links is the pre-order of the tree under the root. -/
theorem preorder_eq (h : f.Realizes s) (ht : t.In f) (hroot : f.Has t.root) :
    f.preorder t.root = .ok t.preorder := by
  have hsize := h.size_le ht hroot
  have hsteps : f.size + 1 = f.size + 1 - t.size + t.size := by omega
  rw [preorder, hsteps, h.listsTree ht (Layout.Covers.refl s _) _ (climb_root hroot), preorderFrom]
  simp

/-- The pre-order lists the nodes below the root, each once. -/
theorem exists_preorder (h : f.Realizes s) (hroot : f.Has root) :
    ∃ nodes, f.preorder root = .ok nodes ∧ nodes.Nodup ∧ ∀ x, x ∈ nodes ↔ s.Covers root x := by
  obtain ⟨t, rfl, ht⟩ := h.exists_tree hroot
  exact ⟨t.preorder, h.preorder_eq ht hroot, h.nodup_preorder ht, fun x => h.mem_preorder_iff ht⟩

end Realizes

end Forest

end SyntaxForest
