import Mathlib.Algebra.Ring.Nat
import SyntaxForest.Proofs.Preorder
/-!
# Lists of pending work

Visiting and rendering keep a list of what is still to be done. With enough steps, working off such a list
comes to the same as taking its trees one after the other by recursion, and the steps it needs are counted
by nodes. So neither runs out of steps. A walk stops with a fault only when its visitor does.
-/

namespace SyntaxForest

variable {σ : Type} {s : Layout} {f : Forest} {visitor : Visitor σ} {options : RenderOptions} {id : NodeId}
  {t : Tree} {ts : List Tree} {steps : Nat} {e : Fault}

/-! ## Visiting -/

/-- A tree that is still to be visited, or a node that is still to be left. -/
inductive Pending
  | visit (t : Tree)
  | leave (id : NodeId)

namespace Pending

/-- The call that stands for it in the list. -/
def call : Pending → Visit
  | .visit t => .enter t.root
  | .leave id => .leave id

/-- How many calls it takes from the list, at most. -/
def cost : Pending → Nat
  | .visit t => 2 * t.size
  | .leave _ => 1

/-- Whether the forest has the tree. -/
def In (f : Forest) : Pending → Prop
  | .visit t => t.In f
  | .leave _ => True

/-- What it does to the state of the visitor. -/
def run (f : Forest) (visitor : Visitor σ) (state : σ) : Pending → Except Fault σ
  | .visit t => t.visit f visitor state
  | .leave id => visitor.leave f id state

theorem cost_pos (work : Pending) : 0 < work.cost := by
  cases work with
  | visit t => simp [cost, t.size_pos]
  | leave id => simp [cost]

/-- What waits once a node was entered: the visits of the trees below it, and then its leaving. -/
def below (id : NodeId) (ts : List Tree) : List Pending := ts.map .visit ++ [.leave id]

theorem calls_below (id : NodeId) (ts : List Tree) :
    (below id ts).map call = (Tree.roots ts).map .enter ++ [.leave id] := by
  simp [below, call, Tree.roots]

theorem in_below (hts : ∀ t ∈ ts, t.In f) : ∀ w ∈ below id ts, w.In f := by
  intro w hw
  simp only [below, List.mem_append, List.mem_map, List.mem_singleton] at hw
  rcases hw with ⟨t, ht, rfl⟩ | rfl
  · exact hts t ht
  · trivial

theorem cost_below (id : NodeId) (ts : List Tree) :
    ((below id ts).map cost).sum = 2 * Tree.sizeAll ts + 1 := by
  induction ts with
  | nil => rfl
  | cons t ts ih =>
    simp only [below, List.map_append, List.map_cons, List.cons_append, List.sum_cons, cost,
      Tree.sizeAll] at ih ⊢
    omega

theorem run_below (id : NodeId) (ts : List Tree) (state : σ) :
    (below id ts).foldlM (run f visitor) state =
      Tree.visitAll f visitor ts state >>= visitor.leave f id := by
  induction ts generalizing state with
  | nil =>
    simp only [below, List.map_nil, List.nil_append, List.foldlM_cons, List.foldlM_nil, bind_pure, run]
    rfl
  | cons t ts ih =>
    simp only [below, List.map_cons, List.cons_append, List.foldlM_cons, Tree.visitAll, bind_assoc] at ih ⊢
    exact bind_congr fun state => ih state

end Pending

namespace Forest

/-- With enough steps the list is worked off from front to back. -/
theorem walkPending_eq {work : List Pending} (hin : ∀ w ∈ work, w.In f)
    (hs : (work.map Pending.cost).sum ≤ steps) (state : σ) :
    f.walkPending visitor steps (work.map Pending.call) state =
      work.foldlM (Pending.run f visitor) state := by
  induction steps generalizing work state with
  | zero =>
    cases work with
    | nil => rfl
    | cons w work =>
      have := w.cost_pos
      simp at hs
      omega
  | succ steps ih =>
    cases work with
    | nil => rfl
    | cons w work =>
      rw [List.forall_mem_cons] at hin
      rw [List.map_cons, List.sum_cons] at hs
      cases w with
      | leave id =>
        simp only [Pending.cost] at hs
        simp only [List.map_cons, Pending.call, walkPending, List.foldlM_cons, Pending.run]
        exact bind_congr fun state => ih hin.2 (by omega) state
      | visit t =>
        obtain ⟨id, ts⟩ := t
        obtain ⟨hchildren, hts⟩ := Tree.in_node.1 hin.1
        simp only [Pending.cost, Tree.size] at hs
        simp only [List.map_cons, Pending.call, Tree.root_node, walkPending, List.foldlM_cons,
          Pending.run, Tree.visit, bind_assoc]
        refine bind_congr fun answer => ?_
        obtain ⟨descent, state⟩ := answer
        cases descent with
        | skip => exact bind_congr fun state => ih hin.2 (by omega) state
        | descend =>
          -- the children wait in front of the leaving of their parent
          have hnext : f.walkPending visitor steps ((Pending.below id ts ++ work).map Pending.call) state =
              (Pending.below id ts ++ work).foldlM (Pending.run f visitor) state := by
            refine ih (List.forall_mem_append.2 ⟨Pending.in_below hts, hin.2⟩) ?_ state
            rw [List.map_append, List.sum_append, Pending.cost_below]
            omega
          rw [List.map_append, Pending.calls_below, List.foldlM_append, Pending.run_below] at hnext
          simpa [hchildren, bind, Except.bind] using hnext

theorem walkPending_tree (ht : t.In f) (hs : 2 * t.size ≤ steps) (state : σ) :
    f.walkPending visitor steps [.enter t.root] state = t.visit f visitor state := by
  have hwork : ∀ w ∈ [Pending.visit t], w.In f := by simpa [Pending.In] using ht
  have hwalk : f.walkPending visitor steps ([Pending.visit t].map Pending.call) state = _ :=
    walkPending_eq hwork (by simpa [Pending.cost] using hs) state
  simpa [Pending.call, Pending.run] using hwalk

/-- A walk visits the tree under its root as recursion does. -/
theorem Realizes.walk_eq (h : f.Realizes s) (ht : t.In f) (state : σ) :
    f.walk t.root visitor state = t.visit f visitor state := by
  have hsize := h.size_le ht (has_of_in ht)
  exact walkPending_tree ht (by omega) state

end Forest

namespace Tree

theorem visitAll_error
    (ih : ∀ t ∈ ts, ∀ state, t.visit f visitor state = .error e →
      ∃ id ∈ t.preorder, ∃ state, visitor.enter f id state = .error e ∨ visitor.leave f id state = .error e)
    {state : σ} (he : visitAll f visitor ts state = .error e) :
    ∃ id ∈ preorderAll ts, ∃ state,
      visitor.enter f id state = .error e ∨ visitor.leave f id state = .error e := by
  induction ts generalizing state with
  | nil => cases he
  | cons t ts ihs =>
    rw [List.forall_mem_cons] at ih
    rw [visitAll] at he
    cases ht : t.visit f visitor state with
    | error e' =>
      rw [ht] at he
      cases he
      obtain ⟨id, hid, hfault⟩ := ih.1 state ht
      exact ⟨id, List.mem_append_left _ hid, hfault⟩
    | ok state' =>
      rw [ht] at he
      obtain ⟨id, hid, hfault⟩ := ihs ih.2 he
      exact ⟨id, List.mem_append_right _ hid, hfault⟩

/-- A visit stops with a fault only when the visitor does, at a node of the tree. -/
theorem visit_error {state : σ} (he : t.visit f visitor state = .error e) :
    ∃ id ∈ t.preorder, ∃ state,
      visitor.enter f id state = .error e ∨ visitor.leave f id state = .error e := by
  induction t using Tree.induct generalizing state with
  | step id ts ih =>
    have hroot : id ∈ (node id ts).preorder := root_mem_preorder _
    rw [visit] at he
    cases henter : visitor.enter f id state with
    | error e' =>
      rw [henter] at he
      cases he
      exact ⟨id, hroot, state, .inl henter⟩
    | ok answer =>
      obtain ⟨descent, state⟩ := answer
      rw [henter] at he
      cases descent with
      | skip => exact ⟨id, hroot, state, .inr he⟩
      | descend =>
        simp only [bind, Except.bind] at he
        cases hts : visitAll f visitor ts state with
        | error e' =>
          rw [hts] at he
          cases he
          obtain ⟨x, hx, hfault⟩ := visitAll_error (fun t ht _ => ih t ht) hts
          exact ⟨x, List.mem_cons_of_mem _ hx, hfault⟩
        | ok state' =>
          rw [hts] at he
          exact ⟨id, hroot, state', .inr he⟩

end Tree

/-! ## Rendering -/

namespace Tree

/-- The lines of a tree, behind a text. -/
def renderBehind (f : Forest) (options : RenderOptions) (text : String) (p : Tree × Nat) :
    Except Fault String := return text ++ (← p.1.render f options p.2)

theorem sum_sizes (ts : List Tree) (depth : Nat) :
    ((ts.map (·, depth)).map fun p => p.1.size).sum = sizeAll ts := by
  induction ts with
  | nil => rfl
  | cons t ts ih => simp_all [sizeAll]

theorem renderAll_behind (ts : List Tree) (depth : Nat) (text : String) :
    (ts.map (·, depth)).foldlM (renderBehind f options) text =
      return text ++ (← renderAll f options ts depth) := by
  induction ts generalizing text with
  | nil => simp [renderAll, pure, Except.pure, bind, Except.bind]
  | cons t ts ih =>
    simp only [List.map_cons, List.foldlM_cons, renderBehind, renderAll, ih]
    cases t.render f options depth <;> cases renderAll f options ts depth <;>
      simp [bind, Except.bind, pure, Except.pure, String.append_assoc]

theorem renderAll_ok {depth : Nat} (h : ∀ t ∈ ts, ∃ text, t.render f options depth = .ok text) :
    ∃ text, renderAll f options ts depth = .ok text := by
  induction ts with
  | nil => exact ⟨_, rfl⟩
  | cons t ts ih =>
    rw [List.forall_mem_cons] at h
    obtain ⟨first, hfirst⟩ := h.1
    obtain ⟨rest, hrest⟩ := ih h.2
    simp [renderAll, hfirst, hrest, bind, Except.bind, pure, Except.pure]

end Tree

namespace Forest

/-- With enough steps the lines of each tree in the list come behind those of the trees before it. -/
theorem renderPending_eq (options : RenderOptions) {trees : List (Tree × Nat)} (hin : ∀ p ∈ trees, p.1.In f)
    (hs : (trees.map (·.1.size)).sum ≤ steps) (text : String) :
    f.renderPending options steps (trees.map fun p => (p.1.root, p.2)) text =
      trees.foldlM (Tree.renderBehind f options) text := by
  induction steps generalizing trees text with
  | zero =>
    cases trees with
    | nil => rfl
    | cons p trees =>
      have := p.1.size_pos
      simp at hs
      omega
  | succ steps ih =>
    cases trees with
    | nil => rfl
    | cons p trees =>
      obtain ⟨⟨id, ts⟩, depth⟩ := p
      rw [List.forall_mem_cons] at hin
      obtain ⟨hchildren, hts⟩ := Tree.in_node.1 hin.1
      rw [List.map_cons, List.sum_cons, Tree.size] at hs
      have hnext : ∀ text, f.renderPending options steps
          ((ts.map (·, depth + 1) ++ trees).map fun p => (p.1.root, p.2)) text =
            (ts.map (·, depth + 1) ++ trees).foldlM (Tree.renderBehind f options) text := by
        intro text
        refine ih (List.forall_mem_append.2 ⟨?_, hin.2⟩) ?_ text
        · simpa using hts
        · rw [List.map_append, List.sum_append, Tree.sum_sizes]
          omega
      simp only [List.map_cons, Tree.root_node, renderPending, List.foldlM_cons, Tree.renderBehind, Tree.render,
        hchildren]
      cases f.renderListed options id depth with
      | error e => rfl
      | ok line =>
        have hrest := hnext (text ++ line)
        rw [List.map_append, List.foldlM_append, Tree.renderAll_behind] at hrest
        simp only [List.map_map, Function.comp_def] at hrest
        simp only [bind, Except.bind, Tree.roots, List.map_map, Function.comp_def] at hrest ⊢
        rw [hrest]
        cases Tree.renderAll f options ts (depth + 1) <;> simp [pure, Except.pure, String.append_assoc]

theorem renderPending_tree (options : RenderOptions) (ht : t.In f) (hs : t.size ≤ steps) (depth : Nat) (text : String) :
    f.renderPending options steps [(t.root, depth)] text = return text ++ (← t.render f options depth) := by
  have htrees : ∀ p ∈ [(t, depth)], p.1.In f := by simpa using ht
  have hrender := renderPending_eq options htrees (by simpa using hs) text
  simpa [Tree.renderBehind] using hrender

/-- A tree is rendered as recursion on it does. -/
theorem Realizes.renderTree_eq (h : f.Realizes s) (options : RenderOptions) (ht : t.In f) :
    f.renderTree options t.root = t.render f options 0 := by
  have hsize := h.size_le ht (has_of_in ht)
  unfold renderTree
  rw [renderPending_tree options ht (by omega)]
  cases t.render f options 0 <;> simp [bind, Except.bind, pure, Except.pure]

/-- The payload of a node looks at its first child at most, which is a node of the forest. -/
theorem Realizes.renderPayload_ok (h : f.Realizes s) {n : Node} (hn : f.node id = .ok n) :
    ∃ text, f.renderPayload n = .ok text := by
  have hname : ∃ name, f.functionName? n = .ok name := by
    unfold functionName?
    cases hfirst : n.firstChild with
    | none => exact ⟨_, rfl⟩
    | some first =>
      rw [(h.links hn).firstChild] at hfirst
      obtain ⟨m, hm⟩ := has_iff_node.1 (h.has_child (List.mem_of_head? hfirst))
      simp [payload, hm, bind, Except.bind, pure, Except.pure]
  obtain ⟨name, hname⟩ := hname
  unfold renderPayload
  cases n.payload with
  | text value => exact ⟨_, rfl⟩
  | number value => exact ⟨_, rfl⟩
  | generic =>
    by_cases hfunction : n.kind.isFunction = true
    · cases name <;> simp [hfunction, hname, bind, Except.bind, pure, Except.pure]
    · simp [hfunction, pure, Except.pure]

theorem Realizes.renderNode_ok (h : f.Realizes s) (options : RenderOptions) (hid : f.Has id) :
    ∃ text, f.renderNode options id = .ok text := by
  obtain ⟨n, hn⟩ := has_iff_node.1 hid
  obtain ⟨text, hpayload⟩ := h.renderPayload_ok hn
  simp [renderNode, hn, hpayload, bind, Except.bind, pure, Except.pure]

theorem Realizes.render_ok (h : f.Realizes s) (options : RenderOptions) (ht : t.In f) (depth : Nat) :
    ∃ text, t.render f options depth = .ok text := by
  induction t using Tree.induct generalizing depth with
  | step id ts ih =>
    obtain ⟨hid, -, hts⟩ := h.in_node_iff.1 ht
    have hline : ∃ line, f.renderListed options id depth = .ok line := by
      obtain ⟨text, htext⟩ := h.renderNode_ok options hid
      simp [renderListed, htext, bind, Except.bind, pure, Except.pure]
    obtain ⟨rest, hrest⟩ := Tree.renderAll_ok fun t htm => ih t htm (hts t htm) (depth + 1)
    obtain ⟨line, hline⟩ := hline
    simp [Tree.render, hline, hrest, bind, Except.bind, pure, Except.pure]

end Forest

end SyntaxForest
