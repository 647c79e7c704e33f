import SyntaxForest.Forest.Basic
/-!
# Reading after writing

How looking at a node answers after one change or one allocation, and how an edit runs when it begins
with a query, a change or an allocation. Later proofs run edits by these rules and do not unfold them.
-/

namespace SyntaxForest

namespace Forest

variable {f : Forest} {id other : NodeId} {n : Node}

theorem node_eq_ok_iff : f.node id = .ok n ↔ f.nodes[id.index]? = some n := by
  unfold node
  split <;> simp_all

theorem node_eq_error_iff {e : Fault} :
    f.node id = .error e ↔ ¬ f.Has id ∧ e = .outOfRange f.size id.index := by
  unfold node
  split
  · rename_i h
    have := (Array.getElem?_eq_some_iff.1 h).1
    simp [Has, size, this]
  · rename_i h
    have : f.nodes.size ≤ id.index := Array.getElem?_eq_none_iff.1 h
    constructor
    · rintro ⟨⟩
      exact ⟨Nat.not_lt.2 this, rfl⟩
    · rintro ⟨-, rfl⟩
      rfl

theorem has_iff_node : f.Has id ↔ ∃ n, f.node id = .ok n := by
  simp only [node_eq_ok_iff, Array.getElem?_eq_some_iff, Has, size]
  exact ⟨fun h => ⟨_, h, rfl⟩, fun ⟨_, h, _⟩ => h⟩

theorem Has.of_node (h : f.node id = .ok n) : f.Has id := has_iff_node.2 ⟨n, h⟩

theorem mem_ids : id ∈ f.ids ↔ f.Has id := by
  simp only [ids, List.mem_map, List.mem_range, Has]
  exact ⟨fun ⟨_, h, e⟩ => e ▸ h, fun h => ⟨_, h, rfl⟩⟩

theorem eq_of_nodes {f g : Forest} (hsize : f.size = g.size) (hnode : ∀ id, f.node id = g.node id) :
    f = g := by
  have harray : f.nodes = g.nodes := by
    refine Array.ext hsize fun i hf hg => ?_
    have hi := hnode ⟨i⟩
    simpa [node, Array.getElem?_eq_getElem hf, Array.getElem?_eq_getElem hg] using hi
  cases f
  cases g
  simpa using harray

@[simp] theorem size_modifyNode (f : Forest) (id : NodeId) (update : Node → Node) :
    (f.modifyNode id update).size = f.size := by
  simp [modifyNode, size]

@[simp] theorem has_modifyNode {update : Node → Node} : (f.modifyNode other update).Has id ↔ f.Has id := by
  simp [Has]

theorem node_modifyNode_self {update : Node → Node} (h : f.node id = .ok n) :
    (f.modifyNode id update).node id = .ok (update n) := by
  rw [node_eq_ok_iff] at h ⊢
  simp [modifyNode, Array.getElem?_modify, h]

theorem node_modifyNode_of_ne {update : Node → Node} (h : id ≠ other) :
    (f.modifyNode other update).node id = f.node id := by
  have hi : other.index ≠ id.index := fun e => h (by cases id; cases other; simp_all)
  simp [node, modifyNode, Array.getElem?_modify, hi, size]

@[simp] theorem size_push (f : Forest) (n : Node) : (f.push n).size = f.size + 1 := by
  simp [push, size]

theorem node_push_nextId (f : Forest) (n : Node) : (f.push n).node f.nextId = .ok n := by
  rw [node_eq_ok_iff]
  simp [push, nextId, size]

theorem node_push_of_has (h : f.Has id) : (f.push n).node id = f.node id := by
  obtain ⟨m, hm⟩ := has_iff_node.1 h
  rw [hm]
  rw [node_eq_ok_iff] at hm ⊢
  have : id.index ≠ f.nodes.size := Nat.ne_of_lt h
  simp [push, Array.getElem?_push, this, hm]

end Forest

namespace Edit

variable {α β : Type} {f g : Forest} {e : Fault}

theorem ask_eq_ok {query : Forest → Except Fault α} {a : α} :
    ask query f = .ok a g ↔ query f = .ok a ∧ g = f := by
  unfold ask
  split <;> simp_all [eq_comm]

theorem ask_eq_error {query : Forest → Except Fault α} :
    ask query f = .error e g ↔ query f = .error e ∧ g = f := by
  unfold ask
  split <;> simp_all [eq_comm]

theorem change_eq_ok {id : NodeId} {update : Node → Node} {u : Unit} :
    change id update f = .ok u g ↔ f.Has id ∧ g = f.modifyNode id update := by
  unfold change
  by_cases h : id.index < f.size <;> simp [Forest.Has, h, eq_comm]

theorem change_eq_error {id : NodeId} {update : Node → Node} :
    change id update f = .error e g ↔
      ¬ f.Has id ∧ e = .outOfRange f.size id.index ∧ g = f := by
  unfold change
  by_cases h : id.index < f.size <;> simp [Forest.Has, h, eq_comm]

@[simp] theorem allocate_eq (n : Node) (f : Forest) : allocate n f = .ok f.nextId (f.push n) := rfl

theorem bind_of_ok {a : α} {x : Edit α} {k : α → Edit β} (h : x f = .ok a g) : (x >>= k) f = k a g := by
  simp only [bind, EStateM.bind, h]

theorem bind_of_error {x : Edit α} {k : α → Edit β} (h : x f = .error e g) :
    (x >>= k) f = .error e g := by
  simp only [bind, EStateM.bind, h]

theorem bind_eq_ok {x : Edit α} {k : α → Edit β} {b : β} :
    (x >>= k) f = .ok b g ↔ ∃ a h, x f = .ok a h ∧ k a h = .ok b g := by
  simp only [bind, EStateM.bind]
  cases x f with
  | ok a h => exact ⟨fun hk => ⟨a, h, rfl, hk⟩, fun ⟨_, _, heq, hk⟩ => by cases heq; exact hk⟩
  | error e h => simp

theorem bind_eq_error {x : Edit α} {k : α → Edit β} :
    (x >>= k) f = .error e g ↔
      x f = .error e g ∨ ∃ a h, x f = .ok a h ∧ k a h = .error e g := by
  simp only [bind, EStateM.bind]
  cases x f with
  | ok a h =>
    refine ⟨fun hk => .inr ⟨a, h, rfl, hk⟩, ?_⟩
    rintro (heq | ⟨_, _, heq, hk⟩)
    · cases heq
    · cases heq; exact hk
  | error e h => simp

end Edit

end SyntaxForest
