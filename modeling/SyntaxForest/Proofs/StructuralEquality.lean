import SyntaxForest.Proofs.Comparison
import SyntaxForest.Proofs.Insertion
import SyntaxForest.Proofs.NumberValues
/-!
# Comparison decides structural equality

Two nodes are alike when they have the same kind and equal payloads and when their children are alike, one by one.
The comparison of nodes answers whether they are, for any two nodes of a reachable forest: the same node twice,
nodes of one tree, or a node and one above it. It looks at kinds, payloads and lists of children below the two
nodes and at nothing else.
-/

namespace SyntaxForest

variable {s s' : Layout} {f g : Forest} {a b x : NodeId} {t u : Tree} {ts us : List Tree} {p q : Payload}

/-! ## Nodes that are alike -/

/-- Equal payloads: none, the same text, or numbers that stand for the same value. -/
inductive Payload.Equal : Payload → Payload → Prop
  | generic : Equal .generic .generic
  | text (value : String) : Equal (.text value) (.text value)
  | number {x y : Double} {value : Double.Value} (left : x.value? = some value)
    (right : y.value? = some value) : Equal (.number x) (.number y)

theorem Payload.same_iff_equal : p.same q = true ↔ p.Equal q := by
  constructor
  · intro h
    cases p <;> cases q <;> simp only [same, beq_iff_eq, Bool.false_eq_true] at h
    · exact .generic
    · exact h ▸ .text _
    · obtain ⟨value, hx, hy⟩ := Double.equal_iff_value.1 h
      exact .number hx hy
  · intro h
    cases h with
    | generic => rfl
    | text value => simp [same]
    | number left right => exact Double.equal_iff_value.2 ⟨_, left, right⟩

namespace Forest

/-- Nodes with the same kind, equal payloads and equally many children, which are alike one by one. -/
inductive Alike (f : Forest) : NodeId → NodeId → Prop
  | node {a b : NodeId} {kind : Kind} {p q : Payload} {as bs : List NodeId}
    (left_kind : f.kind a = .ok kind) (right_kind : f.kind b = .ok kind)
    (left_payload : f.payload a = .ok p) (right_payload : f.payload b = .ok q) (payloads : p.Equal q)
    (left_children : f.children a = .ok as) (right_children : f.children b = .ok bs)
    (children : List.Forall₂ (Alike f) as bs) : Alike f a b

end Forest

namespace Tree

theorem sameNode_iff : SameNode f a b ↔ ∃ kind p q, f.kind a = .ok kind ∧ f.kind b = .ok kind ∧
    f.payload a = .ok p ∧ f.payload b = .ok q ∧ p.Equal q := by
  simp only [Forest.kind, Forest.payload, Forest.read_eq_ok_iff, ← Payload.same_iff_equal]
  constructor
  · rintro ⟨m, n, hm, hn, hkind, hsame⟩
    exact ⟨_, _, _, ⟨m, hm, rfl⟩, ⟨n, hn, hkind.symm⟩, ⟨m, hm, rfl⟩, ⟨n, hn, rfl⟩, hsame⟩
  · rintro ⟨kind, p, q, ⟨m, hm, rfl⟩, ⟨n, hn, hkind⟩, ⟨m', hm', rfl⟩, ⟨n', hn', rfl⟩, hsame⟩
    rw [hm] at hm'
    rw [hn] at hn'
    cases hm'
    cases hn'
    exact ⟨m, n, hm, hn, hkind.symm, hsame⟩

theorem alike_node (hts : (node a ts).In f) (hus : (node b us).In f) :
    f.Alike a b ↔ SameNode f a b ∧ List.Forall₂ f.Alike (roots ts) (roots us) := by
  have hleft := (in_node.1 hts).1
  have hright := (in_node.1 hus).1
  rw [sameNode_iff]
  constructor
  · rintro ⟨ka, kb, pa, pb, hpq, ca, cb, hbelow⟩
    rw [hleft] at ca
    rw [hright] at cb
    cases ca
    cases cb
    exact ⟨⟨_, _, _, ka, kb, pa, pb, hpq⟩, hbelow⟩
  · rintro ⟨⟨kind, p, q, ka, kb, pa, pb, hpq⟩, hbelow⟩
    exact .node ka kb pa pb hpq hleft hright hbelow

/-- Nodes are alike when the trees under them are the same, node by node. -/
theorem alike_iff_same (ht : t.In f) (hu : u.In f) : f.Alike t.root u.root ↔ Same f t u := by
  induction t using Tree.induct generalizing u with
  | step a ts ih =>
    cases u with
    | node b us =>
      have hts := (in_node.1 ht).2
      have hus := (in_node.1 hu).2
      rw [root_node, root_node, alike_node ht hu, same_node, roots, roots, List.forall₂_map_left_iff,
        List.forall₂_map_right_iff, List.forall₂_iff_zip, List.forall₂_iff_zip]
      refine and_congr_right fun _ => and_congr_right fun _ => ?_
      constructor
      · intro h t u htu
        obtain ⟨htm, hum⟩ := List.of_mem_zip htu
        exact (ih t htm (hts t htm) (hus u hum)).1 (h htu)
      · intro h t u htu
        obtain ⟨htm, hum⟩ := List.of_mem_zip htu
        exact (ih t htm (hts t htm) (hus u hum)).2 (h htu)

end Tree

/-! ## What comparison looks at -/

namespace Forest

/-- The node has the same kind, an identical payload and the same children in both forests. -/
def SameStructure (f g : Forest) (x : NodeId) : Prop :=
  g.kind x = f.kind x ∧ g.payload x = f.payload x ∧ g.children x = f.children x

end Forest

namespace Tree

theorem SameNode.congr (h : SameNode f a b) (ha : f.SameStructure g a) (hb : f.SameStructure g b) :
    SameNode g a b := by
  rw [sameNode_iff] at h ⊢
  rwa [ha.1, ha.2.1, hb.1, hb.2.1]

theorem Same.congr (h : Same f t u) (ht : ∀ x ∈ t.preorder, f.SameStructure g x)
    (hu : ∀ x ∈ u.preorder, f.SameStructure g x) : Same g t u := by
  induction t using Tree.induct generalizing u with
  | step a ts ih =>
    cases u with
    | node b us =>
      rw [same_node] at h ⊢
      rw [preorder, preorderAll_eq_flatMap, List.forall_mem_cons] at ht hu
      refine ⟨h.1.congr ht.1 hu.1, ?_⟩
      rw [List.forall₂_iff_zip] at *
      refine ⟨h.2.1, fun {t u} htu => ?_⟩
      obtain ⟨htm, hum⟩ := List.of_mem_zip htu
      refine ih t htm (h.2.2 htu) (fun x hx => ht.2 x ?_) fun x hx => hu.2 x ?_
      · exact List.mem_flatMap.2 ⟨t, htm, hx⟩
      · exact List.mem_flatMap.2 ⟨u, hum, hx⟩

end Tree

namespace Forest

theorem SameStructure.symm (h : f.SameStructure g x) : g.SameStructure f x := ⟨h.1.symm, h.2.1.symm, h.2.2.symm⟩

/-- Comparison of `a` and `b` decides structural equality. -/
structure ComparesStructure (f : Forest) (a b : NodeId) : Prop where
  /-- It gives an answer, which is whether the nodes are alike. -/
  answer : ∃ agree, f.equivalent a b = .ok agree ∧ (agree = true ↔ f.Alike a b)
  /-- It gives the same answer in another forest where the nodes under `a` and `b` differ from these in positions,
  properties and type texts only, whatever the links above `a` and `b` are. -/
  congr : ∀ g : Forest, g.Reachable → (∀ x, f.Within a x ∨ f.Within b x → f.SameStructure g x) →
    g.equivalent a b = f.equivalent a b

theorem Realizes.equivalent_congr (h : f.Realizes s) (hg : g.Realizes s') (ha : f.Has a) (hb : f.Has b)
    (hsame : ∀ x, f.Within a x ∨ f.Within b x → f.SameStructure g x) :
    g.equivalent a b = f.equivalent a b := by
  obtain ⟨t, rfl, ht⟩ := h.exists_tree ha
  obtain ⟨u, rfl, hu⟩ := h.exists_tree hb
  have hleft : ∀ x ∈ t.preorder, f.SameStructure g x := fun x hx =>
    hsame x (.inl (h.within_iff.2 ((h.mem_preorder_iff ht).1 hx)))
  have hright : ∀ x ∈ u.preorder, f.SameStructure g x := fun x hx =>
    hsame x (.inr (h.within_iff.2 ((h.mem_preorder_iff hu).1 hx)))
  have hiff : t.Same g u ↔ t.Same f u := by
    constructor
    · exact fun htu => htu.congr (fun x hx => (hleft x hx).symm) fun x hx => (hright x hx).symm
    · exact fun htu => htu.congr hleft hright
  have ht' : t.In g := ht.congr fun x hx => (hleft x hx).2.2
  have hu' : u.In g := hu.congr fun x hx => (hright x hx).2.2
  simp [h.equivalent_eq ht hu, hg.equivalent_eq ht' hu', hiff]

theorem Realizes.comparesStructure (h : f.Realizes s) (ha : f.Has a) (hb : f.Has b) :
    f.ComparesStructure a b where
  answer := by
    obtain ⟨t, rfl, ht⟩ := h.exists_tree ha
    obtain ⟨u, rfl, hu⟩ := h.exists_tree hb
    refine ⟨_, h.equivalent_eq ht hu, ?_⟩
    simp [Tree.alike_iff_same ht hu]
  congr g hg hsame := by
    obtain ⟨s', hg⟩ := hg.realizes
    exact h.equivalent_congr hg ha hb hsame

end Forest

/-- In a reachable forest the comparison of any two nodes decides whether they are alike. -/
theorem reachable_comparesStructure (hf : f.Reachable) (ha : f.Has a) (hb : f.Has b) :
    f.ComparesStructure a b := by
  obtain ⟨s, h⟩ := hf.realizes
  exact h.comparesStructure ha hb

/-- A block of one statement, and a copy of the statement with a position, a property and minus zero for zero. -/
def markedSample : Forest :=
  Command.runAll [.construct (.numberLit ⟨0⟩), .construct (.exprResult ⟨0⟩), .construct (.block [⟨1⟩]),
    .copyTree ⟨1⟩, .setNumber ⟨4⟩ ⟨0x8000000000000000⟩, .setPosition ⟨3⟩ (.ofLineColumn 7 2),
    .putInt ⟨4⟩ .length 1] .empty

-- the statement is alike to its marked copy, and not to the block that it stands in
theorem markedSample_comparesStructure :
    markedSample.ComparesStructure ⟨1⟩ ⟨3⟩ ∧ markedSample.ComparesStructure ⟨2⟩ ⟨1⟩ ∧
      markedSample.contents ⟨1⟩ ≠ markedSample.contents ⟨3⟩ ∧ markedSample.equivalent ⟨1⟩ ⟨3⟩ = .ok true ∧
      markedSample.equivalent ⟨2⟩ ⟨1⟩ = .ok false := by
  have hreachable : markedSample.Reachable := Forest.Reachable.empty.runAll _
  refine ⟨reachable_comparesStructure hreachable ?_ ?_, reachable_comparesStructure hreachable ?_ ?_, ?_, ?_, ?_⟩ <;>
    decide +kernel

end SyntaxForest
