import SyntaxForest.Proofs.Runs
import SyntaxForest.Proofs.Worklists
/-!
# Walks go depth first

A walk keeps one list of nodes to be entered and nodes to be left. Whatever its visitor answers, and however the
answers depend on what the visitor has seen, it comes to the same as recursion: enter a node, walk its children
in order unless they are skipped, and leave the node. The calls that a visitor gets are therefore nested, each
node that is entered is left once, and below a skipped node none is entered.
-/

namespace SyntaxForest

variable {σ : Type} {s : Layout} {f : Forest} {visitor : Visitor σ} {state final : σ} {id x root : NodeId}
  {t : Tree} {ts : List Tree}

/-! ## Calls of a visitor -/

/-- A call that a visitor got, with its answer if it gives one. -/
inductive Call
  | entered (id : NodeId) (answer : Descent)
  | left (id : NodeId)
  deriving DecidableEq, Repr

/-- The nodes that calls enter, in order. -/
@[simp] def enteredNodes : List Call → List NodeId
  | [] => []
  | .entered id _ :: calls => id :: enteredNodes calls
  | .left _ :: calls => enteredNodes calls

/-- The nodes that calls leave, in order. -/
@[simp] def leftNodes : List Call → List NodeId
  | [] => []
  | .entered _ _ :: calls => leftNodes calls
  | .left id :: calls => id :: leftNodes calls

/-- Each entering of a node is closed by its leaving, and the calls in between are nested as well. -/
inductive Nested : List Call → Prop
  | nil : Nested []
  | wrap {id : NodeId} {answer : Descent} {inner rest : List Call} :
    Nested inner → Nested rest → Nested (.entered id answer :: (inner ++ .left id :: rest))

/-- The visitor that also writes down its calls. -/
def Visitor.logged (visitor : Visitor σ) : Visitor (σ × List Call) where
  enter f id seen := (visitor.enter f id seen.1).map fun r => (r.1, r.2, seen.2 ++ [.entered id r.1])
  leave f id seen := (visitor.leave f id seen.1).map fun state => (state, seen.2 ++ [.left id])

theorem Visitor.logged_enter (visitor : Visitor σ) {answer : Descent} {a b : σ}
    (h : visitor.enter f id a = .ok (answer, b)) (log : List Call) :
    visitor.logged.enter f id (a, log) = .ok (answer, b, log ++ [.entered id answer]) := by
  simp [logged, h, Except.map]

theorem Visitor.logged_leave (visitor : Visitor σ) {a b : σ} (h : visitor.leave f id a = .ok b)
    (log : List Call) : visitor.logged.leave f id (a, log) = .ok (b, log ++ [.left id]) := by
  simp [logged, h, Except.map]

variable {calls : List Call}

@[simp] theorem enteredNodes_append (calls more : List Call) :
    enteredNodes (calls ++ more) = enteredNodes calls ++ enteredNodes more := by
  induction calls with
  | nil => rfl
  | cons call calls ih => cases call <;> simp [ih]

@[simp] theorem leftNodes_append (calls more : List Call) :
    leftNodes (calls ++ more) = leftNodes calls ++ leftNodes more := by
  induction calls with
  | nil => rfl
  | cons call calls ih => cases call <;> simp [ih]

theorem mem_enteredNodes : x ∈ enteredNodes calls ↔ ∃ answer, .entered x answer ∈ calls := by
  induction calls with
  | nil => simp
  | cons call calls ih =>
    cases call with
    | entered id answer => simp [ih, exists_or, eq_comm]
    | left id => simp [ih]

/-- Where no node is entered twice, a node has given one answer. -/
theorem answer_unique (hn : (enteredNodes calls).Nodup) {answer answer' : Descent}
    (h : .entered id answer ∈ calls) (h' : .entered id answer' ∈ calls) : answer = answer' := by
  induction calls with
  | nil => cases h
  | cons call calls ih =>
    cases call with
    | left x => exact ih hn (by simpa using h) (by simpa using h')
    | entered x first =>
      rw [enteredNodes, List.nodup_cons, mem_enteredNodes] at hn
      rcases List.mem_cons.1 h with hfirst | hlater <;> rcases List.mem_cons.1 h' with hfirst' | hlater'
      · cases hfirst
        cases hfirst'
        rfl
      · cases hfirst
        exact absurd ⟨_, hlater'⟩ hn.1
      · cases hfirst'
        exact absurd ⟨_, hlater⟩ hn.1
      · exact ih hn.2 hlater hlater'

/-! ## Calls that visit a list of trees -/

namespace Tree

/-- What holds of a list of trees whenever it holds of the trees below its first root and of the rest, holds of
every list of trees. -/
theorem induct_list {P : List Tree → Prop} (nil : P [])
    (cons : ∀ id ts rest, P ts → P rest → P (.node id ts :: rest)) (ts : List Tree) : P ts := by
  refine @Tree.rec_1 (fun t => ∀ rest, P rest → P (t :: rest)) P ?_ nil ?_ ts
  · intro id ts hts rest hrest
    exact cons id ts rest hts hrest
  · intro t rest ht hrest
    exact ht rest hrest

/-- The calls that visiting a list of trees can make: each root is entered and left, and in between the trees
below it are visited unless they are skipped. -/
inductive Traced : List Tree → List Call → Prop
  | nil : Traced [] []
  | skip {id : NodeId} {ts rest : List Tree} {calls : List Call} :
    Traced rest calls → Traced (.node id ts :: rest) (.entered id .skip :: .left id :: calls)
  | descend {id : NodeId} {ts rest : List Tree} {inner calls : List Call} :
    Traced ts inner → Traced rest calls →
      Traced (.node id ts :: rest) (.entered id .descend :: (inner ++ .left id :: calls))

namespace Traced

theorem nested (h : Traced ts calls) : Nested calls := by
  induction h with
  | nil => exact .nil
  | skip _ ih => exact .wrap .nil ih
  | descend _ _ ihInner ihRest => exact .wrap ihInner ihRest

theorem entered_sublist (h : Traced ts calls) : (enteredNodes calls).Sublist (preorderAll ts) := by
  induction h with
  | nil => exact List.Sublist.slnil
  | @skip id ts rest calls _ ih =>
    have hrest := ih.trans (List.sublist_append_right (preorderAll ts) (preorderAll rest))
    simpa [preorderAll, preorder] using hrest
  | descend _ _ ihInner ihRest =>
    simpa [preorderAll, preorder] using ihInner.append ihRest

theorem left_perm (h : Traced ts calls) : (leftNodes calls).Perm (enteredNodes calls) := by
  induction h with
  | nil => exact .refl _
  | skip _ ih => simpa using ih
  | @descend id ts rest inner calls _ _ ihInner ihRest =>
    have hall : (leftNodes inner ++ id :: leftNodes calls).Perm
        (id :: (enteredNodes inner ++ enteredNodes calls)) :=
      List.perm_middle.trans ((ihInner.append ihRest).cons id)
    simpa using hall

/-- When nothing is skipped, every node is entered, and it is left after the nodes below it. -/
theorem complete (h : Traced ts calls) (hall : ∀ id, .entered id .skip ∉ calls) :
    enteredNodes calls = preorderAll ts ∧ leftNodes calls = postorderAll ts := by
  induction h with
  | nil => exact ⟨rfl, rfl⟩
  | @skip id => exact absurd List.mem_cons_self (hall id)
  | descend _ _ ihInner ihRest =>
    obtain ⟨hinner, hinner'⟩ := ihInner fun id hid => hall id (by simp [hid])
    obtain ⟨hrest, hrest'⟩ := ihRest fun id hid => hall id (by simp [hid])
    simp [preorderAll, preorder, postorderAll, postorder, hinner, hinner', hrest, hrest']

/-- A node is entered as a root of the list, or below a node that was not skipped. -/
theorem entered_cases (h : Traced ts calls) (hf : f.Realizes s) (hts : ∀ t ∈ ts, t.In f)
    (hx : x ∈ enteredNodes calls) :
    x ∈ roots ts ∨ ∃ p, s.parent x = some p ∧ .entered p .descend ∈ calls := by
  induction h with
  | nil => cases hx
  | @skip id ts rest calls _ ih =>
    rw [List.forall_mem_cons] at hts
    have hx : x = id ∨ x ∈ enteredNodes calls := by simpa using hx
    rcases hx with rfl | hx
    · exact .inl List.mem_cons_self
    · rcases ih hts.2 hx with hroot | ⟨p, hp, hcall⟩
      · exact .inl (List.mem_cons_of_mem _ hroot)
      · exact .inr ⟨p, hp, by simp [hcall]⟩
  | @descend id ts rest inner calls _ _ ihInner ihRest =>
    rw [List.forall_mem_cons] at hts
    obtain ⟨-, hroots, hbelow⟩ := hf.in_node_iff.1 hts.1
    have hx : x = id ∨ x ∈ enteredNodes inner ∨ x ∈ enteredNodes calls := by
      simpa using hx
    rcases hx with rfl | hx | hx
    · exact .inl List.mem_cons_self
    · rcases ihInner hbelow hx with hroot | ⟨p, hp, hcall⟩
      · rw [← hroots, s.mem_children] at hroot
        exact .inr ⟨id, hroot, List.mem_cons_self⟩
      · exact .inr ⟨p, hp, by simp [hcall]⟩
    · rcases ihRest hts.2 hx with hroot | ⟨p, hp, hcall⟩
      · exact .inl (List.mem_cons_of_mem _ hroot)
      · exact .inr ⟨p, hp, by simp [hcall]⟩

theorem around (h : Traced [t] calls) :
    (enteredNodes calls).head? = some t.root ∧ (leftNodes calls).getLast? = some t.root := by
  cases h with
  | skip hrest =>
    cases hrest
    simp
  | descend _ hrest =>
    cases hrest
    simp

theorem entered_nodup (h : Traced [t] calls) (hf : f.Realizes s) (ht : t.In f) : (enteredNodes calls).Nodup := by
  have hsub : (enteredNodes calls).Sublist t.preorder := by simpa [preorderAll] using h.entered_sublist
  exact (hf.nodup_preorder ht).sublist hsub

/-- Below a skipped node none is entered. On the way up from such a node to the skipped one, each node would
have been entered by way of the node above it, and so the skipped one not skipped. -/
theorem not_entered_of_skipped (h : Traced [t] calls) (hf : f.Realizes s) (ht : t.In f)
    (hskip : .entered id .skip ∈ calls) (hbelow : s.Above id x) : x ∉ enteredNodes calls := by
  have hin : ∀ u ∈ [t], u.In f := by simpa using ht
  have hroot : ¬ s.Above id t.root := by
    intro habove
    have hmem : id ∈ t.preorder := by
      have hid := h.entered_sublist.subset (mem_enteredNodes.2 ⟨.skip, hskip⟩)
      simpa [preorderAll] using hid
    exact s.not_above_self id (Relation.TransGen.trans_left habove ((hf.mem_preorder_iff ht).1 hmem))
  have hparent : ∀ y, s.Above id y → y ∈ enteredNodes calls →
      ∃ p, s.parent y = some p ∧ .entered p .descend ∈ calls := by
    intro y hy hentered
    refine (h.entered_cases hf hin hentered).resolve_left fun htop => ?_
    rw [roots_cons, roots_nil, List.mem_singleton] at htop
    exact hroot (htop ▸ hy)
  unfold Layout.Above at hbelow
  induction hbelow with
  | @single x hx =>
    intro hentered
    obtain ⟨p, hp, hcall⟩ := hparent x (.single hx) hentered
    rw [hx] at hp
    cases hp
    cases answer_unique (h.entered_nodup hf ht) hskip hcall
  | @tail y x hy hx ih =>
    intro hentered
    obtain ⟨p, hp, hcall⟩ := hparent x (.tail hy hx) hentered
    rw [hx] at hp
    cases hp
    exact ih (mem_enteredNodes.2 ⟨.descend, hcall⟩)

end Traced

/-! ## The calls of a visit -/

/-- How visiting a list of trees gives a final state: its first root is skipped, or the trees below are visited
between its entering and its leaving. -/
theorem visitAll_node_eq_ok_iff {rest : List Tree} :
    visitAll f visitor (.node id ts :: rest) state = .ok final ↔
      (∃ a b, visitor.enter f id state = .ok (.skip, a) ∧ visitor.leave f id a = .ok b ∧
        visitAll f visitor rest b = .ok final) ∨
      (∃ a b c, visitor.enter f id state = .ok (.descend, a) ∧ visitAll f visitor ts a = .ok b ∧
        visitor.leave f id b = .ok c ∧ visitAll f visitor rest c = .ok final) := by
  rw [visitAll, visit]
  cases visitor.enter f id state with
  | error e => simp [bind, Except.bind]
  | ok answer =>
    obtain ⟨answer, a⟩ := answer
    cases answer with
    | skip => cases hleave : visitor.leave f id a <;> simp [bind, Except.bind, hleave]
    | descend =>
      cases hbelow : visitAll f visitor ts a with
      | error e => simp [bind, Except.bind, hbelow]
      | ok b => cases hleave : visitor.leave f id b <;> simp [bind, Except.bind, hbelow, hleave]

/-- Writing down the calls does not change a visit. The calls written down are those of the trees, and their
answers are the visitor's. -/
theorem visitAll_logged (h : visitAll f visitor ts state = .ok final) :
    ∃ calls, Traced ts calls ∧
      (∀ id answer, .entered id answer ∈ calls → ∃ a b, visitor.enter f id a = .ok (answer, b)) ∧
      ∀ log, visitAll f visitor.logged ts (state, log) = .ok (final, log ++ calls) := by
  induction ts using induct_list generalizing state final with
  | nil =>
    cases h
    exact ⟨[], .nil, by simp, fun log => by simp [visitAll]⟩
  | cons id ts rest ihBelow ihRest =>
    rcases visitAll_node_eq_ok_iff.1 h with ⟨a, b, henter, hleave, hrest⟩ | ⟨a, b, c, henter, hbelow, hleave, hrest⟩
    · obtain ⟨calls, htraced, hanswers, hlog⟩ := ihRest hrest
      refine ⟨_, .skip htraced, fun x answer hx => ?_, fun log => ?_⟩
      · simp only [List.mem_cons, Call.entered.injEq, reduceCtorEq, false_or] at hx
        rcases hx with ⟨rfl, rfl⟩ | hx
        · exact ⟨_, _, henter⟩
        · exact hanswers x answer hx
      · refine visitAll_node_eq_ok_iff.2 (.inl ⟨_, _, visitor.logged_enter henter log,
          visitor.logged_leave hleave _, ?_⟩)
        simp [hlog]
    · obtain ⟨inner, htracedInner, hanswersInner, hlogInner⟩ := ihBelow hbelow
      obtain ⟨calls, htraced, hanswers, hlog⟩ := ihRest hrest
      refine ⟨_, .descend htracedInner htraced, fun x answer hx => ?_, fun log => ?_⟩
      · simp only [List.mem_cons, List.mem_append, Call.entered.injEq, reduceCtorEq, false_or] at hx
        rcases hx with ⟨rfl, rfl⟩ | hx | hx
        · exact ⟨_, _, henter⟩
        · exact hanswersInner x answer hx
        · exact hanswers x answer hx
      · refine visitAll_node_eq_ok_iff.2 (.inr ⟨_, _, _, visitor.logged_enter henter log, hlogInner _,
          visitor.logged_leave hleave _, ?_⟩)
        simp [hlog]

theorem visit_eq_visitAll (t : Tree) (state : σ) : t.visit f visitor state = visitAll f visitor [t] state := by
  cases h : t.visit f visitor state <;> simp [visitAll, h, bind, Except.bind]

end Tree

/-! ## Walks -/

namespace Forest

/-- What the calls of a walk from `root` look like. -/
structure DepthFirst (f : Forest) (root : NodeId) (calls : List Call) : Prop where
  nested : Nested calls
  /-- The root is entered first and left last. -/
  around : (enteredNodes calls).head? = some root ∧ (leftNodes calls).getLast? = some root
  once : (enteredNodes calls).Nodup
  /-- A node that is entered is left once, and no other node is left. -/
  left_once : ∀ id, (leftNodes calls).count id = if id ∈ enteredNodes calls then 1 else 0
  /-- No proper descendant of a skipped node is entered. -/
  skipped : ∀ id x, .entered id .skip ∈ calls → f.isAncestorOf id x = .ok true → x ∉ enteredNodes calls

/-- A walk from `root` visits the tree there by recursion, whatever the visitor does. -/
structure WalksDepthFirst (f : Forest) (root : NodeId) (visitor : Visitor σ) (state : σ) : Prop where
  /-- The recursion goes along the tree that the lists of children make up. -/
  recursive : ∃ t : Tree, t.root = root ∧ t.In f ∧ f.walk root visitor state = t.visit f visitor state
  /-- The same said of walks alone: enter, walk the children in order unless they are skipped, leave. -/
  unfolds : f.walk root visitor state = (do
    let entered ← visitor.enter f root state
    if entered.1 = .skip then visitor.leave f root entered.2
    else
      let children ← f.children root
      let below ← children.foldlM (fun state child => f.walk child visitor state) entered.2
      visitor.leave f root below)
  /-- A visitor that never stops is led to a final state. -/
  answers : (∀ id state, ∃ entered, visitor.enter f id state = .ok entered) →
    (∀ id state, ∃ left, visitor.leave f id state = .ok left) →
    ∃ final, f.walk root visitor state = .ok final
  /-- Writing down the calls does not change the final state, and shows that they go depth first. -/
  calls : ∀ final, f.walk root visitor state = .ok final →
    ∃ calls, f.walk root visitor.logged (state, []) = .ok (final, calls) ∧ f.DepthFirst root calls
  /-- When the visitor always goes on to the children, the nodes are entered in pre-order and left in
  post-order. -/
  complete : (∀ id a answer b, visitor.enter f id a = .ok (answer, b) → answer = .descend) →
    ∀ final, f.walk root visitor state = .ok final →
      ∃ (calls : List Call) (t : Tree), f.walk root visitor.logged (state, []) = .ok (final, calls) ∧
        t.root = root ∧ t.In f ∧ f.preorder root = .ok (enteredNodes calls) ∧ leftNodes calls = t.postorder

theorem Realizes.depthFirst (h : f.Realizes s) (ht : t.In f) (hc : Tree.Traced [t] calls) :
    f.DepthFirst t.root calls where
  nested := hc.nested
  around := hc.around
  once := hc.entered_nodup h ht
  left_once id := by
    rw [hc.left_perm.count_eq]
    by_cases hid : id ∈ enteredNodes calls
    · rw [if_pos hid, List.count_eq_one_of_mem (hc.entered_nodup h ht) hid]
    · rw [if_neg hid, List.count_eq_zero_of_not_mem hid]
  skipped id x hskip habove := hc.not_entered_of_skipped h ht hskip (h.isAncestorOf_iff.1 habove)

/-- The trees of a list are walked one after the other. -/
theorem Realizes.visitAll_eq (h : f.Realizes s) (hts : ∀ t ∈ ts, t.In f) (state : σ) :
    Tree.visitAll f visitor ts state =
      (Tree.roots ts).foldlM (fun state child => f.walk child visitor state) state := by
  induction ts generalizing state with
  | nil => rfl
  | cons t ts ih =>
    rw [List.forall_mem_cons] at hts
    rw [Tree.visitAll, Tree.roots_cons, List.foldlM_cons, h.walk_eq hts.1]
    exact bind_congr fun state => ih hts.2 state

theorem Realizes.walk_unfolds (h : f.Realizes s) (hroot : f.Has root) (state : σ) :
    f.walk root visitor state = (do
      let entered ← visitor.enter f root state
      if entered.1 = .skip then visitor.leave f root entered.2
      else
        let children ← f.children root
        let below ← children.foldlM (fun state child => f.walk child visitor state) entered.2
        visitor.leave f root below) := by
  obtain ⟨⟨id, ts⟩, rfl, ht⟩ := h.exists_tree hroot
  obtain ⟨hchildren, hts⟩ := Tree.in_node.1 ht
  rw [h.walk_eq ht, Tree.visit, Tree.root_node, hchildren]
  refine bind_congr fun entered => ?_
  obtain ⟨answer, state⟩ := entered
  cases answer with
  | skip => rfl
  | descend => simp [h.visitAll_eq hts, bind, Except.bind]

/-- The calls of a walk are those of a visit of its tree. -/
theorem Realizes.walk_logged (h : f.Realizes s) (ht : t.In f) (hwalk : f.walk t.root visitor state = .ok final) :
    ∃ calls, f.walk t.root visitor.logged (state, []) = .ok (final, calls) ∧ Tree.Traced [t] calls ∧
      ∀ id answer, .entered id answer ∈ calls → ∃ a b, visitor.enter f id a = .ok (answer, b) := by
  rw [h.walk_eq ht, Tree.visit_eq_visitAll] at hwalk
  obtain ⟨calls, htraced, hanswers, hlog⟩ := Tree.visitAll_logged hwalk
  refine ⟨calls, ?_, htraced, hanswers⟩
  rw [h.walk_eq ht, Tree.visit_eq_visitAll, hlog, List.nil_append]

theorem Realizes.walksDepthFirst (h : f.Realizes s) (hroot : f.Has root) (visitor : Visitor σ) (state : σ) :
    f.WalksDepthFirst root visitor state := by
  obtain ⟨t, rfl, ht⟩ := h.exists_tree hroot
  constructor
  · exact ⟨t, rfl, ht, h.walk_eq ht state⟩
  · exact h.walk_unfolds hroot state
  · intro henter hleave
    cases hwalk : f.walk t.root visitor state with
    | ok final => exact ⟨final, rfl⟩
    | error e =>
      rw [h.walk_eq ht] at hwalk
      obtain ⟨id, -, state', hfault | hfault⟩ := Tree.visit_error hwalk
      · obtain ⟨entered, hok⟩ := henter id state'
        rw [hfault] at hok
        cases hok
      · obtain ⟨left, hok⟩ := hleave id state'
        rw [hfault] at hok
        cases hok
  · intro final hwalk
    obtain ⟨calls, hlog, htraced, -⟩ := h.walk_logged ht hwalk
    exact ⟨calls, hlog, h.depthFirst ht htraced⟩
  · intro hdescend final hwalk
    obtain ⟨calls, hlog, htraced, hanswers⟩ := h.walk_logged ht hwalk
    have hall : ∀ id, .entered id .skip ∉ calls := by
      intro id hid
      obtain ⟨a, b, henter⟩ := hanswers id .skip hid
      cases hdescend id a .skip b henter
    obtain ⟨hentered, hleft⟩ := htraced.complete hall
    refine ⟨calls, t, hlog, rfl, ht, ?_, ?_⟩
    · simp [h.preorder_eq ht hroot, hentered, Tree.preorderAll]
    · simp [hleft, Tree.postorderAll]

end Forest

/-- In a reachable forest a walk visits the tree under its root as recursion does, for every visitor. -/
theorem reachable_walksDepthFirst (hf : f.Reachable) (hroot : f.Has root) (visitor : Visitor σ) (state : σ) :
    f.WalksDepthFirst root visitor state := by
  obtain ⟨s, h⟩ := hf.realizes
  exact h.walksDepthFirst hroot visitor state

/-- A visitor that counts the nodes it enters, and skips the children of the third. -/
def skipThird : Visitor Nat where
  enter _ _ count := .ok (if count = 2 then .skip else .descend, count + 1)

-- the first statement of the block is skipped, and the second is not
theorem sampleForest_walksDepthFirst :
    sampleForest.WalksDepthFirst ⟨5⟩ skipThird 0 ∧
      sampleForest.preorder ⟨5⟩ = .ok [⟨5⟩, ⟨4⟩, ⟨3⟩, ⟨1⟩, ⟨2⟩, ⟨0⟩] ∧
      sampleForest.walk ⟨5⟩ skipThird.logged (0, []) = .ok (5,
        [.entered ⟨5⟩ .descend, .entered ⟨4⟩ .descend, .entered ⟨3⟩ .skip, .left ⟨3⟩, .entered ⟨2⟩ .descend,
          .entered ⟨0⟩ .descend, .left ⟨0⟩, .left ⟨2⟩, .left ⟨4⟩, .left ⟨5⟩]) :=
  ⟨reachable_walksDepthFirst reachable_sampleForest (by decide +kernel) skipThird 0, by decide +kernel,
    by decide +kernel⟩

end SyntaxForest
