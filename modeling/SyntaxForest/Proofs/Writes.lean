import SyntaxForest.Command
import SyntaxForest.Property.Change
import SyntaxForest.Proofs.Building
/-!
# Edits as sequences of writes

Whatever an edit does, it does by a few kinds of writes: it changes links of a node, allocates a new node or a copy
of one, or changes one of the things that a node carries. This holds write by write, also when an edit stops
halfway, and it needs no layout. What every write keeps therefore holds in every reachable forest.
-/

namespace SyntaxForest

open Edit

variable {α β : Type} {f g : Forest} {id : NodeId} {n : Node} {written : List NodeId}

namespace Forest

/-- One write. A payload is written only to the nodes of `written`. -/
inductive Write (written : List NodeId) (f : Forest) : Forest → Prop
  /-- Links of a node are changed, and nothing that it carries. -/
  | relink (id : NodeId) {update : Node → Node} (same : ∀ n, (update n).detachedCopy = n.detachedCopy) :
    Write written f ((change id update).after f)
  /-- A node is allocated with the payload that its kind asks for. -/
  | create {kind : Kind} {payload : Payload} (position : Position) (shape : payload.shape = kind.shape) :
    Write written f (f.push { kind := kind, payload := payload, position := position })
  /-- A copy of a node is allocated. -/
  | copy {id : NodeId} {n : Node} (original : f.node id = .ok n) : Write written f (f.push n.detachedCopy)
  | setPayload {id : NodeId} {n : Node} {payload : Payload} (named : id ∈ written)
    (old : f.node id = .ok n) (shape : payload.shape = n.payload.shape) :
    Write written f ((change id fun n => { n with payload := payload }).after f)
  | setPosition (id : NodeId) (position : Position) : Write written f ((Edit.setPosition id position).after f)
  | setProperties (id : NodeId) (change : PropertyChange) :
    Write written f ((changeProperties id change.apply).after f)
  | setTypeText (id : NodeId) (text : Option String) : Write written f ((Edit.setTypeText id text).after f)

end Forest

namespace Edit

/-- What the edit leaves behind comes about by writes, whether or not it stops with a fault. -/
def Writes (edit : Edit α) (f : Forest) (written : List NodeId) : Prop :=
  Relation.ReflTransGen (Forest.Write written) f (edit.after f)

theorem writes_pure (a : α) : (pure a : Edit α).Writes f written := .refl

theorem writes_throw (e : Fault) : (throw e : Edit α).Writes f written := .refl

theorem Writes.bind {edit : Edit β} {k : β → Edit α} (h : edit.Writes f written)
    (hk : ∀ b g, (k b).Writes g written) : (edit >>= k).Writes f written := by
  unfold Writes at *
  rw [after_bind]
  cases edit.answer f with
  | ok b => exact h.trans (hk b _)
  | error e => exact h

theorem writes_ask {query : Forest → Except Fault β} {k : β → Edit α}
    (hk : ∀ b, query f = .ok b → (k b).Writes f written) : (ask query >>= k).Writes f written := by
  unfold Writes at *
  rw [after_bind, after_ask, answer_ask]
  cases hquery : query f with
  | ok b => exact hk b hquery
  | error e => exact .refl

theorem Writes.map {edit : Edit β} {view : β → α} (h : edit.Writes f written) :
    (view <$> edit).Writes f written := by
  have hb := h.bind fun b g => writes_pure (f := g) (view b)
  simpa using hb

theorem writes_forM {ids : List β} {edit : β → Edit Unit} (h : ∀ b f, (edit b).Writes f written) :
    (ids.forM edit).Writes f written := by
  induction ids generalizing f with
  | nil => exact writes_pure ()
  | cons b ids ih => exact (h b f).bind fun _ g => ih

theorem writes_relink {update : Node → Node} (hu : ∀ n, (update n).detachedCopy = n.detachedCopy) :
    (change id update).Writes f written := .single (.relink id hu)

theorem writes_create {kind : Kind} {payload : Payload} {position : Position}
    (hshape : payload.shape = kind.shape) :
    (allocate { kind := kind, payload := payload, position := position }).Writes f written :=
  .single (.create position hshape)

/-! ## Links -/

theorem writes_point (p : NodeId) (before target : Option NodeId) :
    (point p before target).Writes f written := by
  cases before with
  | none => exact writes_relink fun _ => rfl
  | some before => exact writes_relink fun _ => rfl

theorem writes_linkBack (p c : NodeId) : (linkBack p c).Writes f written := by
  refine writes_ask fun last _ => ?_
  refine .bind (writes_relink fun _ => rfl) fun _ _ => ?_
  refine (writes_point p last _).bind fun _ _ => ?_
  exact writes_relink fun _ => rfl

theorem writes_prependChild (p c : NodeId) : (prependChild p c).Writes f written := by
  refine writes_ask fun _ _ => ?_
  refine writes_ask fun first _ => ?_
  refine .bind (writes_relink fun _ => rfl) fun _ _ => ?_
  exact writes_relink fun _ => rfl

theorem writes_appendChild (p c : NodeId) : (appendChild p c).Writes f written :=
  writes_ask fun _ _ => writes_linkBack p c

theorem writes_appendChildren (p : NodeId) (cs : List NodeId) :
    (appendChildren p cs).Writes f written :=
  writes_ask fun _ _ => writes_forM fun c _ => writes_linkBack p c

theorem writes_insertAfter (c sibling : NodeId) : (insertAfter c sibling).Writes f written := by
  refine writes_ask fun parent _ => ?_
  cases parent with
  | none => exact writes_throw _
  | some p =>
    refine writes_ask fun _ _ => ?_
    refine writes_ask fun next _ => ?_
    refine .bind (writes_relink fun _ => rfl) fun _ _ => ?_
    refine .bind (writes_relink fun _ => rfl) fun _ _ => ?_
    exact writes_relink fun _ => rfl

theorem writes_insertBefore (c sibling : NodeId) : (insertBefore c sibling).Writes f written := by
  refine writes_ask fun parent _ => ?_
  cases parent with
  | none => exact writes_throw _
  | some p =>
    refine writes_ask fun previous _ => ?_
    cases previous with
    | none => exact writes_prependChild p c
    | some previous => exact writes_insertAfter c previous

theorem writes_unlink (p c : NodeId) : (unlink p c).Writes f written := by
  refine writes_ask fun previous _ => ?_
  refine writes_ask fun next _ => ?_
  refine (writes_point p previous next).bind fun _ _ => ?_
  refine .bind (writes_relink fun _ => rfl) fun _ _ => ?_
  exact writes_relink fun _ => rfl

theorem writes_detach (c : NodeId) : (detach c).Writes f written := by
  refine writes_ask fun parent _ => ?_
  cases parent with
  | none => exact writes_throw _
  | some p => exact writes_unlink p c

theorem writes_removeChild (p c : NodeId) : (removeChild p c).Writes f written := by
  refine writes_ask fun parent _ => ?_
  split
  · exact writes_unlink p c
  · exact writes_throw _

theorem writes_removeFirstChild (p : NodeId) : (removeFirstChild p).Writes f written := by
  refine writes_ask fun first _ => ?_
  cases first with
  | none => exact writes_pure _
  | some c => exact (writes_unlink p c).bind fun _ _ => writes_pure _

theorem writes_detachChildren (p : NodeId) : (detachChildren p).Writes f written := by
  refine writes_ask fun cs _ => ?_
  refine .bind (writes_forM fun c _ => writes_relink fun _ => rfl) fun _ _ => ?_
  exact .bind (writes_relink fun _ => rfl) fun _ _ => writes_pure _

theorem writes_replaceWith (old c : NodeId) : (replaceWith old c).Writes f written := by
  refine writes_ask fun parent _ => ?_
  cases parent with
  | none => exact writes_throw _
  | some p =>
    refine writes_ask fun _ _ => ?_
    refine writes_ask fun previous _ => ?_
    refine writes_ask fun next _ => ?_
    refine .bind (writes_relink fun _ => rfl) fun _ _ => ?_
    refine (writes_point p previous _).bind fun _ _ => ?_
    refine .bind (writes_relink fun _ => rfl) fun _ _ => ?_
    exact writes_relink fun _ => rfl

/-! ## New nodes and copies -/

theorem writes_newNode (kind : Kind) (position : Position) :
    (newNode kind position).Writes f written := by
  unfold newNode
  split
  · exact writes_throw _
  · rename_i hkind
    have hshape : kind.shape = .generic := by simpa [Kind.hasPayload] using hkind
    exact writes_create hshape.symm

theorem writes_newText (kind : Kind) (value : Option String) (position : Position) :
    (newText kind value position).Writes f written := by
  unfold newText
  split
  · exact writes_throw _
  · rename_i hkind
    cases value with
    | none => exact writes_throw _
    | some text => exact writes_create (not_not.1 hkind).symm

theorem writes_copyNode (id : NodeId) : (copyNode id).Writes f written :=
  writes_ask fun _ hn => .single (.copy hn)

theorem writes_copyChildren (p : NodeId) (cs : List NodeId) (pending : List (NodeId × NodeId)) :
    (copyChildren p cs pending).Writes f written := by
  induction cs generalizing f pending with
  | nil => exact writes_pure _
  | cons c cs ih =>
    refine (writes_copyNode c).bind fun copy _ => ?_
    exact (writes_linkBack p copy).bind fun _ _ => ih _

theorem writes_copyPending (steps : Nat) (pending : List (NodeId × NodeId)) :
    (copyPending steps pending).Writes f written := by
  induction steps generalizing f pending with
  | zero =>
    cases pending with
    | nil => exact writes_pure _
    | cons pair pending => exact writes_throw _
  | succ steps ih =>
    cases pending with
    | nil => exact writes_pure _
    | cons pair pending =>
      refine writes_ask fun cs _ => ?_
      exact (writes_copyChildren pair.2 cs pending).bind fun next _ => ih next

theorem writes_copyTree (root : NodeId) : (copyTree root).Writes f written := by
  refine writes_ask fun steps _ => ?_
  refine (writes_copyNode root).bind fun copy _ => ?_
  exact (writes_copyPending steps _).bind fun _ _ => writes_pure _

theorem writes_expect (role : Role) (id : NodeId) : (expect role id).Writes f written := by
  refine writes_ask fun kind _ => ?_
  split
  · exact writes_pure _
  · exact writes_throw _

theorem writes_parentOf {kind : Kind} (hkind : kind.shape = .generic) (op : Operation)
    (cs : List NodeId) : (parentOf kind op cs).Writes f written := by
  refine writes_ask fun _ _ => ?_
  refine .bind (writes_create hkind.symm) fun id _ => ?_
  exact (writes_appendChildren id cs).bind fun _ _ => writes_pure _

theorem writes_declare (name : NodeId) (value : Option NodeId) :
    (declare name value).Writes f written := by
  refine (writes_expect _ name).bind fun _ _ => ?_
  refine writes_ask fun _ _ => ?_
  cases value with
  | none => exact writes_parentOf rfl _ _
  | some value =>
    refine (writes_expect _ value).bind fun _ _ => ?_
    refine writes_ask fun busy _ => ?_
    split
    · exact writes_throw _
    · exact (writes_appendChild name value).bind fun _ _ => writes_parentOf rfl _ _

end Edit

theorem Construction.run_writes (construction : Construction) :
    construction.run.Writes f written := by
  have hruns := construction.runs
  generalize construction.run = edit at hruns ⊢
  cases hruns with
  | leaf _ _ hshape => exact writes_create hshape
  | checked operation _ hshape =>
    refine .bind (writes_forM fun part _ => writes_expect part.1 part.2) fun _ _ => ?_
    exact writes_parentOf hshape operation _
  | declaration name value => exact writes_declare name value
  | access target property =>
    refine (writes_expect _ target).bind fun _ _ => ?_
    refine writes_ask fun _ _ => ?_
    exact .bind (writes_create rfl) fun text _ => writes_parentOf rfl _ _

/-! ## Commands -/

namespace Command

/-- The node whose payload a command writes. -/
def rewrites : Command → List NodeId
  | .setText id _ | .setNumber id _ => [id]
  | _ => []

/-- Every command is a sequence of writes, and writes only the payload that it is there to write. -/
theorem run_writes (f : Forest) (command : Command) : command.run.Writes f command.rewrites := by
  have done : ∀ {edit : Edit Unit} {written}, edit.Writes f written →
      (edit >>= fun _ => pure Reply.done).Writes f written :=
    fun he => he.bind fun _ _ => writes_pure _
  cases command with
  | newNode kind position => exact (writes_newNode kind position).map
  | newText kind value position => exact (writes_newText kind value position).map
  | newNumber value position => exact (writes_create rfl).map
  | construct construction => exact construction.run_writes.map
  | prependChild parent child => exact done (writes_prependChild parent child)
  | appendChild parent child => exact done (writes_appendChild parent child)
  | appendChildren parent children => exact done (writes_appendChildren parent children)
  | insertAfter child sibling => exact done (writes_insertAfter child sibling)
  | insertBefore child sibling => exact done (writes_insertBefore child sibling)
  | detach id => exact done (writes_detach id)
  | removeChild parent child => exact done (writes_removeChild parent child)
  | removeFirstChild parent => exact (writes_removeFirstChild parent).map
  | detachChildren parent => exact (writes_detachChildren parent).map
  | replaceWith old replacement => exact done (writes_replaceWith old replacement)
  | copyNode id => exact (writes_copyNode id).map
  | copyTree root => exact (writes_copyTree root).map
  | setText id value =>
    refine done (writes_ask fun n hn => ?_)
    -- only a text is overwritten by a text
    cases hp : n.payload with
    | generic | number _ => exact writes_throw _
    | text old => exact .single (.setPayload List.mem_cons_self hn (by rw [hp]; rfl))
  | setNumber id value =>
    refine done (writes_ask fun n hn => ?_)
    cases hp : n.payload with
    | generic | text _ => exact writes_throw _
    | number old => exact .single (.setPayload List.mem_cons_self hn (by rw [hp]; rfl))
  | setPosition id position => exact done (.single (.setPosition id position))
  | copyPosition id source =>
    exact done (writes_ask fun position _ => .single (.setPosition id position))
  | putBool id key value => exact done (.single (.setProperties id (.putBool key value)))
  | putInt id key value => exact done (.single (.setProperties id (.putInt key value)))
  | putObject id key value => exact done (.single (.setProperties id (.putObject key value)))
  | removeProperty id key => exact done (.single (.setProperties id (.remove key)))
  | setTypeText id text => exact done (.single (.setTypeText id text))

end Command

/-- What holds of the empty forest and is kept by every write holds of every reachable forest. -/
theorem Forest.Reachable.of_writes {P : Forest → Prop} (hf : f.Reachable) (empty : P .empty)
    (write : ∀ {f g written}, f.Write written g → P f → P g) : P f := by
  induction hf with
  | empty => exact empty
  | @step f command _ ih =>
    have hwrites := command.run_writes f
    unfold Writes at hwrites
    generalize command.run.after f = g at hwrites ⊢
    induction hwrites with
    | refl => exact ih
    | tail _ hwrite ih => exact write hwrite ih

end SyntaxForest
