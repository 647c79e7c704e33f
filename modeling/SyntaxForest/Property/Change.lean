import SyntaxForest.Property.List
/-!
# Changes of property lists

The changes as data, and what each does to the property under one key. `find?_apply` ties the two
together: a change acts on its own key as `effect` says, and on no other.
-/

namespace SyntaxForest

/-- One change of a property list. -/
inductive PropertyChange
  | putBool (key : PropertyKey) (value : Bool)
  | putInt (key : PropertyKey) (value : Int)
  | putObject (key : PropertyKey) (value : PropertyObject)
  | remove (key : PropertyKey)
  deriving DecidableEq, Repr

namespace PropertyChange

/-- The key that a change acts on. -/
def key : PropertyChange → PropertyKey
  | .putBool key _ | .putInt key _ | .putObject key _ | .remove key => key

/-- Makes the change. -/
def apply : PropertyChange → PropertyList → PropertyList
  | .putBool key value, l => l.putBool key value
  | .putInt key value, l => l.putInt key value
  | .putObject key value, l => l.putObject key value
  | .remove key, l => l.erase key

/-- What the property under the key of a change becomes. -/
def effect : PropertyChange → Option Property → Option Property
  | .putBool key true, p => some ⟨key, 1, p.bind (·.object)⟩
  | .putBool _ false, _ => none
  | .putInt key value, p => some ⟨key, value, p.bind (·.object)⟩
  | .putObject key value, p => some ⟨key, (p.map (·.int)).getD 0, some value⟩
  | .remove _, _ => none

end PropertyChange

namespace PropertyList

/-- The list that a sequence of changes makes of the empty one. -/
def ofChanges (changes : List PropertyChange) : PropertyList :=
  changes.foldl (fun l c => c.apply l) empty

/-- The property under one key after a sequence of changes, found by replaying those of that key. -/
def replay (key : PropertyKey) (changes : List PropertyChange) : Option Property :=
  changes.foldl (fun p c => if c.key = key then c.effect p else p) none

/-! ## Properties after one change -/

theorem key_of_find? {l : PropertyList} {key : PropertyKey} {p : Property}
    (h : l.find? key = some p) : p.key = key := by
  simpa using List.find?_some h

theorem find?_update_self {l : PropertyList} {key : PropertyKey} {change : Property → Property}
    (keep : ∀ p, (change p).key = p.key) :
    (l.update key change).find? key = some (change ((l.find? key).getD ⟨key, 0, none⟩)) := by
  unfold update
  split
  · rename_i h
    obtain ⟨p, hp⟩ := Option.isSome_iff_exists.1 h
    have keyed : ((fun e : Property => decide (e.key = key)) ∘ fun e => if e.key = key then change e else e) =
        fun e => decide (e.key = key) := by
      funext e
      by_cases he : e.key = key <;> simp [he, keep]
    simp only [find?] at hp ⊢
    rw [List.find?_map, keyed, hp]
    simp [key_of_find? (l := l) hp]
  · rename_i h
    have unset : l.find? key = none := by simpa [contains] using h
    rw [unset]
    simp [find?, keep]

theorem find?_update_of_ne {l : PropertyList} {key other : PropertyKey} {change : Property → Property}
    (keep : ∀ p, (change p).key = p.key) (h : other ≠ key) :
    (l.update key change).find? other = l.find? other := by
  unfold update
  split
  · have keyed : ((fun e : Property => decide (e.key = other)) ∘
        fun e => if e.key = key then change e else e) = fun e => decide (e.key = other) := by
      funext e
      by_cases he : e.key = key <;> simp [he, keep]
    simp only [find?]
    rw [List.find?_map, keyed]
    cases hp : l.entries.find? fun e => decide (e.key = other) with
    | none => rfl
    | some p =>
      have : p.key = other := key_of_find? (l := l) hp
      simp [this, h]
  · simp [find?, keep, h.symm]

@[simp] theorem find?_erase_self (l : PropertyList) (key : PropertyKey) :
    (l.erase key).find? key = none := by
  simp [find?, erase, List.find?_eq_none]

theorem find?_erase_of_ne {l : PropertyList} {key other : PropertyKey} (h : other ≠ key) :
    (l.erase key).find? other = l.find? other := by
  simp only [find?, erase, List.find?_filter]
  congr 1
  funext e
  by_cases he : e.key = other <;> simp [he, h]

theorem find?_putInt_self (l : PropertyList) (key : PropertyKey) (value : Int) :
    (l.putInt key value).find? key = some ⟨key, value, (l.find? key).bind (·.object)⟩ := by
  rw [putInt, find?_update_self (by intro; rfl)]
  cases hp : l.find? key with
  | none => rfl
  | some p => simp [key_of_find? hp]

theorem find?_putInt_of_ne {l : PropertyList} {key other : PropertyKey} {value : Int}
    (h : other ≠ key) : (l.putInt key value).find? other = l.find? other :=
  find?_update_of_ne (by intro; rfl) h

theorem find?_putObject_self (l : PropertyList) (key : PropertyKey) (value : PropertyObject) :
    (l.putObject key value).find? key =
      some ⟨key, ((l.find? key).map (·.int)).getD 0, some value⟩ := by
  rw [putObject, find?_update_self (by intro; rfl)]
  cases hp : l.find? key with
  | none => rfl
  | some p => simp [key_of_find? hp]

theorem find?_putObject_of_ne {l : PropertyList} {key other : PropertyKey} {value : PropertyObject}
    (h : other ≠ key) : (l.putObject key value).find? other = l.find? other :=
  find?_update_of_ne (by intro; rfl) h

/-- A change acts on its own key by `effect` and leaves every other key alone. -/
theorem find?_apply (l : PropertyList) (change : PropertyChange) (key : PropertyKey) :
    (change.apply l).find? key =
      if change.key = key then change.effect (l.find? key) else l.find? key := by
  split
  · rename_i h
    subst h
    match change with
    | .putBool k true => exact find?_putInt_self l k 1
    | .putBool k false => exact find?_erase_self l k
    | .putInt k value => exact find?_putInt_self l k value
    | .putObject k value => exact find?_putObject_self l k value
    | .remove k => exact find?_erase_self l k
  · rename_i h
    have h := Ne.symm h
    match change with
    | .putBool _ true => exact find?_putInt_of_ne h
    | .putBool _ false => exact find?_erase_of_ne h
    | .putInt _ _ => exact find?_putInt_of_ne h
    | .putObject _ _ => exact find?_putObject_of_ne h
    | .remove _ => exact find?_erase_of_ne h

end PropertyList

end SyntaxForest
