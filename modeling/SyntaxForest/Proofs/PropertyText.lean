import SyntaxForest.Forest.Render
import SyntaxForest.Proofs.PropertyEquality
/-!
# Texts of property lists

A property list is shown property by property, by ascending key. The text is made from the values under the
keys, so two lists that hold the same map have the same text, however they came about. Of an object that is no
text only its sort is shown.
-/

namespace SyntaxForest

/-- A property as it is shown. -/
def Property.shown (p : Property) : String := " [" ++ p.key.name ++ ": " ++ p.renderValue ++ "]"

/-- Objects that are shown by the same placeholder: two nodes, or two values of other owners. -/
inductive PropertyObject.Indistinct : PropertyObject → PropertyObject → Prop
  | node (a b : NodeId) : Indistinct (.node a) (.node b)
  | external (a b : Int) : Indistinct (.external a) (.external b)

namespace PropertyList

variable {a b l : PropertyList} {key : PropertyKey} {p : Property}

/-- The properties by ascending key. -/
def ordered (l : PropertyList) : List Property := l.sortedKeys.filterMap l.find?

/-- A property is listed when it is the one under its key. -/
theorem mem_ordered_iff : p ∈ l.ordered ↔ l.find? p.key = some p := by
  unfold ordered
  rw [List.mem_filterMap]
  constructor
  · rintro ⟨key, -, hp⟩
    rwa [key_of_find? hp]
  · intro hp
    refine ⟨p.key, ?_, hp⟩
    rw [l.sortedKeys_perm.mem_iff, mem_keys_iff, hp]
    rfl

theorem ordered_strict (h : l.keys.Nodup) : l.ordered.Pairwise fun p q => p.key.id < q.key.id := by
  apply (sortedKeys_strict h).filterMap
  intro a b hab p hp q hq
  rwa [key_of_find? hp, key_of_find? hq]

/-- The text of a list is that of its properties, one after the other. -/
theorem render_eq (l : PropertyList) : l.render = String.join (l.ordered.map Property.shown) := by
  unfold render ordered
  induction l.sortedKeys with
  | nil => rfl
  | cons key keys ih =>
    rw [List.map_cons, List.filterMap_cons, String.join_cons, ih]
    cases hp : l.find? key with
    | none => simp
    | some p =>
      obtain rfl := key_of_find? hp
      simp [Property.shown, toString]

/-! ## Lists with the same text -/

/-- The order of the sorted keys is settled by which keys are set. -/
theorem sortedKeys_congr (ha : a.keys.Nodup) (hb : b.keys.Nodup)
    (h : ∀ key, (a.find? key).isSome = (b.find? key).isSome) : a.sortedKeys = b.sortedKeys := by
  have hperm : a.sortedKeys.Perm b.sortedKeys := by
    apply (a.sortedKeys_perm.trans ?_).trans b.sortedKeys_perm.symm
    apply (List.perm_ext_iff_of_nodup ha hb).2
    intro key
    rw [mem_keys_iff, mem_keys_iff, h]
  apply List.Perm.eq_of_pairwise _ (sortedKeys_strict ha) (sortedKeys_strict hb) hperm
  intro k k' _ _ hlt hgt
  omega

/-- Lists whose keys do not repeat have the same text when they show the same value under every key. -/
theorem render_congr (ha : a.keys.Nodup) (hb : b.keys.Nodup)
    (h : ∀ key, (a.find? key).map Property.renderValue = (b.find? key).map Property.renderValue) :
    a.render = b.render := by
  have hset : ∀ key, (a.find? key).isSome = (b.find? key).isSome := by
    intro key
    have hkey := congrArg Option.isSome (h key)
    simpa using hkey
  unfold render
  rw [sortedKeys_congr ha hb hset]
  congr 1
  apply List.map_congr_left
  intro key _
  have hkey := h key
  cases hp : a.find? key <;> cases hq : b.find? key <;> simp_all

theorem render_of_same (ha : a.keys.Nodup) (hb : b.keys.Nodup) (h : a.same b = true) :
    a.render = b.render := by
  apply render_congr ha hb
  intro key
  rw [(same_iff ha hb).1 h key]

/-- What an object that is no text stands for does not show. -/
theorem render_putObject {object other : PropertyObject} (hl : l.keys.Nodup)
    (hobject : l.getObject? key = some object) (h : object.Indistinct other) :
    (l.putObject key other).render = l.render := by
  obtain ⟨p, hp, hpo⟩ := Option.bind_eq_some_iff.1 hobject
  have hkeys : (l.putObject key other).keys = l.keys :=
    keys_update_of_set (by intro; rfl) (by rw [hp]; rfl)
  apply render_congr (by rwa [hkeys]) hl
  intro key'
  by_cases hkey : key' = key
  · subst hkey
    rw [find?_putObject_self, hp]
    cases h <;> simp [Property.renderValue, hpo]
  · rw [find?_putObject_of_ne hkey]

/-- How the changes of different keys were interleaved does not show. -/
theorem render_ofChanges_congr {changes changes' : List PropertyChange}
    (h : ∀ key, changes.filter (·.key = key) = changes'.filter (·.key = key)) :
    (ofChanges changes).render = (ofChanges changes').render := by
  apply render_congr (tracks_ofChanges changes).nodup (tracks_ofChanges changes').nodup
  intro key
  rw [find?_ofChanges_congr (h key)]

end PropertyList

end SyntaxForest
