import Mathlib.Data.List.Perm.Subperm
import SyntaxForest.Proofs.PropertyMap
/-!
# Equality of property lists

Two lists are compared in one direction only: they have to be equally long, and what the first holds has to be
in the second. Keys do not repeat, so nothing is then left over in the second, and the comparison says that
both hold the same under every key. The order of the lists plays no part in it, and neither does the order of
changes that made them, as long as the changes of each key keep their order.
-/

namespace SyntaxForest

namespace PropertyList

variable {a b : PropertyList} {key : PropertyKey} {p : Property}

/-- The lists hold the same under a key: nothing, or properties with equal halves. -/
def AgreeAt (a b : PropertyList) (key : PropertyKey) : Prop :=
  (a.find? key = none ∧ b.find? key = none) ∨
    ∃ p q, a.find? key = some p ∧ b.find? key = some q ∧ p.int = q.int ∧ p.object = q.object

/-- A property that is found has the key it was looked for, so equal halves make it the same. -/
theorem agreeAt_iff : a.AgreeAt b key ↔ a.find? key = b.find? key := by
  constructor
  · rintro (⟨ha, hb⟩ | ⟨p, q, hp, hq, hint, hobject⟩)
    · rw [ha, hb]
    · have hkey : p.key = q.key := (key_of_find? hp).trans (key_of_find? hq).symm
      rw [hp, hq]
      cases p
      cases q
      simp_all
  · intro h
    cases hb : b.find? key with
    | none => exact .inl ⟨h.trans hb, hb⟩
    | some q => exact .inr ⟨q, q, h.trans hb, hb, rfl, rfl⟩

/-- Where keys do not repeat, each property is the one found under its key. -/
theorem find?_of_mem (ha : a.keys.Nodup) (hp : p ∈ a.entries) : a.find? p.key = some p := by
  have hset : (a.find? p.key).isSome = true := mem_keys_iff.1 (List.mem_map_of_mem hp)
  obtain ⟨q, hq⟩ := Option.isSome_iff_exists.1 hset
  have hmem : q ∈ a.entries := List.mem_of_find?_eq_some hq
  rw [hq, List.inj_on_of_nodup_map ha hmem hp (key_of_find? hq)]

theorem same_eq_true_iff :
    a.same b = true ↔ a.keys.length = b.keys.length ∧ ∀ p ∈ a.entries, b.find? p.key = some p := by
  simp [same, length, keys]

/-- As many distinct keys as the other list, and all of them in it, are all keys of the other list. -/
theorem keys_perm_of_same (ha : a.keys.Nodup) (h : a.same b = true) : a.keys.Perm b.keys := by
  obtain ⟨hlength, hentries⟩ := same_eq_true_iff.1 h
  have hsub : a.keys ⊆ b.keys := by
    intro key hkey
    obtain ⟨p, hp, rfl⟩ := List.mem_map.1 hkey
    rw [mem_keys_iff, hentries p hp]
    rfl
  exact (ha.subperm hsub).perm_of_length_le (Nat.le_of_eq hlength.symm)

/-- Lists whose keys do not repeat are the same when they hold the same under every key. -/
theorem same_iff (ha : a.keys.Nodup) (hb : b.keys.Nodup) :
    a.same b = true ↔ ∀ key, a.find? key = b.find? key := by
  constructor
  · intro h key
    cases hp : a.find? key with
    | none =>
      have hunset : ¬ (b.find? key).isSome = true := by
        rw [← mem_keys_iff, ← (keys_perm_of_same ha h).mem_iff, mem_keys_iff, hp]
        simp
      exact (Option.not_isSome_iff_eq_none.1 hunset).symm
    | some p =>
      have hmem : p ∈ a.entries := List.mem_of_find?_eq_some hp
      rw [← key_of_find? hp, (same_eq_true_iff.1 h).2 p hmem]
  · intro h
    have hperm : a.keys.Perm b.keys := by
      refine (List.perm_ext_iff_of_nodup ha hb).2 fun key => ?_
      rw [mem_keys_iff, mem_keys_iff, h]
    refine same_eq_true_iff.2 ⟨hperm.length_eq, fun p hp => ?_⟩
    rw [← h, find?_of_mem ha hp]

/-! ## Lists made by changes -/

theorem same_ofChanges_iff (changes changes' : List PropertyChange) :
    (ofChanges changes).same (ofChanges changes') = true ↔
      ∀ key, (ofChanges changes).find? key = (ofChanges changes').find? key :=
  same_iff (tracks_ofChanges changes).nodup (tracks_ofChanges changes').nodup

/-- What is held under a key is decided by the changes of that key. -/
theorem find?_ofChanges_congr {changes changes' : List PropertyChange}
    (h : changes.filter (·.key = key) = changes'.filter (·.key = key)) :
    (ofChanges changes).find? key = (ofChanges changes').find? key := by
  rw [(tracks_ofChanges changes).find?, (tracks_ofChanges changes').find?, ← replay_filter key changes, h,
    replay_filter]

/-- Equality of the lists that changes make is agreement under every key. Hence it is an equivalence, and it
does not see how the changes of different keys were interleaved. -/
theorem same_ofChanges_extensional :
    (∀ changes changes', (ofChanges changes).same (ofChanges changes') = true ↔
      ∀ key, (ofChanges changes).AgreeAt (ofChanges changes') key) ∧
    (∀ changes, (ofChanges changes).same (ofChanges changes) = true) ∧
    (∀ changes changes',
      (ofChanges changes).same (ofChanges changes') = (ofChanges changes').same (ofChanges changes)) ∧
    (∀ changes changes' changes'', (ofChanges changes).same (ofChanges changes') = true →
      (ofChanges changes').same (ofChanges changes'') = true →
      (ofChanges changes).same (ofChanges changes'') = true) ∧
    (∀ changes changes' : List PropertyChange,
      (∀ key, changes.filter (·.key = key) = changes'.filter (·.key = key)) →
      (ofChanges changes).same (ofChanges changes') = true) := by
  refine ⟨?_, ?_, ?_, ?_, ?_⟩
  · intro changes changes'
    simp only [same_ofChanges_iff, agreeAt_iff]
  · intro changes
    exact (same_ofChanges_iff changes changes).2 fun _ => rfl
  · intro changes changes'
    rw [Bool.eq_iff_iff, same_ofChanges_iff, same_ofChanges_iff]
    exact forall_congr' fun _ => eq_comm
  · intro changes changes' changes'' h h'
    rw [same_ofChanges_iff] at *
    exact fun key => (h key).trans (h' key)
  · intro changes changes' h
    exact (same_ofChanges_iff changes changes').2 fun key => find?_ofChanges_congr (h key)

-- the second sequence creates the keys in the other order, so the lists differ as lists
theorem interleaved_same :
    let changes := [.putInt .length 3, .putBool .synthetic true, .putInt .length 4]
    let changes' := [PropertyChange.putBool .synthetic true, .putInt .length 3, .putInt .length 4]
    ofChanges changes ≠ ofChanges changes' ∧
      (∀ key, changes.filter (·.key = key) = changes'.filter (·.key = key)) ∧
      (ofChanges changes).same (ofChanges changes') = true := by
  intro changes changes'
  have h : ∀ key, changes.filter (·.key = key) = changes'.filter (·.key = key) := by
    intro key
    cases key <;> decide
  exact ⟨by decide, h, same_ofChanges_extensional.2.2.2.2 changes changes' h⟩

-- with a repeated key the comparison would look past what the second list holds besides
example :
    same ⟨[⟨.length, 1, none⟩, ⟨.length, 1, none⟩]⟩ ⟨[⟨.length, 1, none⟩, ⟨.quoted, 1, none⟩]⟩ = true ∧
      same ⟨[⟨.length, 1, none⟩, ⟨.quoted, 1, none⟩]⟩ ⟨[⟨.length, 1, none⟩, ⟨.length, 1, none⟩]⟩ = false := by
  decide

end PropertyList

end SyntaxForest
