import Mathlib.Data.List.Nodup
import SyntaxForest.Property.Change
/-!
# Property lists as finite maps

A property list holds a finite map from keys to properties. What it holds under a key is found by replaying
the changes of that key alone. Besides the map it keeps an order: the key that was created last stands
first. Overwriting a property creates nothing, so it moves nothing; a key that is removed and set again is
created anew.
-/

namespace SyntaxForest

variable {l : PropertyList} {key : PropertyKey} {change : Property → Property} {c : PropertyChange}
  {changes : List PropertyChange} {i : Nat}

/-! ## Keys -/

theorem PropertyKey.id_injective {a b : PropertyKey} (h : a.id = b.id) : a = b := by
  have hidx : a.ctorIdx = b.ctorIdx := by simpa [id] using h
  rw [← ofNat_ctorIdx a, ← ofNat_ctorIdx b, hidx]

theorem PropertyKey.mem_all (key : PropertyKey) : key ∈ all := by
  cases key <;> decide

theorem PropertyKey.nodup_all : all.Nodup := by decide +kernel

namespace PropertyList

/-- The set keys, in the order of the list. -/
def keys (l : PropertyList) : List PropertyKey := l.entries.map (·.key)

theorem mem_keys_iff : key ∈ l.keys ↔ (l.find? key).isSome = true := by
  simp [keys, find?]

theorem keys_update_of_set (keep : ∀ p, (change p).key = p.key) (h : (l.find? key).isSome = true) :
    (l.update key change).keys = l.keys := by
  have hset : l.contains key = true := h
  unfold update
  rw [if_pos hset]
  simp only [keys, List.map_map]
  apply List.map_congr_left
  intro e _
  by_cases he : e.key = key <;> simp [he, keep]

theorem entries_update_of_unset (h : l.find? key = none) :
    (l.update key change).entries = change ⟨key, 0, none⟩ :: l.entries := by
  simp [update, contains, h]

end PropertyList

/-! ## One change -/

theorem PropertyChange.key_of_effect {p : Option Property} {q : Property}
    (h : c.effect p = some q) : q.key = c.key := by
  match c with
  | .putBool k true | .putInt k v | .putObject k v =>
    cases h
    rfl
  | .putBool k false | .remove k => cases h

namespace PropertyList

/-- A change removes its key and keeps the rest in order, or creates it at the head, or overwrites it in its
place. -/
theorem apply_cases (c : PropertyChange) (l : PropertyList) :
    (c.effect (l.find? c.key) = none ∧ (c.apply l).entries = l.entries.filter (·.key ≠ c.key)) ∨
      (l.find? c.key = none ∧ ∃ p, c.effect none = some p ∧ (c.apply l).entries = p :: l.entries) ∨
      ((l.find? c.key).isSome = true ∧ (c.effect (l.find? c.key)).isSome = true ∧
        (c.apply l).keys = l.keys) := by
  have put : ∀ (k : PropertyKey) (change : Property → Property), (∀ p, (change p).key = p.key) →
      (l.find? k = none ∧ (l.update k change).entries = change ⟨k, 0, none⟩ :: l.entries) ∨
        ((l.find? k).isSome = true ∧ (l.update k change).keys = l.keys) := by
    intro k change keep
    cases hk : l.find? k with
    | none => exact .inl ⟨rfl, entries_update_of_unset hk⟩
    | some p => exact .inr ⟨rfl, keys_update_of_set keep (by simp [hk])⟩
  match c with
  | .putBool k false | .remove k => exact .inl ⟨rfl, rfl⟩
  | .putBool k true =>
    rcases put k (fun e => { e with int := 1 }) (fun _ => rfl) with ⟨hk, he⟩ | ⟨hk, he⟩
    · exact .inr (.inl ⟨hk, _, rfl, he⟩)
    · exact .inr (.inr ⟨hk, rfl, he⟩)
  | .putInt k v =>
    rcases put k (fun e => { e with int := v }) (fun _ => rfl) with ⟨hk, he⟩ | ⟨hk, he⟩
    · exact .inr (.inl ⟨hk, _, rfl, he⟩)
    · exact .inr (.inr ⟨hk, rfl, he⟩)
  | .putObject k v =>
    rcases put k (fun e => { e with object := some v }) (fun _ => rfl) with ⟨hk, he⟩ | ⟨hk, he⟩
    · exact .inr (.inl ⟨hk, _, rfl, he⟩)
    · exact .inr (.inr ⟨hk, rfl, he⟩)

/-! ## Creations -/

/-- The change at place `i` creates the key: it is unset before the change and set after it. -/
def CreatedAt (key : PropertyKey) (changes : List PropertyChange) (i : Nat) : Prop :=
  replay key (changes.take i) = none ∧ (replay key (changes.take (i + 1))).isSome = true

/-- The change at place `i` is the last one that creates the key. -/
def LatestCreation (key : PropertyKey) (changes : List PropertyChange) (i : Nat) : Prop :=
  CreatedAt key changes i ∧ ∀ j, i < j → ¬ CreatedAt key changes j

theorem replay_concat (key : PropertyKey) (changes : List PropertyChange) (c : PropertyChange) :
    replay key (changes ++ [c]) =
      if c.key = key then c.effect (replay key changes) else replay key changes := by
  simp [replay]

/-- Only the changes of a key count for it. -/
theorem replay_filter (key : PropertyKey) (changes : List PropertyChange) :
    replay key (changes.filter (·.key = key)) = replay key changes := by
  unfold replay
  rw [List.foldl_filter]
  congr 1
  funext p c
  by_cases h : c.key = key <;> simp [h]

theorem CreatedAt.lt (h : CreatedAt key changes i) : i < changes.length := by
  by_contra hi
  obtain ⟨hnone, hsome⟩ := h
  rw [List.take_of_length_le (by omega)] at hnone hsome
  simp [hnone] at hsome

/-- One change more creates a key if it was unset and now is set. -/
theorem createdAt_concat : CreatedAt key (changes ++ [c]) i ↔ CreatedAt key changes i ∨
    i = changes.length ∧ replay key changes = none ∧ (replay key (changes ++ [c])).isSome = true := by
  rcases Nat.lt_trichotomy i changes.length with hi | rfl | hi
  · have hne : i ≠ changes.length := by omega
    unfold CreatedAt
    rw [List.take_append_of_le_length (by omega), List.take_append_of_le_length (by omega)]
    simp [hne]
  · have hnot : ¬ CreatedAt key changes changes.length := fun h => Nat.lt_irrefl _ h.lt
    have hall : (changes ++ [c]).take (changes.length + 1) = changes ++ [c] :=
      List.take_of_length_le (by simp)
    rw [or_iff_right hnot, CreatedAt, List.take_left, hall]
    simp
  · have hnot : ¬ CreatedAt key changes i := fun h => Nat.lt_asymm hi h.lt
    have hnot' : ¬ CreatedAt key (changes ++ [c]) i := by
      intro h
      have hlt := h.lt
      rw [List.length_append, List.length_singleton] at hlt
      omega
    have hne : i ≠ changes.length := by omega
    simp [hnot, hnot', hne]

/-- A change of another key, or of a key that is set, is no creation. -/
theorem LatestCreation.concat (h : LatestCreation key changes i)
    (hc : c.key ≠ key ∨ (replay key changes).isSome = true) : LatestCreation key (changes ++ [c]) i := by
  refine ⟨createdAt_concat.2 (.inl h.1), ?_⟩
  intro j hj hcreated
  rcases createdAt_concat.1 hcreated with hcreated | ⟨-, hnone, hsome⟩
  · exact h.2 j hj hcreated
  · rcases hc with hne | hset
    · rw [replay_concat, if_neg hne, hnone] at hsome
      cases hsome
    · rw [hnone] at hset
      cases hset

theorem latestCreation_last (hnone : replay key changes = none)
    (hsome : (replay key (changes ++ [c])).isSome = true) :
    LatestCreation key (changes ++ [c]) changes.length := by
  refine ⟨createdAt_concat.2 (.inr ⟨rfl, hnone, hsome⟩), ?_⟩
  intro j hj hcreated
  have hlt := hcreated.lt
  rw [List.length_append, List.length_singleton] at hlt
  omega

/-! ## A list keeps track of its changes -/

/-- What a list says of the changes that it was made by. -/
structure Tracks (l : PropertyList) (changes : List PropertyChange) : Prop where
  find? : ∀ key, l.find? key = replay key changes
  nodup : l.keys.Nodup
  created : ∀ key ∈ l.keys, ∃ i, LatestCreation key changes i
  order : l.keys.Pairwise fun a b =>
    ∃ i j, LatestCreation a changes i ∧ LatestCreation b changes j ∧ j < i

theorem tracks_empty : empty.Tracks [] := by
  constructor
  · intro key
    rfl
  · exact List.nodup_nil
  · intro key hkey
    cases hkey
  · exact List.Pairwise.nil

namespace Tracks

theorem set_of_mem (h : l.Tracks changes) (hkey : key ∈ l.keys) : (replay key changes).isSome = true := by
  rw [← h.find?]
  exact mem_keys_iff.1 hkey

section Step

variable {l' : PropertyList} (hfind : ∀ key, l'.find? key = replay key (changes ++ [c]))
include hfind

/-- Keys that stay where they are stay created when they were. -/
theorem keep (h : l.Tracks changes) (hsub : l'.keys.Sublist l.keys)
    (hc : ∀ key ∈ l'.keys, c.key ≠ key ∨ (replay key changes).isSome = true) :
    l'.Tracks (changes ++ [c]) := by
  constructor
  · exact hfind
  · exact hsub.nodup h.nodup
  · intro key hkey
    obtain ⟨i, hi⟩ := h.created key (hsub.subset hkey)
    exact ⟨i, hi.concat (hc key hkey)⟩
  · apply (h.order.sublist hsub).imp_of_mem
    intro a b ha hb hab
    obtain ⟨i, j, hi, hj, hlt⟩ := hab
    exact ⟨i, j, hi.concat (hc a ha), hj.concat (hc b hb), hlt⟩

/-- A new key is created later than all others. -/
theorem create (h : l.Tracks changes) (hkeys : l'.keys = c.key :: l.keys)
    (hnone : replay c.key changes = none) : l'.Tracks (changes ++ [c]) := by
  have hnew : c.key ∉ l.keys := by
    intro hm
    have hset := h.set_of_mem hm
    rw [hnone] at hset
    cases hset
  have hne : ∀ key ∈ l.keys, c.key ≠ key := fun key hkey e => hnew (e ▸ hkey)
  have hlast : LatestCreation c.key (changes ++ [c]) changes.length := by
    apply latestCreation_last hnone
    rw [← hfind, ← mem_keys_iff, hkeys]
    exact List.mem_cons_self
  constructor
  · exact hfind
  · rw [hkeys, List.nodup_cons]
    exact ⟨hnew, h.nodup⟩
  · intro key hkey
    rw [hkeys, List.mem_cons] at hkey
    rcases hkey with rfl | hkey
    · exact ⟨_, hlast⟩
    · obtain ⟨i, hi⟩ := h.created key hkey
      exact ⟨i, hi.concat (.inl (hne key hkey))⟩
  · rw [hkeys, List.pairwise_cons]
    constructor
    · intro key hkey
      obtain ⟨i, hi⟩ := h.created key hkey
      exact ⟨_, i, hlast, hi.concat (.inl (hne key hkey)), hi.1.lt⟩
    · apply h.order.imp_of_mem
      intro a b ha hb hab
      obtain ⟨i, j, hi, hj, hlt⟩ := hab
      exact ⟨i, j, hi.concat (.inl (hne a ha)), hj.concat (.inl (hne b hb)), hlt⟩

end Step

/-- One change more. -/
theorem apply (h : l.Tracks changes) (c : PropertyChange) : (c.apply l).Tracks (changes ++ [c]) := by
  have hfind : ∀ key, (c.apply l).find? key = replay key (changes ++ [c]) := by
    intro key
    rw [find?_apply, replay_concat, h.find?]
  rcases apply_cases c l with ⟨-, hentries⟩ | ⟨hnone, p, hp, hentries⟩ | ⟨-, -, hkeys⟩
  · have hkeys : (c.apply l).keys = l.keys.filter (· ≠ c.key) := by
      simp [keys, hentries, List.filter_map, Function.comp_def]
    apply keep hfind h
    · rw [hkeys]
      exact List.filter_sublist
    · intro key hkey
      rw [hkeys] at hkey
      have hne : key ≠ c.key := by simpa using (List.mem_filter.1 hkey).2
      exact .inl hne.symm
  · apply create hfind h
    · simp [keys, hentries, PropertyChange.key_of_effect hp]
    · rw [← h.find?, hnone]
  · apply keep hfind h
    · rw [hkeys]
    · intro key hkey
      rw [hkeys] at hkey
      exact .inr (h.set_of_mem hkey)

/-- Any number of changes more. -/
theorem foldl (h : l.Tracks changes) (more : List PropertyChange) :
    (more.foldl (fun l c => c.apply l) l).Tracks (changes ++ more) := by
  induction more generalizing l changes with
  | nil => simpa using h
  | cons c more ih => simpa using ih (h.apply c)

end Tracks

theorem tracks_ofChanges (changes : List PropertyChange) : (ofChanges changes).Tracks changes :=
  tracks_empty.foldl changes

/-! ## The map -/

/-- The list holds the map that replaying the changes gives, and keeps its keys in order of creation. -/
structure Refines (l : PropertyList) (changes : List PropertyChange) : Prop where
  /-- Each key occurs once. -/
  nodup : (l.entries.map (·.key)).Nodup
  /-- What is held under a key depends on the changes of that key only. -/
  entry : ∀ key, l.find? key = replay key (changes.filter (·.key = key))
  /-- A set key is read as its property says. -/
  read_set : ∀ key p, replay key changes = some p →
    l.contains key = true ∧ (∀ default, l.getInt key default = p.int) ∧
      l.getBool key = (p.int != 0) ∧ l.getObject? key = p.object
  /-- An unset key is read as the caller's default. -/
  read_unset : ∀ key, replay key changes = none →
    l.contains key = false ∧ (∀ default, l.getInt key default = default) ∧
      l.getBool key = false ∧ l.getObject? key = none
  length : l.length = (PropertyKey.all.filter fun key => (replay key changes).isSome).length
  /-- Removal returns what was held, and goes on as the other changes do. -/
  remove : ∀ key, l.remove key = (replay key changes, ofChanges (changes ++ [.remove key]))
  /-- The key that was created last stands first. -/
  order : (l.entries.map (·.key)).Pairwise fun a b =>
    ∃ i j, LatestCreation a changes i ∧ LatestCreation b changes j ∧ j < i
  /-- The next change removes its key and keeps the rest in order, or puts a new property at the head, or
  overwrites a property and moves nothing. -/
  next : ∀ c : PropertyChange,
    (c.effect (replay c.key changes) = none ∧ (c.apply l).entries = l.entries.filter (·.key ≠ c.key)) ∨
      (replay c.key changes = none ∧ ∃ p, c.effect none = some p ∧ (c.apply l).entries = p :: l.entries) ∨
      ((replay c.key changes).isSome = true ∧ (c.effect (replay c.key changes)).isSome = true ∧
        (c.apply l).entries.map (·.key) = l.entries.map (·.key))
  sorted : l.sortedKeys.Pairwise fun a b => a.id < b.id
  mem_sorted : ∀ key, key ∈ l.sortedKeys ↔ (replay key changes).isSome = true

theorem sortedKeys_perm (l : PropertyList) : l.sortedKeys.Perm l.keys := List.mergeSort_perm _ _

theorem sortedKeys_strict (h : l.keys.Nodup) : l.sortedKeys.Pairwise fun a b => a.id < b.id := by
  have hle : l.sortedKeys.Pairwise fun a b => decide (a.id ≤ b.id) = true := by
    apply List.pairwise_mergeSort
    · intro a b c hab hbc
      simp only [decide_eq_true_iff] at *
      omega
    · intro a b
      simp only [Bool.or_eq_true, decide_eq_true_iff]
      omega
  have hne : l.sortedKeys.Pairwise (· ≠ ·) := l.sortedKeys_perm.nodup_iff.2 h
  apply (hle.and hne).imp
  intro a b hab
  have hid : a.id ≠ b.id := fun e => hab.2 (PropertyKey.id_injective e)
  have hab := of_decide_eq_true hab.1
  omega

/-- A property list refines the finite map that its changes describe. -/
theorem ofChanges_refines (changes : List PropertyChange) : (ofChanges changes).Refines changes := by
  have h := tracks_ofChanges changes
  constructor
  · exact h.nodup
  · intro key
    rw [h.find?, replay_filter]
  · intro key p hp
    have hfind := (h.find? key).trans hp
    simp [contains, getInt, getBool, getObject?, hfind]
  · intro key hnone
    have hfind := (h.find? key).trans hnone
    simp [contains, getInt, getBool, getObject?, hfind]
  · have hperm : (ofChanges changes).keys.Perm
        (PropertyKey.all.filter fun key => (replay key changes).isSome) := by
      apply (List.perm_ext_iff_of_nodup h.nodup (PropertyKey.nodup_all.filter _)).2
      intro key
      simp [mem_keys_iff, h.find?, PropertyKey.mem_all]
    rw [← hperm.length_eq]
    simp [PropertyList.length, keys]
  · intro key
    rw [PropertyList.remove, h.find?, ofChanges, ofChanges, List.foldl_concat]
    rfl
  · exact h.order
  · intro c
    rw [← h.find?]
    exact apply_cases c _
  · exact sortedKeys_strict h.nodup
  · intro key
    rw [(sortedKeys_perm _).mem_iff, mem_keys_iff, h.find?]

-- the object is dropped with the flag, and the key comes back at the head
example :
    (ofChanges [.putObject .sourceName (.text "x"), .putBool .synthetic true, .putBool .sourceName false,
      .putInt .sourceName 3]).entries = [⟨.sourceName, 3, none⟩, ⟨.synthetic, 1, none⟩] := by decide

end PropertyList

end SyntaxForest
