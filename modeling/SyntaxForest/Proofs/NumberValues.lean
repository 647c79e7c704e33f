import SyntaxForest.Equality
/-!
# Values of numbers

What a pattern of bits stands for, and that equality of numbers is equality of what they stand for. A finite
pattern stands for its sign, significand and exponent. Different patterns stand for different numbers, but for the
two zeros: a significand is as large as it can be unless the exponent is the least one, so it cannot be
traded for the exponent. A NaN stands for no number, and is equal to nothing.
-/

namespace SyntaxForest

namespace Double

/-- A number or an infinity. Every finite number is a multiple of the least positive one, `2 ^ -1074`. -/
inductive Value
  | finite (multiple : Int)
  | infinite (negative : Bool)
  deriving DecidableEq, Repr

/-- The power of two by which a significand is multiplied, if the unit is `2 ^ -1074`. -/
def shift (x : Double) : Nat := (x.significand.2 + 1074).toNat

/-- The magnitude of a finite number, as a multiple of `2 ^ -1074`. -/
def multiple (x : Double) : Nat := x.significand.1 <<< x.shift

/-- What a pattern stands for that is not NaN. -/
def value (x : Double) : Value :=
  if x.isInfinite then .infinite x.isNegative
  else .finite (if x.isNegative then -(x.multiple : Int) else x.multiple)

/-- What a pattern stands for, if it stands for anything. -/
def value? (x : Double) : Option Value := if x.isNaN then none else some x.value

variable {x y : Double}

/-! ## Fields of a pattern -/

/-- The sign, the exponent bits and the fraction bits make up the pattern. -/
theorem eq_of_fields (hsign : x.isNegative = y.isNegative) (hexponent : x.exponentBits = y.exponentBits)
    (hfraction : x.fractionBits = y.fractionBits) : x = y := by
  have hx := x.bits.toNat_lt
  have hy := y.bits.toNat_lt
  have hsign : signUnit ≤ x.bits.toNat ↔ signUnit ≤ y.bits.toNat := decide_eq_decide.1 hsign
  simp only [exponentBits, fractionBits, signUnit, exponentUnit] at hsign hexponent hfraction
  have hbits : x.bits.toNat = y.bits.toNat := by omega
  cases x
  cases y
  exact congrArg mk (UInt64.toNat_inj.1 hbits)

theorem isZero_iff : x.isZero = true ↔ x.exponentBits = 0 ∧ x.fractionBits = 0 := by
  have hx := x.bits.toNat_lt
  simp only [isZero, magnitudeBits, exponentBits, fractionBits, signUnit, exponentUnit, beq_iff_eq]
  omega

/-! ## Significands -/

/-- Neither of two equal magnitudes has the larger exponent, if a significand below half of the bound comes
with the least exponent only. -/
theorem significand_unique {m n j k bound : Nat} (hm : m < 2 * bound) (hn : n < 2 * bound)
    (hj : j = 0 ∨ bound ≤ m) (hk : k = 0 ∨ bound ≤ n) (h : m <<< j = n <<< k) : m = n ∧ j = k := by
  induction j generalizing k with
  | zero =>
    cases k with
    | zero => exact ⟨h, rfl⟩
    | succ k =>
      have hle : n ≤ n <<< k := Nat.le_shiftLeft
      rw [Nat.shiftLeft_zero, Nat.shiftLeft_succ] at h
      omega
  | succ j ih =>
    cases k with
    | zero =>
      have hle : m ≤ m <<< j := Nat.le_shiftLeft
      rw [Nat.shiftLeft_zero, Nat.shiftLeft_succ] at h
      omega
    | succ k =>
      rw [Nat.shiftLeft_succ, Nat.shiftLeft_succ] at h
      obtain ⟨hmn, hjk⟩ := ih (k := k) (by omega) (by omega) (by omega)
      exact ⟨hmn, by omega⟩

/-- A significand and its power of two are in range, and give back the fields that they were made of. -/
theorem significand_spec (x : Double) :
    x.significand.1 < 2 * exponentUnit ∧ (x.shift = 0 ∨ exponentUnit ≤ x.significand.1) ∧
      x.exponentBits = (if x.significand.1 < exponentUnit then 0 else x.shift + 1) ∧
      x.fractionBits = x.significand.1 % exponentUnit := by
  have hfraction : x.fractionBits < exponentUnit := Nat.mod_lt _ (by decide)
  unfold shift significand
  by_cases hzero : x.exponentBits = 0
  · simp only [hzero, if_true]
    refine ⟨by omega, .inl rfl, ?_, (Nat.mod_eq_of_lt hfraction).symm⟩
    rw [if_pos hfraction]
  · simp only [hzero, if_false]
    refine ⟨by omega, .inr (by omega), ?_, ?_⟩
    · rw [if_neg (by omega)]
      omega
    · rw [Nat.add_mod_left, Nat.mod_eq_of_lt hfraction]

/-- Equal magnitudes have the same exponent bits and the same fraction bits. -/
theorem multiple_inj (h : x.multiple = y.multiple) :
    x.exponentBits = y.exponentBits ∧ x.fractionBits = y.fractionBits := by
  obtain ⟨hmx, hnx, hexponent, hfraction⟩ := x.significand_spec
  obtain ⟨hmy, hny, hexponent', hfraction'⟩ := y.significand_spec
  obtain ⟨hsignificand, hshift⟩ := significand_unique hmx hmy hnx hny h
  rw [hexponent, hfraction, hexponent', hfraction', hsignificand, hshift]
  exact ⟨rfl, rfl⟩

theorem multiple_eq_zero_iff : x.multiple = 0 ↔ x.isZero = true := by
  have hzero : ∀ {z : Double}, z.isZero = true → z.multiple = 0 := by
    intro z hz
    obtain ⟨hexponent, hfraction⟩ := isZero_iff.1 hz
    simp [multiple, significand, hexponent, hfraction]
  constructor
  · intro h
    -- the pattern without a set bit has the same magnitude
    have hnone : (mk 0).multiple = 0 := hzero rfl
    exact isZero_iff.2 (multiple_inj (h.trans hnone.symm))
  · exact hzero

/-! ## Equality of values -/

theorem isInfinite_of_isZero (h : x.isZero = true) : x.isInfinite = false := by
  simp [isInfinite, (isZero_iff.1 h).1]

theorem eq_of_isInfinite (hx : x.isInfinite = true) (hy : y.isInfinite = true)
    (hsign : x.isNegative = y.isNegative) : x = y := by
  simp only [isInfinite, Bool.and_eq_true, beq_iff_eq] at hx hy
  refine eq_of_fields hsign ?_ ?_
  · rw [hx.1, hy.1]
  · rw [hx.2, hy.2]

theorem eq_or_isZero_of_multiple
    (h : (if x.isNegative then -(x.multiple : Int) else x.multiple) =
      if y.isNegative then -(y.multiple : Int) else y.multiple) :
    x = y ∨ x.isZero = true ∧ y.isZero = true := by
  by_cases hsign : x.isNegative = y.isNegative
  · have hmultiple : x.multiple = y.multiple := by
      rw [hsign] at h
      split at h <;> omega
    obtain ⟨hexponent, hfraction⟩ := multiple_inj hmultiple
    exact .inl (eq_of_fields hsign hexponent hfraction)
  · -- a number that is its own opposite is zero
    have hmultiple : x.multiple = 0 ∧ y.multiple = 0 := by
      by_cases hx : x.isNegative = true <;> by_cases hy : y.isNegative = true
      · exact absurd (hx.trans hy.symm) hsign
      · rw [if_pos hx, if_neg hy] at h
        omega
      · rw [if_neg hx, if_pos hy] at h
        omega
      · rw [Bool.not_eq_true] at hx hy
        exact absurd (hx.trans hy.symm) hsign
    exact .inr ⟨multiple_eq_zero_iff.1 hmultiple.1, multiple_eq_zero_iff.1 hmultiple.2⟩

/-- Patterns that stand for the same are equal or are both zero. -/
theorem eq_or_isZero_of_value (h : x.value = y.value) : x = y ∨ x.isZero = true ∧ y.isZero = true := by
  unfold value at h
  by_cases hx : x.isInfinite = true <;> by_cases hy : y.isInfinite = true
  · rw [if_pos hx, if_pos hy] at h
    exact .inl (eq_of_isInfinite hx hy (Value.infinite.inj h))
  · rw [if_pos hx, if_neg hy] at h
    cases h
  · rw [if_neg hx, if_pos hy] at h
    cases h
  · rw [if_neg hx, if_neg hy] at h
    exact eq_or_isZero_of_multiple (Value.finite.inj h)

theorem value_of_isZero (h : x.isZero = true) : x.value = .finite 0 := by
  simp [value, isInfinite_of_isZero h, multiple_eq_zero_iff.2 h]

/-- Numbers are equal when both stand for the same. -/
theorem equal_iff_value : x.equal y = true ↔ ∃ v, x.value? = some v ∧ y.value? = some v := by
  have hvalue : ∀ (z : Double) (v : Value), z.value? = some v ↔ z.isNaN = false ∧ z.value = v := by
    intro z v
    cases hz : z.isNaN <;> simp [value?, hz]
  simp only [equal_iff, hvalue]
  constructor
  · rintro ⟨hx, hy, rfl | ⟨hzero, hzero'⟩⟩
    · exact ⟨x.value, ⟨hx, rfl⟩, hx, rfl⟩
    · exact ⟨.finite 0, ⟨hx, value_of_isZero hzero⟩, hy, value_of_isZero hzero'⟩
  · rintro ⟨v, ⟨hx, rfl⟩, hy, hxy⟩
    exact ⟨hx, hy, eq_or_isZero_of_value hxy.symm⟩

-- one, minus one half, and the least positive number
example :
    (mk 0x3FF0000000000000).value? = some (.finite (1 <<< 1074)) ∧
      (mk 0xBFE0000000000000).value? = some (.finite (-(1 <<< 1073))) ∧
      (mk 1).value? = some (.finite 1) := by decide +kernel

end Double

end SyntaxForest
