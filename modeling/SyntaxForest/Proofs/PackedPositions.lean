import SyntaxForest.Position
/-!
# Packing and unpacking positions

A word has two fields, the line in its upper twenty bits and the column in its lower twelve, and is
determined by them. Packing writes a line and a column into the fields, the line without its high bits and the
column clamped; unpacking reads the fields. The word for an unknown position has every bit set, so the last
column of the last line has no word of its own. Nothing else in range is lost: every word is the packing of what
is read from it, and any other pair that fits into the fields comes back. In bits, the fields are written by a
shift and a disjunction, and read by an unsigned shift and a mask.
-/

namespace SyntaxForest

namespace Position

/-- The number of lines that the words tell apart, `2 ^ 20`. -/
def lineCount : Int := 0x100000

/-- The pairs that are packed into the word for an unknown position: a half is negative, or every bit of both
fields is set. -/
def Collapses (line column : Int32) : Prop :=
  line < 0 ∨ column < 0 ∨ (line.toInt % lineCount = lineCount - 1 ∧ maxColumn ≤ column.toInt)

instance (line column : Int32) : Decidable (Collapses line column) := inferInstanceAs (Decidable (_ ∨ _))

/-- The pairs that fit into the fields of a word, without the last column of the last line. -/
structure Representable (line column : Int32) : Prop where
  line_nonneg : 0 ≤ line.toInt
  line_lt : line.toInt < lineCount
  column_nonneg : 0 ≤ column.toInt
  column_le : column.toInt ≤ maxColumn
  not_last : ¬ (line.toInt = lineCount - 1 ∧ column.toInt = maxColumn)

variable {word word' line column : Int32}

/-! ## Fields of a word -/

/-- The bits above the column. -/
def lineField (word : Int32) : Nat := word.toUInt32.toNat / 4096

/-- The bits of the column. -/
def columnField (word : Int32) : Nat := word.toUInt32.toNat % 4096

theorem lineField_lt (word : Int32) : (lineField word : Int) < lineCount := by
  have hword := word.toUInt32.toNat_lt
  unfold lineField lineCount
  omega

theorem columnField_le (word : Int32) : (columnField word : Int) ≤ maxColumn := by
  unfold columnField maxColumn
  omega

theorem eq_of_toNat (h : word.toUInt32.toNat = word'.toUInt32.toNat) : word = word' := by
  rw [← Int32.toNat_toBitVec, ← Int32.toNat_toBitVec] at h
  exact Int32.toBitVec_inj.1 (BitVec.eq_of_toNat_eq h)

theorem eq_iff_fields :
    word = word' ↔ lineField word = lineField word' ∧ columnField word = columnField word' := by
  constructor
  · rintro rfl
    exact ⟨rfl, rfl⟩
  · rintro ⟨hline, hcolumn⟩
    unfold lineField at hline
    unfold columnField at hcolumn
    exact eq_of_toNat (by omega)

/-- A number is read as unsigned modulo the number of words. -/
theorem toNat_ofInt (n : Int) : ((Int32.ofInt n).toUInt32.toNat : Int) = n % 0x100000000 := by
  rw [← Int32.toNat_toBitVec, Int32.toBitVec_ofInt, BitVec.toNat_ofInt]
  omega

theorem toNat_eq (word : Int32) : (word.toUInt32.toNat : Int) = word.toInt % 0x100000000 := by
  rw [← toNat_ofInt, Int32.ofInt_toInt]

/-- The word for an unknown position is the one with every bit set. -/
theorem eq_unknownWord_iff :
    word = unknownWord ↔ (lineField word : Int) = lineCount - 1 ∧ (columnField word : Int) = maxColumn := by
  have hfields : lineField unknownWord = 0xFFFFF ∧ columnField unknownWord = 4095 := by decide
  rw [eq_iff_fields, hfields.1, hfields.2]
  unfold lineCount maxColumn
  omega

/-! ## Packing writes the fields -/

theorem encode_of_neg (h : line < 0 ∨ column < 0) : encode line column = unknownWord := if_pos h

theorem encode_fields (hline : ¬ line < 0) (hcolumn : ¬ column < 0) :
    (lineField (encode line column) : Int) = line.toInt % lineCount ∧
      (columnField (encode line column) : Int) = min column.toInt maxColumn := by
  have hword : encode line column = Int32.ofInt (line.toInt * 4096 + min column.toInt maxColumn) :=
    if_neg (not_or.2 ⟨hline, hcolumn⟩)
  have hnat := toNat_ofInt (line.toInt * 4096 + min column.toInt maxColumn)
  have hnonneg : 0 ≤ column.toInt := Int32.le_iff_toInt_le.1 (Int32.not_lt.1 hcolumn)
  rw [← hword] at hnat
  -- the clamped column is below 4096, so what the word loses is lost by the line alone
  unfold lineField columnField
  unfold maxColumn lineCount at *
  omega

/-! ## Unpacking reads the fields -/

/-- What reading a half of a word gives: the field of a known word as it is, and of the unknown word no field. -/
structure Reads (decode : Int32 → Int32) (field : Int32 → Nat) : Prop where
  unknown : decode unknownWord = unknownWord
  known : ∀ {word}, word ≠ unknownWord → (decode word).toInt = field word

namespace Reads

variable {decode : Int32 → Int32} {field : Int32 → Nat}

theorem not_neg (h : Reads decode field) (hword : word ≠ unknownWord) : ¬ decode word < 0 := by
  intro hneg
  have hneg : (decode word).toInt < 0 := Int32.lt_iff_toInt_lt.1 hneg
  rw [h.known hword] at hneg
  omega

theorem eq_unknownWord_iff (h : Reads decode field) : decode word = unknownWord ↔ word = unknownWord := by
  constructor
  · intro hdecode
    -- a field is never negative, so a known word does not read as -1
    refine Decidable.byContradiction fun hword => h.not_neg hword ?_
    rw [hdecode]
    decide
  · rintro rfl
    exact h.unknown

end Reads

theorem decodeLine_of_known (h : word ≠ unknownWord) : decodeLine word = Int32.ofNat (lineField word) := if_neg h

theorem decodeColumn_of_known (h : word ≠ unknownWord) : decodeColumn word = Int32.ofNat (columnField word) :=
  if_neg h

theorem reads_decodeLine : Reads decodeLine lineField where
  unknown := if_pos rfl
  known {word} hword := by
    have hlt := lineField_lt word
    unfold lineCount at hlt
    rw [decodeLine_of_known hword, Int32.toInt_ofNat_of_lt (by omega)]

theorem reads_decodeColumn : Reads decodeColumn columnField where
  unknown := if_pos rfl
  known {word} hword := by
    have hle := columnField_le word
    unfold maxColumn at hle
    rw [decodeColumn_of_known hword, Int32.toInt_ofNat_of_lt (by omega)]

/-! ## Packing after unpacking, and unpacking after packing -/

theorem encode_decode (word : Int32) : encode (decodeLine word) (decodeColumn word) = word := by
  by_cases hword : word = unknownWord
  · subst hword
    rw [reads_decodeLine.unknown]
    exact encode_of_neg (.inl (by decide))
  · obtain ⟨hline, hcolumn⟩ :=
      encode_fields (reads_decodeLine.not_neg hword) (reads_decodeColumn.not_neg hword)
    rw [reads_decodeLine.known hword, Int.emod_eq_of_lt (Int.natCast_nonneg _) (lineField_lt word)] at hline
    rw [reads_decodeColumn.known hword, Int.min_eq_left (columnField_le word)] at hcolumn
    exact eq_iff_fields.2 ⟨Int.ofNat.inj hline, Int.ofNat.inj hcolumn⟩

theorem encode_eq_unknownWord_iff : encode line column = unknownWord ↔ Collapses line column := by
  unfold Collapses
  by_cases hline : line < 0
  · simp [hline, encode_of_neg]
  by_cases hcolumn : column < 0
  · simp [hcolumn, encode_of_neg]
  obtain ⟨hline', hcolumn'⟩ := encode_fields hline hcolumn
  rw [eq_unknownWord_iff, hline', hcolumn']
  simp only [hline, hcolumn, false_or]
  omega

theorem decode_encode (h : ¬ Collapses line column) :
    (decodeLine (encode line column)).toInt = line.toInt % lineCount ∧
      (decodeColumn (encode line column)).toInt = min column.toInt maxColumn := by
  have hknown : encode line column ≠ unknownWord := mt encode_eq_unknownWord_iff.1 h
  rw [reads_decodeLine.known hknown, reads_decodeColumn.known hknown]
  exact encode_fields (fun hline => h (.inl hline)) (fun hcolumn => h (.inr (.inl hcolumn)))

namespace Representable

theorem not_collapses (h : Representable line column) : ¬ Collapses line column := by
  rintro (hline | hcolumn | ⟨hline, hcolumn⟩)
  · exact Int.not_lt.2 h.line_nonneg (Int32.lt_iff_toInt_lt.1 hline)
  · exact Int.not_lt.2 h.column_nonneg (Int32.lt_iff_toInt_lt.1 hcolumn)
  · rw [Int.emod_eq_of_lt h.line_nonneg h.line_lt] at hline
    exact h.not_last ⟨hline, Int.le_antisymm h.column_le hcolumn⟩

/-- A line in range keeps all its bits and a column in range is not clamped. -/
theorem inverts (h : Representable line column) :
    decodeLine (encode line column) = line ∧ decodeColumn (encode line column) = column := by
  obtain ⟨hline, hcolumn⟩ := decode_encode h.not_collapses
  rw [Int.emod_eq_of_lt h.line_nonneg h.line_lt] at hline
  rw [Int.min_eq_left h.column_le] at hcolumn
  exact ⟨Int32.toInt_inj.1 hline, Int32.toInt_inj.1 hcolumn⟩

theorem injective {line' column' : Int32} (h : Representable line column) (h' : Representable line' column')
    (heq : encode line column = encode line' column') : line = line' ∧ column = column' := by
  obtain ⟨hline, hcolumn⟩ := h.inverts
  obtain ⟨hline', hcolumn'⟩ := h'.inverts
  rw [heq] at hline hcolumn
  exact ⟨hline.symm.trans hline', hcolumn.symm.trans hcolumn'⟩

end Representable

/-! ## The packing in shifts and masks -/

theorem toNat_shiftLeft (word : Int32) :
    (word <<< 12).toUInt32.toNat = word.toUInt32.toNat * 4096 % 0x100000000 := by
  rw [← Int32.toNat_toBitVec, Int32.toBitVec_shiftLeft, ← Int32.toNat_toBitVec]
  show (word.toBitVec <<< 12).toNat = _
  rw [BitVec.toNat_shiftLeft, Nat.shiftLeft_eq]

theorem toNat_or (word word' : Int32) :
    (word ||| word').toUInt32.toNat = word.toUInt32.toNat ||| word'.toUInt32.toNat := by
  rw [← Int32.toNat_toBitVec, Int32.toBitVec_or, BitVec.toNat_or, Int32.toNat_toBitVec, Int32.toNat_toBitVec]

theorem fields_side_by_side (word : Int32) :
    lineField word <<< 12 ||| columnField word = word.toUInt32.toNat := by
  have hlt : columnField word < 4096 := Nat.mod_lt _ (by decide)
  rw [← Nat.shiftLeft_add_eq_or_of_lt (i := 12) hlt, Nat.shiftLeft_eq]
  exact Nat.div_add_mod' _ 4096

theorem toInt_min (column : Int32) : (min column 4095).toInt = min column.toInt maxColumn := by
  show (if column ≤ 4095 then column else 4095).toInt = _
  have hiff : column ≤ 4095 ↔ column.toInt ≤ maxColumn := Int32.le_iff_toInt_le
  split
  case isTrue hle => exact (Int.min_eq_left (hiff.1 hle)).symm
  case isFalse hlt =>
    rw [hiff] at hlt
    rw [Int.min_eq_right (by omega)]
    rfl

/-- The line is shifted past the column, which drops its high bits, and the column fills the gap. -/
theorem encode_eq_shiftLeft (hline : ¬ line < 0) (hcolumn : ¬ column < 0) :
    encode line column = line <<< 12 ||| min column 4095 := by
  obtain ⟨hline', hcolumn'⟩ := encode_fields hline hcolumn
  have hshifted : (line <<< 12).toUInt32.toNat = lineField (encode line column) <<< 12 := by
    have hnat := toNat_eq line
    rw [toNat_shiftLeft, Nat.shiftLeft_eq]
    unfold lineCount at hline'
    omega
  have hclamped : (min column 4095).toUInt32.toNat = columnField (encode line column) := by
    have hnat := toNat_eq (min column 4095)
    have hle := columnField_le (encode line column)
    rw [toInt_min, ← hcolumn'] at hnat
    unfold maxColumn at hle
    omega
  apply eq_of_toNat
  rw [toNat_or, hshifted, hclamped, fields_side_by_side]

/-- The line is shifted down as an unsigned number, so its own top bit is no sign. -/
theorem decodeLine_eq_shiftRight (hword : word ≠ unknownWord) :
    decodeLine word = (word.toUInt32 >>> 12).toInt32 := by
  have hshifted : lineField word = (word.toUInt32 >>> 12).toNat := by
    rw [UInt32.toNat_shiftRight]
    exact (Nat.shiftRight_eq_div_pow _ 12).symm
  rw [decodeLine_of_known hword, hshifted, ← UInt32.toInt32_ofNat', UInt32.ofNat_toNat]

theorem decodeColumn_eq_and (hword : word ≠ unknownWord) : decodeColumn word = word &&& 4095 := by
  have hmasked : columnField word = (word &&& 4095).toBitVec.toNat := by
    rw [Int32.toBitVec_and, BitVec.toNat_and]
    exact (Nat.and_two_pow_sub_one_eq_mod _ 12).symm
  rw [decodeColumn_of_known hword, hmasked, Int32.ofNat_bitVecToNat, Int32.ofBitVec_toBitVec]

/-! ## Exactness -/

/-- Packing and unpacking lose no more than the fields do. Every word is packed again from its two halves. A pair
gets the word of an unknown position exactly when it collapses; any other pair comes back with its line modulo
the number of lines and its column clamped. So packing is injective on the representable pairs, and unpacking
inverts it there. A half reads as -1 in the word of an unknown position only. -/
theorem codec_exact :
    (∀ word, encode (decodeLine word) (decodeColumn word) = word) ∧
    (∀ line column, encode line column = unknownWord ↔ Collapses line column) ∧
    (∀ line column, ¬ Collapses line column →
      (decodeLine (encode line column)).toInt = line.toInt % lineCount ∧
        (decodeColumn (encode line column)).toInt = min column.toInt maxColumn) ∧
    (∀ line column line' column', Representable line column → Representable line' column' →
      encode line column = encode line' column' → line = line' ∧ column = column') ∧
    (∀ line column, Representable line column →
      decodeLine (encode line column) = line ∧ decodeColumn (encode line column) = column) ∧
    (∀ word, (decodeLine word = unknownWord ↔ decodeColumn word = unknownWord) ∧
      (decodeColumn word = unknownWord ↔ word = unknownWord)) := by
  refine ⟨encode_decode, fun _ _ => encode_eq_unknownWord_iff, fun _ _ => decode_encode,
    fun _ _ _ _ => Representable.injective, fun _ _ => Representable.inverts, fun word => ⟨?_, ?_⟩⟩
  · rw [reads_decodeLine.eq_unknownWord_iff, reads_decodeColumn.eq_unknownWord_iff]
  · exact reads_decodeColumn.eq_unknownWord_iff

-- the greatest line loses its high bits, and the other two pairs set the sign bit of their words
theorem codec_exact_at_limits :
    (¬ Collapses 0x7FFFFFFF 4094 ∧
      (decodeLine (encode 0x7FFFFFFF 4094)).toInt = Int32.toInt 0x7FFFFFFF % lineCount ∧
        (decodeColumn (encode 0x7FFFFFFF 4094)).toInt = min (Int32.toInt 4094) maxColumn) ∧
    (Representable 0xFFFFF 4094 ∧ decodeLine (encode 0xFFFFF 4094) = 0xFFFFF ∧
      decodeColumn (encode 0xFFFFF 4094) = 4094) ∧
    (Representable 0x80003 4095 ∧ encode 0x80003 4095 ≠ encode 0xFFFFF 4094) := by
  have hgreatest : ¬ Collapses 0x7FFFFFFF 4094 := by decide
  have hlast : Representable 0xFFFFF 4094 := ⟨by decide, by decide, by decide, by decide, by decide⟩
  have hhigh : Representable 0x80003 4095 := ⟨by decide, by decide, by decide, by decide, by decide⟩
  obtain ⟨-, -, hdecode, hinjective, hinverts, -⟩ := codec_exact
  refine ⟨⟨hgreatest, hdecode _ _ hgreatest⟩, ⟨hlast, hinverts _ _ hlast⟩, hhigh, fun heq => ?_⟩
  exact absurd (hinjective _ _ _ _ hhigh hlast heq).1 (by decide)

-- a line past the range and a column past the range collapse as the last column of the last line does
example : encode 0xFFFFF 4095 = -1 ∧ encode 0x1FFFFF 5000 = -1 ∧ encode 0x1FFFFE 5000 = encode 0xFFFFE 4095 := by
  decide

end Position

end SyntaxForest
