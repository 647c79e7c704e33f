/-!
# Packed source positions

A position keeps its line and column in one signed 32-bit word: the column in the low twelve bits,
the line in the twenty bits above. Columns past 4095 are clamped and lines past 2^20 - 1 lose their
high bits. The word -1 means that the position is unknown.
-/

namespace SyntaxForest

/-- A line and a column in source text, packed into one word. -/
structure Position where
  packed : Int32
  deriving DecidableEq, Repr

namespace Position

/-- The word of an unknown position. -/
def unknownWord : Int32 := -1

/-- The largest column that a position can hold. -/
def maxColumn : Int := 4095

/-- The word for a line and a column. A negative half gives the unknown word. -/
def encode (line column : Int32) : Int32 :=
  if line < 0 ∨ column < 0 then unknownWord
  else Int32.ofInt (line.toInt * 4096 + min column.toInt maxColumn)

/-- The line in a word: its bits above the column, read as an unsigned number. -/
def decodeLine (packed : Int32) : Int32 :=
  if packed = unknownWord then unknownWord
  else Int32.ofNat (packed.toUInt32.toNat / 4096)

/-- The column in a word: its low twelve bits. -/
def decodeColumn (packed : Int32) : Int32 :=
  if packed = unknownWord then unknownWord
  else Int32.ofNat (packed.toUInt32.toNat % 4096)

/-- The position of which nothing is known. -/
def unknown : Position := ⟨unknownWord⟩

instance : Inhabited Position := ⟨unknown⟩

/-- The position of a line and a column. -/
def ofLineColumn (line column : Int32) : Position := ⟨encode line column⟩

/-- The line, or -1 when unknown. -/
def line (position : Position) : Int32 := decodeLine position.packed

/-- The column, or -1 when unknown. -/
def column (position : Position) : Int32 := decodeColumn position.packed

/-- Whether the position says anything. -/
def isKnown (position : Position) : Bool := position.packed != unknownWord

/-- `line:column`, or a question mark when unknown. -/
def render (position : Position) : String :=
  if position.isKnown then s!"{position.line}:{position.column}" else "?"

instance : ToString Position := ⟨render⟩

end Position

end SyntaxForest
