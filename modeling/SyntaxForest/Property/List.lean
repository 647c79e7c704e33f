import SyntaxForest.NodeId
import SyntaxForest.Property.Key
/-!
# Property lists

The sparse table of a node's properties. A property has an integer half and an object half; each key
occurs at most once. A new key goes to the head of the list, overwriting moves nothing, and removal
keeps the order of the rest.
-/

namespace SyntaxForest

/-- The object half of a property: a text, a node, or a value of some other owner known by a tag. -/
inductive PropertyObject
  | text (value : String)
  | node (id : NodeId)
  | external (tag : Int)
  deriving DecidableEq, Repr

/-- One property. -/
structure Property where
  key : PropertyKey
  int : Int
  object : Option PropertyObject
  deriving DecidableEq, Repr

/-- The properties of one node. -/
structure PropertyList where
  entries : List Property := []
  deriving DecidableEq, Repr

namespace PropertyList

/-- The list without properties. -/
def empty : PropertyList := ⟨[]⟩

instance : Inhabited PropertyList := ⟨empty⟩

/-- How many keys are set. -/
def length (l : PropertyList) : Nat := l.entries.length

/-- Whether no key is set. -/
def isEmpty (l : PropertyList) : Bool := l.entries.isEmpty

/-- The property under a key. -/
def find? (l : PropertyList) (key : PropertyKey) : Option Property :=
  l.entries.find? (·.key = key)

/-- Whether a key is set. -/
def contains (l : PropertyList) (key : PropertyKey) : Bool := (l.find? key).isSome

/-- Changes the property under a key. An unset key is first created at the head, with zero and no
object. -/
def update (l : PropertyList) (key : PropertyKey) (change : Property → Property) : PropertyList :=
  if l.contains key then ⟨l.entries.map fun e => if e.key = key then change e else e⟩
  else ⟨change ⟨key, 0, none⟩ :: l.entries⟩

/-- Sets the integer half and keeps the object. -/
def putInt (l : PropertyList) (key : PropertyKey) (value : Int) : PropertyList :=
  l.update key fun e => { e with int := value }

/-- Sets the object half and keeps the integer. -/
def putObject (l : PropertyList) (key : PropertyKey) (value : PropertyObject) : PropertyList :=
  l.update key fun e => { e with object := some value }

/-- Unsets a key. -/
def erase (l : PropertyList) (key : PropertyKey) : PropertyList :=
  ⟨l.entries.filter (·.key ≠ key)⟩

/-- Unsets a key and returns the property it had. -/
def remove (l : PropertyList) (key : PropertyKey) : Option Property × PropertyList :=
  (l.find? key, l.erase key)

/-- A set flag is the integer one; a cleared flag is an unset key. -/
def putBool (l : PropertyList) (key : PropertyKey) (value : Bool) : PropertyList :=
  if value then l.putInt key 1 else l.erase key

/-- The integer under a key, or `default` when the key is unset. -/
def getInt (l : PropertyList) (key : PropertyKey) (default : Int) : Int :=
  match l.find? key with
  | some e => e.int
  | none => default

/-- Whether the integer under a key is other than zero. -/
def getBool (l : PropertyList) (key : PropertyKey) : Bool := l.getInt key 0 != 0

/-- The object under a key. -/
def getObject? (l : PropertyList) (key : PropertyKey) : Option PropertyObject :=
  (l.find? key).bind (·.object)

/-- The set keys by ascending number. -/
def sortedKeys (l : PropertyList) : List PropertyKey :=
  (l.entries.map (·.key)).mergeSort fun a b => decide (a.id ≤ b.id)

/-- Whether two lists hold the same properties, in whatever order: as many, and each one of the first
also in the second. -/
def same (a b : PropertyList) : Bool :=
  a.length == b.length && a.entries.all fun e => b.find? e.key == some e

end PropertyList

end SyntaxForest
