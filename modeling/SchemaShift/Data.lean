/-! Plain data.

What a settings or column document holds, whatever its notation: texts, whole
numbers, truth values, lists and records. Readers of a notation produce it, and
the decoders of the library read it. -/
namespace SchemaShift

/-- A piece of plain data. -/
inductive Data where
  | null
  | bool (value : Bool)
  | int (value : Int)
  | text (value : String)
  | list (items : List Data)
  | record (fields : List (String × Data))
  /-- What no decoder takes: a number with a fraction, a date. -/
  | other
  deriving Repr, BEq, Inhabited

namespace Data

/-- A number below `bound` and not below zero. -/
def natBelow? (bound : Nat) : Data → Option Nat
  | int (.ofNat n) => if n < bound then some n else none
  | _ => none

def word32Of? (d : Data) : Option UInt32 := (d.natBelow? UInt32.size).map Nat.toUInt32

def word64Of? (d : Data) : Option UInt64 := (d.natBelow? UInt64.size).map Nat.toUInt64

def boolOf? : Data → Option Bool
  | bool value => some value
  | _ => none

def textOf? : Data → Option String
  | text value => some value
  | _ => none

/-- The items of a list of texts. -/
def textsOf? : Data → Option (List String)
  | list items => items.mapM textOf?
  | _ => none

/-- A value that may be absent or null. -/
def optional? {α : Type} (decode : Data → Option α) : Option Data → Option (Option α)
  | none => some none
  | some null => some none
  | some d => (decode d).map some

/-- A value that may be absent, and has a default then. -/
def defaulted? {α : Type} (decode : Data → Option α) (default : α) : Option Data → Option α
  | none => some default
  | some d => decode d

/-- Null for nothing. -/
def ofOption {α : Type} (encode : α → Data) : Option α → Data
  | none => null
  | some a => encode a

def ofWord32 (n : UInt32) : Data := int n.toNat

def ofWord64 (n : UInt64) : Data := int n.toNat

def ofTexts (texts : List String) : Data := list (texts.map text)

/-- No field of these names is given twice. -/
def isSingle (names : List String) (fields : List (String × Data)) : Bool :=
  names.all fun name => (fields.map Prod.fst).count name ≤ 1

/-- The values of the named fields: of a record by name, each given once at most and other
fields being ignored, and of a list by position, which has exactly one item for each field. -/
def fields? (names : List String) : Data → Option (List (Option Data))
  | record fields => if isSingle names fields then some (names.map fun name => fields.lookup name) else none
  | list items => if items.length = names.length then some (items.map some) else none
  | _ => none

/-- Which lists stand for a record. -/
structure ListForm where
  /-- A list with more items than fields is refused. -/
  bounded : Bool
  deriving DecidableEq, Repr

/-- The values of the named fields: of a record without any other field, or of a
list by position, where fields may be missing at the end. -/
def closedFields? (form : ListForm) (names : List String) : Data → Option (List (Option Data))
  | record fields =>
    if fields.all fun field => names.contains field.1 then fields? names (record fields) else none
  | list items =>
    if form.bounded && items.length > names.length then none
    else some ((List.range names.length).map fun i => items[i]?)
  | _ => none

end Data
end SchemaShift
