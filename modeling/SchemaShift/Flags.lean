/-! Entry flags.

Every column, table and schema carries a set of bits. Nine of them have a name
and a meaning here; the others are kept as they come. -/
namespace SchemaShift

/-- A set of bits. -/
structure Flags where
  bits : UInt32
  deriving DecidableEq, Repr, Inhabited

namespace Flags

/-- No bit set. -/
def empty : Flags := ⟨0⟩
/-- The entry belongs to a delta that is not committed. -/
def change : Flags := ⟨1⟩
/-- Instances are stored behind a pointer. -/
def pointer : Flags := ⟨2⟩
/-- The column is part of the primary key. -/
def primary : Flags := ⟨4⟩
/-- The column is unique. -/
def unique : Flags := ⟨8⟩
/-- The column accepts missing values. -/
def nullable : Flags := ⟨16⟩
/-- The entry is a foreign key constraint rather than a plain column. -/
def foreign : Flags := ⟨32⟩
/-- The table is on the stack of the dependency ranking. -/
def checking : Flags := ⟨64⟩
/-- The table keeps a constrained foreign key that is part of a cycle. -/
def constraintCycle : Flags := ⟨128⟩
/-- The table keeps a foreign key that is part of a cycle. -/
def referenceCycle : Flags := ⟨256⟩

/-- The named flags, from the lowest bit up. -/
def named : List (Flags × String) :=
  [(change, "change"), (pointer, "pointer"), (primary, "primary"), (unique, "unique"),
    (nullable, "nullable"), (foreign, "foreign"), (checking, "checking"),
    (constraintCycle, "constraint_cycle"), (referenceCycle, "reference_cycle")]

/-- Every bit of `other` is set. -/
def contains (f other : Flags) : Bool := f.bits &&& other.bits == other.bits

def isEmpty (f : Flags) : Bool := f.bits == 0

/-- Sets the bits of `other`. -/
def insert (f other : Flags) : Flags := ⟨f.bits ||| other.bits⟩

/-- Clears the bits of `other`. -/
def remove (f other : Flags) : Flags := ⟨f.bits &&& ~~~other.bits⟩

/-- Sets or clears the bits of `other`. -/
def assign (f other : Flags) (value : Bool) : Flags :=
  if value then f.insert other else f.remove other

instance : Union Flags := ⟨insert⟩
instance : SDiff Flags := ⟨remove⟩

def isChange (f : Flags) : Bool := f.contains change
def isPrimary (f : Flags) : Bool := f.contains primary
def isChecking (f : Flags) : Bool := f.contains checking
def isReferenceCycle (f : Flags) : Bool := f.contains referenceCycle
def isConstraintCycle (f : Flags) : Bool := f.contains constraintCycle

/-- The flag of that name, whatever the case of its ASCII letters. -/
def ofName? (name : String) : Option Flags :=
  (named.find? fun entry => entry.2 == name.toLower).map Prod.fst

/-- The names of the flags that are set; bits without a name are left out. -/
def names (f : Flags) : List String :=
  (named.filter fun entry => f.contains entry.1).map Prod.snd

/-- The text of a flag set: its names between bars. -/
def describe (f : Flags) : String := "EntryFlags(" ++ " | ".intercalate f.names ++ ")"

end Flags
end SchemaShift
