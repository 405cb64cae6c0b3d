import SchemaShift.Flags

/-! The contract that tables in a schema and columns in a table share.

An entry has a current name and may have an old one. Which of the two it has,
and whether it carries the change flag, decides what it stands for in a log of
pending changes: a new entry, the new body of an entry, a drop or a rename. -/
namespace SchemaShift

/-- What an entry asks for when its log is folded into a base. -/
inductive Change where
  /-- A new entry. -/
  | add
  /-- A new body for the entry of that name. -/
  | alter
  /-- The entry of the old name goes. -/
  | drop
  /-- The entry of the old name takes the new one. -/
  | rename
  deriving DecidableEq, Repr

namespace Change

/-- The word for a kind of change. -/
def describe : Change → String
  | add => "Add"
  | alter => "Alter"
  | drop => "Drop"
  | rename => "Rename"

end Change

/-- A named thing that can also stand for a pending change. -/
class Entry (ε : Type) where
  /-- The current name; a pending drop has none. -/
  name : ε → Option String
  /-- The name before a pending drop or rename. -/
  oldName : ε → Option String
  flags : ε → Flags
  withName : ε → Option String → ε

namespace Entry

variable {ε : Type} [Entry ε]

/-- The change that an entry stands for; one without any name stands for none. -/
def change? (e : ε) : Option Change :=
  match name e, oldName e with
  | some _, old =>
    if (flags e).isChange then some .alter
    else if old.isSome then some .rename
    else some .add
  | none, some _ => some .drop
  | none, none => none

/-- Placeholders are the log's own entries: whatever has an old name. -/
def isPlaceholder (e : ε) : Bool := (oldName e).isSome

/-- What is not a placeholder is live. -/
def isLive (e : ε) : Bool := !isPlaceholder e

/-- The name to show: the current one, else the old one, else nothing. -/
def displayName (e : ε) : String := ((name e).or (oldName e)).getD ""

/-- Names in order: unnamed entries first, then by code points. -/
def nameLe : Option String → Option String → Bool
  | none, _ => true
  | some _, none => false
  | some a, some b => decide (a ≤ b)

/-- Names in strict order. -/
def nameLt (a b : Option String) : Bool := !nameLe b a

end Entry
end SchemaShift
