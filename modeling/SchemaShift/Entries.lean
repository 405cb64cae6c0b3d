import SchemaShift.Entry
import SchemaShift.StableSort

/-! Ordered collections of entries.

A slot holds an entry that is either shared, and then read-only, or owned.
`Entries` is a list of slots with a mark that says whether it is sorted by name:
every operation that may touch a name clears the mark, removals keep it. Look-up
takes the first entry of a name, by halving while the mark is set and by a scan
from the front otherwise. -/
namespace SchemaShift

/-- A shared entry is read-only; an owned one belongs to its container. -/
inductive Slot (ε : Type) where
  | shared (value : ε)
  | owned (value : ε)
  deriving DecidableEq, Repr

namespace Slot

variable {ε : Type}

def value : Slot ε → ε
  | shared e => e
  | owned e => e

def isOwned : Slot ε → Bool
  | shared _ => false
  | owned _ => true

/-- Changes an owned entry; a shared one refuses. -/
def modify? (f : ε → ε) : Slot ε → Option (Slot ε)
  | shared _ => none
  | owned e => some (owned (f e))

/-- Changes the entry in an owned copy. -/
def modify (f : ε → ε) (s : Slot ε) : Slot ε := owned (f s.value)

/-- The entry, if it may be changed in place. -/
def owned? : Slot ε → Option ε
  | shared _ => none
  | owned e => some e

@[simp] theorem value_modify (f : ε → ε) (s : Slot ε) : (s.modify f).value = f s.value := rfl

@[simp] theorem isOwned_modify (f : ε → ε) (s : Slot ε) : (s.modify f).isOwned = true := rfl

end Slot

/-- Entries of a type, in order. -/
structure Entries (ε : Type) where
  /-- The type that the entries describe. -/
  typeName : String := ""
  /-- The size of an instance of that type. -/
  size : Nat := 0
  slots : List (Slot ε) := []
  /-- The slots are sorted by name. -/
  sorted : Bool := false
  deriving DecidableEq, Repr

namespace Entries

variable {ε : Type}

/-- No entry yet, for the type of that name. -/
def ofType (typeName : String) (size : Nat) : Entries ε := { typeName, size }

def length (es : Entries ε) : Nat := es.slots.length

def isEmpty (es : Entries ε) : Bool := es.slots.isEmpty

/-- The entries themselves, shared or not. -/
def values (es : Entries ε) : List ε := es.slots.map Slot.value

def get? (es : Entries ε) (i : Nat) : Option ε := es.slots[i]?.map Slot.value

/-- Appends a slot. -/
def insert (es : Entries ε) (s : Slot ε) : Entries ε :=
  { es with slots := es.slots ++ [s], sorted := false }

/-- Appends an owned entry. -/
def push (es : Entries ε) (e : ε) : Entries ε := es.insert (.owned e)

/-- Changes the owned entry at `i`; refused for a shared one and outside the list. -/
def modify? (es : Entries ε) (i : Nat) (f : ε → ε) : Option (Entries ε) :=
  (es.slots[i]?.bind (Slot.modify? f)).map fun s =>
    { es with slots := es.slots.set i s, sorted := false }

/-- Changes the entry at `i` in an owned copy; nothing happens outside the list. -/
def modify (es : Entries ε) (i : Nat) (f : ε → ε) : Entries ε :=
  match es.slots[i]? with
  | some s => { es with slots := es.slots.set i (s.modify f), sorted := false }
  | none => es

/-- Changes every entry in an owned copy. -/
def modifyAll (es : Entries ε) (f : ε → ε) : Entries ε :=
  { es with slots := es.slots.map (Slot.modify f), sorted := es.sorted && es.isEmpty }

/-- Takes `count` slots out from `start` on, as far as there are any. -/
def steal (es : Entries ε) (start count : Nat) : List (Slot ε) × Entries ε :=
  ((es.slots.drop start).take count,
    { es with slots := es.slots.take start ++ es.slots.drop (start + count) })

section Named
variable [Entry ε]

/-- Sorts by name; unnamed entries come first. -/
def sort (es : Entries ε) : Entries ε :=
  { es with
    slots := stableSort (fun a b => Entry.nameLe (Entry.name a.value) (Entry.name b.value)) es.slots
    sorted := true }

/-- The first index from `lo` to `hi` where `p` fails, for a `p` that does not
hold again once it failed. -/
def bisect (p : Nat → Bool) (lo hi : Nat) : Nat :=
  if lo < hi then
    if p ((lo + hi) / 2) then bisect p ((lo + hi) / 2 + 1) hi else bisect p lo ((lo + hi) / 2)
  else lo
termination_by hi - lo

/-- The first index from the front whose entry has that name and is accepted. -/
def scan (accept : ε → Bool) (name : String) (slots : List (Slot ε)) : Option Nat :=
  slots.findIdx? fun s => Entry.name s.value == some name && accept s.value

/-- The start of the run of that name, by halving. -/
def runStart (name : String) (slots : List (Slot ε)) : Nat :=
  bisect (fun i => match slots[i]? with
    | some s => Entry.nameLt (Entry.name s.value) (some name)
    | none => false) 0 slots.length

/-- The first accepted index within the run of that name. -/
def searchRun (accept : ε → Bool) (name : String) (slots : List (Slot ε)) : Option Nat :=
  let start := runStart name slots
  let run := (slots.drop start).takeWhile fun s => Entry.name s.value == some name
  (run.findIdx? fun s => accept s.value).map (start + ·)

/-- The first accepted entry of that name. -/
def position (es : Entries ε) (accept : ε → Bool) (name : String) : Option Nat :=
  if es.sorted then searchRun accept name es.slots else scan accept name es.slots

/-- The first entry of that name, placeholders included. -/
def find? (es : Entries ε) (name : String) : Option Nat := es.position (fun _ => true) name

/-- The first live entry of that name. -/
def findLive? (es : Entries ε) (name : String) : Option Nat := es.position Entry.isLive name

/-- The first live entry of that name, itself. -/
def live? (es : Entries ε) (name : String) : Option ε := (es.findLive? name).bind es.get?

/-- Removes drop and rename placeholders. -/
def removePlaceholders (es : Entries ε) : Entries ε :=
  { es with slots := es.slots.filter fun s => Entry.isLive s.value }

end Named

@[simp] theorem length_insert (es : Entries ε) (s : Slot ε) :
    (es.insert s).length = es.length + 1 := by simp [insert, length]

@[simp] theorem sorted_insert (es : Entries ε) (s : Slot ε) : (es.insert s).sorted = false := rfl

theorem values_insert (es : Entries ε) (s : Slot ε) :
    (es.insert s).values = es.values ++ [s.value] := by simp [insert, values]

end Entries
end SchemaShift
