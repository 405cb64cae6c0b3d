import SchemaShift.Schema

/-! Ranking tables by what they reference.

The rank of a table is one more than the sum of the ranks of the tables that it
references. Tables are ranked depth first. A foreign key that leads to a table
whose ranking is not finished closes a cycle: it is kept, and the table that
holds it is marked. -/
namespace SchemaShift

/-- A foreign key of a table, with the position of the table it references. -/
structure Reference where
  targetName : String
  /-- No live table has the name: the key dangles. -/
  target : Option Nat
  column : String
  constrained : Bool
  deriving DecidableEq, Repr

/-- What the ranking knows about a table. -/
structure Mark where
  /-- Zero for a table that was not reached yet. -/
  rank : Nat := 0
  /-- The ranking of the table has begun and is not finished. -/
  checking : Bool := false
  /-- A kept key takes part in a cycle. -/
  cycle : Bool := false
  /-- A kept key that takes part in a cycle is constrained. -/
  constrainedCycle : Bool := false
  /-- The columns whose keys are kept, in the order of the references. -/
  retained : List String := []
  deriving DecidableEq, Repr, Inhabited

namespace Mark

/-- Notes a key that takes part in a cycle. -/
def onCycle (m : Mark) (constrained : Bool) : Mark :=
  { m with cycle := true, constrainedCycle := m.constrainedCycle || constrained }

end Mark

namespace Ranking

/-- Ranks are machine words and stay at the greatest one. -/
def maxRank : Nat := UInt64.size - 1

/-- The sum of two ranks. -/
def addRank (a b : Nat) : Nat := min (a + b) maxRank

/-- The marks of all tables, by position. -/
abbrev Marks := List Mark

/-- The mark of a table. -/
def markOf (marks : Marks) (i : Nat) : Mark := marks[i]?.getD {}

/-- The references of a table. -/
def referencesOf (references : List (List Reference)) (i : Nat) : List Reference :=
  references[i]?.getD []

/-- Part way through the references of a table. -/
structure Scan where
  marks : Marks
  /-- The columns whose keys are kept so far. -/
  retained : List String := []
  /-- The target of the reference before this one, if that took part in no cycle. -/
  previous : Option Nat := none
  /-- A reference took part in a cycle. -/
  closed : Bool := false

namespace Scan

/-- Keeps the key of a reference. -/
def keep (scan : Scan) (r : Reference) : Scan :=
  { scan with retained := scan.retained ++ [r.column] }

/-- Keeps the key of a reference that closes a cycle through table `i`. -/
def close (scan : Scan) (i : Nat) (r : Reference) : Scan :=
  { scan.keep r with
    marks := scan.marks.modify i (·.onCycle r.constrained)
    closed := true }

/-- One reference of table `i`, given how its target is ranked. A target that was
the last one too is not counted again. -/
def step (visit : Nat → Marks → Marks × Bool) (i : Nat) (scan : Scan) (r : Reference) : Scan :=
  match r.target with
  | none => scan.keep r
  | some target =>
    if (markOf scan.marks target).checking then scan.close i r
    else if scan.previous = some target then scan
    else
      let (marks, closed) := visit target scan.marks
      let scan := { scan with
        marks := marks.modify i fun m => { m with rank := addRank m.rank (markOf marks target).rank } }
      if closed then scan.close i r else { scan with previous := some target }

end Scan

/-- Ranks table `i` and what it references, unless it is ranked, and tells
whether a cycle was closed through it. Every table on the way to `i` has begun
and none begins twice, so `depth` needs to be no more than the number of tables. -/
def visit (references : List (List Reference)) : (depth : Nat) → Nat → Marks → Marks × Bool
  | 0, _, marks => (marks, false)
  | depth + 1, i, marks =>
    if 0 < (markOf marks i).rank then (marks, false)
    else
      let begun := marks.modify i fun m => { m with rank := 1, checking := true }
      let scan := (referencesOf references i).foldl
        (Scan.step (visit references depth) i) { marks := begun }
      (scan.marks.modify i fun m => { m with retained := scan.retained, checking := false },
        scan.closed)

/-- Ranks tables in order. -/
def visitAll (references : List (List Reference)) (live : List Nat) (marks : Marks) : Marks :=
  live.foldl (fun marks i => (visit references references.length i marks).1) marks

end Ranking
end SchemaShift
