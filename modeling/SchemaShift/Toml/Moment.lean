import SchemaShift.Toml.Number

/-! Dates and times of TOML.

A moment is a date, a date with a time and maybe a distance from universal time,
or a time alone. Months and days are those of the calendar, and a minute may
have a leap second. It only matters whether a moment is well formed. -/
namespace SchemaShift
namespace Toml
namespace Moment

/-- A number in exactly `count` digits. -/
def number? (count : Nat) : Reader Nat := fun text =>
  let digits := text.take count
  if digits.length = count ∧ digits.all Char.isDigit then
    some (Number.valueOf 10 digits, text.drop count)
  else none

/-- A number in exactly two digits, from `low` to `high`. -/
def between? (low high : Nat) : Reader Nat := fun text => do
  let (n, rest) ← number? 2 text
  guard (low ≤ n ∧ n ≤ high)
  return (n, rest)

def isLeapYear (year : Nat) : Bool := year % 4 == 0 && (year % 100 != 0 || year % 400 == 0)

/-- The number of days of a month. -/
def daysIn (year month : Nat) : Nat :=
  if month = 2 then if isLeapYear year then 29 else 28
  else if month ∈ [4, 6, 9, 11] then 30
  else 31

/-- The text after a date. -/
def date? (text : List Char) : Option (List Char) := do
  let (year, text) ← number? 4 text
  let (month, text) ← between? 1 12 (← after? '-' text)
  let (_, rest) ← between? 1 (daysIn year month) (← after? '-' text)
  return rest

/-- The text after the fraction of a second, if there is one. -/
def skipFraction (text : List Char) : List Char :=
  match after? '.' text with
  | some (c :: rest) => if c.isDigit then rest.dropWhile Char.isDigit else text
  | _ => text

/-- The text after hours and minutes. -/
def clock? (text : List Char) : Option (List Char) := do
  let (_, text) ← between? 0 23 text
  let (_, rest) ← between? 0 59 (← after? ':' text)
  return rest

/-- The text after a time. -/
def time? (text : List Char) : Option (List Char) := do
  let text ← clock? text
  let (_, rest) ← between? 0 60 (← after? ':' text)
  return skipFraction rest

/-- The text after a distance from universal time. -/
def distance? : List Char → Option (List Char)
  | c :: rest =>
    if c = 'Z' ∨ c = 'z' then some rest
    else if c = '+' ∨ c = '-' then clock? rest
    else none
  | [] => none

/-- The text after what follows a date: a time, with or without a distance. -/
def timeOfDay? : List Char → Option (List Char)
  | c :: rest => do
    guard (c = 'T' ∨ c = 't' ∨ c = ' ')
    let rest ← time? rest
    return (distance? rest).getD rest
  | [] => none

/-- The text after a moment. -/
def skip? (text : List Char) : Option (List Char) :=
  match date? text with
  | some rest => some ((timeOfDay? rest).getD rest)
  | none => time? text

end Moment
end Toml
end SchemaShift
