import SchemaShift.Toml.Line

/-! Quoted texts of TOML.

A text stands between double or single quotes, one of them or three. Escapes are
read between double quotes only; newlines may stand between three quotes only. A
run of quotes ends a text that stands between three of them, and up to two more
of them before the closing three belong to the text. -/
namespace SchemaShift
namespace Toml
namespace Quoted

def quote : Char := '"'

def apostrophe : Char := '\x27'

def hexValue? (c : Char) : Option Nat :=
  if '0' ≤ c ∧ c ≤ '9' then some (c.toNat - '0'.toNat)
  else if 'a' ≤ c ∧ c ≤ 'f' then some (c.toNat - 'a'.toNat + 10)
  else if 'A' ≤ c ∧ c ≤ 'F' then some (c.toNat - 'A'.toNat + 10)
  else none

/-- The character of a code point in exactly `count` hexadecimal digits. -/
def scalar? (count : Nat) (digits : List Char) : Option Char := do
  guard (digits.length = count)
  let values ← digits.mapM hexValue?
  let code := values.foldl (fun code value => 16 * code + value) 0
  if code.isValidChar then some (Char.ofNat code) else none

/-- The character of an escape after its backslash, with the number of characters
that the escape takes. -/
def escape? : List Char → Option (Char × Nat)
  | 'b' :: _ => some ('\x08', 1)
  | 't' :: _ => some ('\t', 1)
  | 'n' :: _ => some ('\n', 1)
  | 'f' :: _ => some ('\x0c', 1)
  | 'r' :: _ => some ('\r', 1)
  | '"' :: _ => some ('"', 1)
  | '\\' :: _ => some ('\\', 1)
  | 'u' :: rest => (scalar? 4 (rest.take 4)).map (·, 5)
  | 'U' :: rest => (scalar? 8 (rest.take 8)).map (·, 9)
  | _ => none

/-- The text up to a closing double quote on the same line. -/
def basic? : Reader (List Char)
  | [] => none
  | c :: rest =>
    if c = quote then some ([], rest)
    else if c = '\\' then
      match escape? rest with
      | some (e, count) => (basic? (rest.drop count)).map (consRead e)
      | none => none
    else if isPlain c then (basic? rest).map (consRead c)
    else none
termination_by text => text.length
decreasing_by all_goals grind

/-- The text up to a closing single quote on the same line. -/
def literal? : Reader (List Char)
  | [] => none
  | c :: rest =>
    if c = apostrophe then some ([], rest)
    else if isPlain c then (literal? rest).map (consRead c)
    else none

/-- The number of `mark`s at the front of a text. -/
def runLength (mark : Char) (text : List Char) : Nat := (text.takeWhile (· == mark)).length

/-- The end of a text between three `mark`s, at a run of at least three. -/
def closing (mark : Char) (text : List Char) : List Char × List Char :=
  let count := min (runLength mark text) 5
  (List.replicate (count - 3) mark, text.drop count)

/-- The text after a backslash at the end of a line and the blank lines after it. -/
def afterFold? (text : List Char) : Option (List Char) :=
  (afterNewline? (skipBlanks text)).map skipBlankLines

theorem length_afterFold? {text rest : List Char} (h : afterFold? text = some rest) :
    rest.length < text.length := by
  simp only [afterFold?, Option.map_eq_some_iff] at h
  obtain ⟨line, hline, rfl⟩ := h
  have := length_afterNewline? hline
  have := length_skipBlanks text
  have := length_skipBlankLines line
  omega

/-- The text up to three closing `mark`s, with or without escapes. -/
def multi? (mark : Char) (escapes : Bool) : Reader (List Char)
  | [] => none
  | c :: rest =>
    if 3 ≤ runLength mark (c :: rest) then some (closing mark (c :: rest))
    else if c = '\\' ∧ escapes then
      match _fold : afterFold? rest with
      | some unfolded => multi? mark escapes unfolded
      | none =>
        match escape? rest with
        | some (e, count) => (multi? mark escapes (rest.drop count)).map (consRead e)
        | none => none
    else if isPlain c then (multi? mark escapes rest).map (consRead c)
    else
      match _line : afterNewline? (c :: rest) with
      | some line => (multi? mark escapes line).map (consRead '\n')
      | none => none
termination_by text => text.length
decreasing_by
  · have := length_afterFold? _fold
    grind
  · grind
  · grind
  · exact length_afterNewline? _line

/-- The text without a newline at its front. -/
def trimNewline (text : List Char) : List Char := (afterNewline? text).getD text

/-- A text between quotes on one line. -/
def line? : Reader (List Char)
  | '"' :: rest => basic? rest
  | '\x27' :: rest => literal? rest
  | _ => none

/-- A text between quotes of any kind. -/
def any? : Reader (List Char)
  | '"' :: '"' :: '"' :: rest => multi? quote true (trimNewline rest)
  | '\x27' :: '\x27' :: '\x27' :: rest => multi? apostrophe false (trimNewline rest)
  | text => line? text

end Quoted
end Toml
end SchemaShift
