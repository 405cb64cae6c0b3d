import SchemaShift.Data
import SchemaShift.Toml.Quoted

/-! Numbers of TOML.

A whole number has a decimal, hexadecimal, octal or binary form and fits 64 bits
with a sign. One underscore may stand between two digits. Of a number with a
fraction or an exponent it only matters whether it is well formed and small
enough. -/
namespace SchemaShift
namespace Toml
namespace Number

def isDigit (c : Char) : Bool := c.isDigit

def isHexDigit (c : Char) : Bool := (Quoted.hexValue? c).isSome

def isOctalDigit (c : Char) : Bool := decide ('0' ≤ c) && decide (c ≤ '7')

def isBinaryDigit (c : Char) : Bool := c == '0' || c == '1'

/-- The digits at the front of a text, without the single underscores between
them and one in front. -/
def moreDigits (isDigit : Char → Bool) : List Char → List Char × List Char
  | '_' :: d :: rest =>
    if isDigit d then consRead d (moreDigits isDigit rest) else ([], '_' :: d :: rest)
  | c :: rest => if isDigit c then consRead c (moreDigits isDigit rest) else ([], c :: rest)
  | [] => ([], [])

/-- At least one digit. -/
def digits? (isDigit : Char → Bool) : Reader (List Char)
  | c :: rest => if isDigit c then some (consRead c (moreDigits isDigit rest)) else none
  | [] => none

/-- The value of digits in a base. -/
def valueOf (base : Nat) (digits : List Char) : Nat :=
  digits.foldl (fun value digit => base * value + (Quoted.hexValue? digit).getD 0) 0

/-- Whether a text starts with a minus sign, and the text after a sign. -/
def sign : List Char → Bool × List Char
  | '-' :: rest => (true, rest)
  | '+' :: rest => (false, rest)
  | text => (false, text)

/-- Decimal digits; a zero at the front stands alone. -/
def whole? : Reader (List Char)
  | '0' :: rest => some (['0'], rest)
  | text => digits? isDigit text

/-- Numbers with a sign in 64 bits are below this bound and not below its negative. -/
def wordBound : Nat := UInt64.size / 2

/-- A number that fits 64 bits with a sign. -/
def word? (value : Int) : Option Int :=
  if -wordBound ≤ value ∧ value < wordBound then some value else none

/-- A number without a sign in another base. -/
def based? (base : Nat) (isDigit : Char → Bool) (text : List Char) : Option (Int × List Char) := do
  let (digits, rest) ← digits? isDigit text
  let value ← word? (valueOf base digits)
  return (value, rest)

/-- A decimal number. -/
def decimal? (text : List Char) : Option (Int × List Char) := do
  let (negative, text) := sign text
  let (digits, rest) ← whole? text
  let size : Int := valueOf 10 digits
  let value ← word? (if negative then -size else size)
  return (value, rest)

/-- A whole number. -/
def integer? : Reader Int
  | '0' :: 'x' :: rest => based? 16 isHexDigit rest
  | '0' :: 'o' :: rest => based? 8 isOctalDigit rest
  | '0' :: 'b' :: rest => based? 2 isBinaryDigit rest
  | text => decimal? text

/-! ### Fractions and exponents -/

/-- An exponent after its letter; of one with many digits the sign alone counts. -/
def exponent? : Reader Int
  | c :: rest => do
    guard (c = 'e' ∨ c = 'E')
    let (negative, text) := sign rest
    let (digits, rest) ← digits? isDigit text
    let size : Int := valueOf 10 digits
    return (if negative then -size else size, rest)
  | [] => none

/-- The digits after a point. -/
def fraction? : Reader (List Char)
  | '.' :: rest => digits? isDigit rest
  | _ => none

/-- The least number that is rounded to infinity in double precision. -/
def doubleBound : Nat := Nat.pow 2 1024 - Nat.pow 2 970

/-- The number `mantissa * 10 ^ exponent` is below the bound. A mantissa of more
digits than the bound decides without the exact comparison. -/
def isFinite (mantissa : Nat) (exponent : Int) : Bool :=
  if mantissa = 0 then true
  else if 400 < exponent then false
  else
    match exponent with
    | .ofNat n => decide (mantissa * Nat.pow 10 n < doubleBound)
    | .negSucc n =>
      let digits := (Nat.toDigits 10 mantissa).length
      decide (digits ≤ n) || decide (mantissa < doubleBound * Nat.pow 10 (n + 1))

/-- The text after a number with a fraction, an exponent or both. A number that
is not negative is finite. -/
def fractional? (text : List Char) : Option (List Char) := do
  let (negative, text) := sign text
  let (whole, text) ← whole? text
  let (fraction, exponent, rest) ←
    match exponent? text with
    | some (exponent, rest) => some ([], exponent, rest)
    | none => do
      let (fraction, rest) ← fraction? text
      match exponent? rest with
      | some (exponent, rest) => some (fraction, exponent, rest)
      | none => some (fraction, 0, rest)
  guard (negative || isFinite (valueOf 10 (whole ++ fraction)) (exponent - fraction.length))
  return rest

/-- The text after an infinity or what is not a number. -/
def special? (text : List Char) : Option (List Char) :=
  match (sign text).2 with
  | 'i' :: 'n' :: 'f' :: rest => some rest
  | 'n' :: 'a' :: 'n' :: rest => some rest
  | _ => none

end Number
end Toml
end SchemaShift
