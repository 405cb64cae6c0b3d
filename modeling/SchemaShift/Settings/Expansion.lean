import SchemaShift.Environment

/-! Environment references in a settings text.

A reference is a variable's name between a dollar sign with an opening brace and
a closing brace. References are found in the text as it was written. One after
the other, every place where the text of a reference stands gets the value of its
variable, also inside values that came in before; a variable that is not set
leaves its references as they are. -/
namespace SchemaShift
namespace Expansion

/-- The text of a reference. -/
def referenceTo (name : List Char) : List Char := '$' :: '{' :: name ++ ['}']

/-- The name of the reference at the start of a text. It is not empty and ends at
the first closing brace. -/
def nameAt? : List Char → Option (List Char)
  | '$' :: '{' :: rest =>
    let name := rest.takeWhile (· != '}')
    if !name.isEmpty && rest.contains '}' then some name else none
  | _ => none

/-- The names of the references in a text from left to right, after `skip`
characters of it. -/
def namesAfter : (skip : Nat) → List Char → List (List Char)
  | _, [] => []
  | skip + 1, _ :: rest => namesAfter skip rest
  | 0, c :: rest =>
    match nameAt? (c :: rest) with
    | some name => name :: namesAfter (name.length + 2) rest
    | none => namesAfter 0 rest

/-- The names of the references in a text, from left to right. -/
def names (text : List Char) : List (List Char) := namesAfter 0 text

/-- Puts `value` in the place of every `pattern`, from left to right, after
dropping `skip` characters. -/
def replaceAfter (pattern value : List Char) : (skip : Nat) → List Char → List Char
  | _, [] => []
  | skip + 1, _ :: rest => replaceAfter pattern value skip rest
  | 0, c :: rest =>
    if pattern.isPrefixOf (c :: rest) then value ++ replaceAfter pattern value (pattern.length - 1) rest
    else c :: replaceAfter pattern value 0 rest

/-- Puts `value` in the place of every `pattern`, which is not empty. -/
def replaceAll (pattern value text : List Char) : List Char := replaceAfter pattern value 0 text

/-- Puts the value of a variable in the place of its references. -/
def expandName (env : Environment) (text name : List Char) : List Char :=
  match env.get? (String.ofList name) with
  | some value => replaceAll (referenceTo name) value.toList text
  | none => text

/-- The text with its references expanded. -/
def expand (env : Environment) (text : String) : String :=
  String.ofList ((names text.toList).foldl (expandName env) text.toList)

end Expansion
end SchemaShift
