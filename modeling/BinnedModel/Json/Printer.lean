import BinnedModel.Decimal.Layout
import BinnedModel.Json.Basic

/-!
# Writing JSON text

Values are written over several lines, two blanks per level, with the shortest
decimals that read back. Doubles are positional from `1e-5` up to below `1e16` and
always show that they are no integers, by a point or by an exponent.
-/

namespace BinnedModel.Json

/-- The decimal of a double in JSON text. -/
def realChars (d : Decimal) : List Char :=
  d.signChars ++
    if d.digits = 0 then ['0', '.', '0']
    else if -5 < d.pointPosition ∧ d.pointPosition ≤ 16 then d.positionalChars ['.', '0']
    else d.scientificChars

/-- A number; doubles that are not finite have no JSON form. -/
def numberChars : JsonNumber Float → List Char
  | .integer n => (toString n).toList
  | .real x =>
    match Binary.ofFloat? x with
    | some b => realChars (b.shortest .even)
    | none => ['n', 'u', 'l', 'l']

/-- A hexadecimal digit. -/
def hexChar (n : Nat) : Char :=
  if n < 10 then Char.ofNat ('0'.toNat + n) else Char.ofNat ('a'.toNat + (n - 10))

/-- A character inside a string; quotes, backslashes and control characters are
escaped. -/
def escapedChar (c : Char) : List Char :=
  if c = '"' then ['\\', '"']
  else if c = '\\' then ['\\', '\\']
  else if c.toNat = 8 then ['\\', 'b']
  else if c.toNat = 9 then ['\\', 't']
  else if c.toNat = 10 then ['\\', 'n']
  else if c.toNat = 12 then ['\\', 'f']
  else if c.toNat = 13 then ['\\', 'r']
  else if c.toNat < 32 then
    ['\\', 'u', '0', '0', hexChar (c.toNat / 16), hexChar (c.toNat % 16)]
  else [c]

/-- A string between quotes. -/
def stringChars (s : String) : List Char :=
  '"' :: s.toList.flatMap escapedChar ++ ['"']

/-- A line break with the indentation of a level. -/
def lineBreak (level : Nat) : List Char :=
  '\n' :: List.replicate (2 * level) ' '

mutual

/-- A value whose first line has already been indented to its level. -/
def prettyChars (level : Nat) : Json Float → List Char
  | .null => ['n', 'u', 'l', 'l']
  | .bool true => ['t', 'r', 'u', 'e']
  | .bool false => ['f', 'a', 'l', 's', 'e']
  | .number n => numberChars n
  | .string s => stringChars s
  | .array [] => ['[', ']']
  | .array (item :: items) =>
    '[' :: lineBreak (level + 1) ++ prettyChars (level + 1) item ++
      prettyItems (level + 1) items ++ lineBreak level ++ [']']
  | .object [] => ['\x7b', '\x7d']
  | .object ((key, item) :: fields) =>
    '\x7b' :: lineBreak (level + 1) ++ stringChars key ++ ':' :: ' ' ::
      prettyChars (level + 1) item ++ prettyFields (level + 1) fields ++
      lineBreak level ++ ['\x7d']
  | .unreadable => ['n', 'u', 'l', 'l']

/-- The items after the first, each behind a comma on a line of its own. -/
def prettyItems (level : Nat) : List (Json Float) → List Char
  | [] => []
  | item :: items =>
    ',' :: lineBreak level ++ prettyChars level item ++ prettyItems level items

/-- The fields after the first, each behind a comma on a line of its own. -/
def prettyFields (level : Nat) : List (String × Json Float) → List Char
  | [] => []
  | (key, item) :: fields =>
    ',' :: lineBreak level ++ stringChars key ++ ':' :: ' ' :: prettyChars level item ++
      prettyFields level fields

end

/-- The text of a value, with the keys of each object in ascending order. -/
def pretty (j : Json Float) : String :=
  String.ofList (prettyChars 0 j.sorted)

end BinnedModel.Json
