import BinnedModel.Decimal.Scaling
import BinnedModel.Json.Basic

/-!
# Reading JSON text

The reader accepts the texts of RFC 8259 and no others: no byte order mark, no
comments, no trailing commas, nothing but blanks after the value. Text that is
well formed but denotes no value (a number beyond the doubles, half of a surrogate
pair, nesting deeper than 127 levels) is read as an unreadable part, so that it
does no harm under a key that nobody asks for.
-/

namespace BinnedModel.Json

/-- Text without leading blanks. -/
def skipBlanks : List Char → List Char
  | ' ' :: cs => skipBlanks cs
  | '\t' :: cs => skipBlanks cs
  | '\n' :: cs => skipBlanks cs
  | '\r' :: cs => skipBlanks cs
  | cs => cs

/-- The digits after a point; no point means no digits, a lone point is refused. -/
def readFraction : List Char → Option (List Char × List Char)
  | '.' :: cs =>
    let (digits, rest) := cs.span Decimal.isDigit
    if digits.isEmpty then none else some (digits, rest)
  | cs => some ([], cs)

/-- The digits of an exponent, at least one of them. -/
def readExponentDigits (negative : Bool) (cs : List Char) : Option (Int × List Char) :=
  let (digits, rest) := cs.span Decimal.isDigit
  if digits.isEmpty then none
  else
    let n : Int := Decimal.natOfDigits digits
    some (if negative then -n else n, rest)

/-- The exponent, if there is one. -/
def readExponent : List Char → Option (Option Int × List Char)
  | c :: cs =>
    if c = 'e' ∨ c = 'E' then
      match cs with
      | '+' :: cs => (readExponentDigits false cs).map fun (e, rest) => (some e, rest)
      | '-' :: cs => (readExponentDigits true cs).map fun (e, rest) => (some e, rest)
      | cs => (readExponentDigits false cs).map fun (e, rest) => (some e, rest)
    else some (none, c :: cs)
  | [] => some (none, [])

/-- The number of a numeral with fraction or exponent, if it is within the doubles. -/
def ofNumeral (negative : Bool) (whole fraction : List Char) (exponent : Int) : Json Float :=
  match (Decimal.ofNumeral negative whole fraction exponent).scaled? with
  | some x => .number (.real x)
  | none => .unreadable

/-- The number of a numeral without fraction and exponent: an integer if it fits 64
bits. A negative zero has no integer form. -/
def ofInteger (negative : Bool) (digits : List Char) : Json Float :=
  let n := Decimal.natOfDigits digits
  if !negative && n < UInt64.size then .number (.integer n)
  else if negative && 0 < n && 2 * n ≤ UInt64.size then .number (.integer (-n))
  else ofNumeral negative digits [] 0

/-- A number behind its sign. -/
def readMagnitude (negative : Bool) (cs : List Char) : Option (Json Float × List Char) :=
  let (whole, rest) := cs.span Decimal.isDigit
  if whole.isEmpty || (whole.head? == some '0' && 1 < whole.length) then none
  else
    match readFraction rest with
    | none => none
    | some (fraction, rest) =>
      match readExponent rest with
      | none => none
      | some (exponent, rest) =>
        if fraction.isEmpty && exponent.isNone then some (ofInteger negative whole, rest)
        else some (ofNumeral negative whole fraction (exponent.getD 0), rest)

/-- A number with its sign. -/
def readNumber : List Char → Option (Json Float × List Char)
  | '-' :: cs => readMagnitude true cs
  | cs => readMagnitude false cs

/-- Value of a hexadecimal digit. -/
def hexDigit? (c : Char) : Option Nat :=
  if '0' ≤ c ∧ c ≤ '9' then some (c.toNat - '0'.toNat)
  else if 'a' ≤ c ∧ c ≤ 'f' then some (c.toNat - 'a'.toNat + 10)
  else if 'A' ≤ c ∧ c ≤ 'F' then some (c.toNat - 'A'.toNat + 10)
  else none

/-- Value of four hexadecimal digits. -/
def hexUnit? (a b c d : Char) : Option Nat :=
  match hexDigit? a, hexDigit? b, hexDigit? c, hexDigit? d with
  | some w, some x, some y, some z => some (((w * 16 + x) * 16 + y) * 16 + z)
  | _, _, _, _ => none

/-- The character of a one-letter escape. -/
def simpleEscape? (c : Char) : Option Nat :=
  if c = '"' ∨ c = '\\' ∨ c = '/' then some c.toNat
  else if c = 'b' then some 8
  else if c = 'f' then some 12
  else if c = 'n' then some 10
  else if c = 'r' then some 13
  else if c = 't' then some 9
  else none

/-- The code units of a string up to its closing quote. Escapes give UTF-16 units,
all other characters themselves; control characters have to be escaped. -/
def readUnits : List Char → Option (List Nat × List Char)
  | [] => none
  | '"' :: cs => some ([], cs)
  | '\\' :: 'u' :: a :: b :: c :: d :: cs =>
    match hexUnit? a b c d, readUnits cs with
    | some n, some (units, rest) => some (n :: units, rest)
    | _, _ => none
  | '\\' :: c :: cs =>
    match simpleEscape? c, readUnits cs with
    | some n, some (units, rest) => some (n :: units, rest)
    | _, _ => none
  | c :: cs =>
    if c.toNat < 32 ∨ c = '\\' then none
    else (readUnits cs).map fun (units, rest) => (c.toNat :: units, rest)

/-- First half of a surrogate pair. -/
def isHighSurrogate (n : Nat) : Bool :=
  0xD800 ≤ n && n < 0xDC00

/-- Second half of a surrogate pair. -/
def isLowSurrogate (n : Nat) : Bool :=
  0xDC00 ≤ n && n < 0xE000

/-- The characters of a sequence of code units, if every surrogate has its partner. -/
def charsOfUnits? : List Nat → Option (List Char)
  | [] => some []
  | high :: low :: units =>
    if isHighSurrogate high && isLowSurrogate low then
      (charsOfUnits? units).map
        (Char.ofNat (0x10000 + (high - 0xD800) * 0x400 + (low - 0xDC00)) :: ·)
    else if isHighSurrogate high || isLowSurrogate high then none
    else (charsOfUnits? (low :: units)).map (Char.ofNat high :: ·)
  | [n] => if isHighSurrogate n || isLowSurrogate n then none else some [Char.ofNat n]

/-- A string behind its opening quote; no string if a surrogate stands alone. -/
def readString (cs : List Char) : Option (Option String × List Char) :=
  (readUnits cs).map fun (units, rest) => ((charsOfUnits? units).map String.ofList, rest)

/-- Nesting levels that a readable value may have. -/
def maxDepth : Nat :=
  127

/-- An array or object at a place where some levels are still allowed. -/
def atDepth (depth : Nat) (j : Json Float) : Json Float :=
  if depth = 0 then .unreadable else j

/-- An object of the fields that were read, if each key is readable. -/
def ofFields (fields : List (Option String × Json Float)) : Json Float :=
  if fields.all (·.1.isSome) then .object (fields.map fun f => (f.1.getD "", f.2))
  else .unreadable

mutual

/-- A value, with the number of levels it may nest. Each step takes one unit of
fuel; twice the length of the text is enough. -/
def readValue : Nat → Nat → List Char → Option (Json Float × List Char)
  | 0, _, _ => none
  | fuel + 1, depth, cs =>
    match skipBlanks cs with
    | 'n' :: 'u' :: 'l' :: 'l' :: cs => some (.null, cs)
    | 't' :: 'r' :: 'u' :: 'e' :: cs => some (.bool true, cs)
    | 'f' :: 'a' :: 'l' :: 's' :: 'e' :: cs => some (.bool false, cs)
    | '"' :: cs => (readString cs).map fun (s, rest) => ((s.map .string).getD .unreadable, rest)
    | '[' :: cs =>
      match skipBlanks cs with
      | ']' :: rest => some (atDepth depth (.array []), rest)
      | cs => (readItems fuel (depth - 1) cs).map fun (items, rest) =>
          (atDepth depth (.array items), rest)
    | '\x7b' :: cs =>
      match skipBlanks cs with
      | '\x7d' :: rest => some (atDepth depth (.object []), rest)
      | cs => (readFields fuel (depth - 1) cs).map fun (fields, rest) =>
          (atDepth depth (ofFields fields), rest)
    | cs => readNumber cs

/-- The items of a nonempty array, up to its closing bracket. -/
def readItems : Nat → Nat → List Char → Option (List (Json Float) × List Char)
  | 0, _, _ => none
  | fuel + 1, depth, cs =>
    match readValue fuel depth cs with
    | none => none
    | some (item, rest) =>
      match skipBlanks rest with
      | ']' :: rest => some ([item], rest)
      | ',' :: rest => (readItems fuel depth rest).map fun (items, rest) => (item :: items, rest)
      | _ => none

/-- The fields of a nonempty object, up to its closing brace. -/
def readFields :
    Nat → Nat → List Char → Option (List (Option String × Json Float) × List Char)
  | 0, _, _ => none
  | fuel + 1, depth, cs =>
    match skipBlanks cs with
    | '"' :: cs =>
      match readString cs with
      | none => none
      | some (key, rest) =>
        match skipBlanks rest with
        | ':' :: rest =>
          match readValue fuel depth rest with
          | none => none
          | some (item, rest) =>
            match skipBlanks rest with
            | '\x7d' :: rest => some ([(key, item)], rest)
            | ',' :: rest => (readFields fuel depth rest).map fun (fields, rest) =>
                ((key, item) :: fields, rest)
            | _ => none
        | _ => none
    | _ => none

end

/-- The value of a JSON text. -/
def parse? (text : String) : Option (Json Float) :=
  let cs := text.toList
  match readValue (2 * cs.length + 2) maxDepth cs with
  | some (j, rest) => if (skipBlanks rest).isEmpty then some j else none
  | none => none

end BinnedModel.Json
