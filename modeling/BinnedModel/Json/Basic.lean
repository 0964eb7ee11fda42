import BinnedModel.Scalar

/-!
# JSON values

A value keeps the fields of its objects in the order of the text, repeated keys
included, because a reader of typed records refuses a repeated key that it knows
and skips one that it does not. `Json.plain?` settles what a value means where no
record type is expected: the last field of a key counts.
-/

namespace BinnedModel

/-- A JSON number. Integers of 64 bits stay exact, all other numbers are scalars. -/
inductive JsonNumber (K : Type) where
  /-- An integer without fraction and exponent, in `[-2^63, 2^64)`. -/
  | integer (n : Int)
  /-- Any other number. -/
  | real (x : K)

/-- The scalar that a JSON number denotes. -/
def JsonNumber.toScalar {K : Type} [Scalar K] : JsonNumber K → K
  | .integer n => (n : K)
  | .real x => x

/-- A JSON value over a type of scalars. -/
inductive Json (K : Type) where
  /-- The literal `null`. -/
  | null
  /-- A truth value. -/
  | bool (b : Bool)
  /-- A number. -/
  | number (n : JsonNumber K)
  /-- A character string. -/
  | string (s : String)
  /-- An array. -/
  | array (items : List (Json K))
  /-- An object, with its fields in the order of the text. -/
  | object (fields : List (String × Json K))
  /-- Well-formed text that denotes no value: a number too large for a scalar, a
  string with half of a surrogate pair, or nesting beyond the supported depth. -/
  | unreadable

namespace Json

variable {K : Type}

mutual

/-- The value that a JSON text denotes on its own: of repeated keys the last one
counts, and a value with an unreadable part denotes nothing. -/
def plain? : Json K → Option (Json K)
  | .null => some .null
  | .bool b => some (.bool b)
  | .number n => some (.number n)
  | .string s => some (.string s)
  | .array items => (plainItems? items).map .array
  | .object fields => (plainFields? fields).map .object
  | .unreadable => none

/-- The values that the items of an array denote. -/
def plainItems? : List (Json K) → Option (List (Json K))
  | [] => some []
  | item :: items =>
    match plain? item, plainItems? items with
    | some v, some vs => some (v :: vs)
    | _, _ => none

/-- The fields of an object with distinct keys: a field is dropped if its key comes
again. -/
def plainFields? : List (String × Json K) → Option (List (String × Json K))
  | [] => some []
  | (key, item) :: fields =>
    match plain? item, plainFields? fields with
    | some v, some rest =>
      some (if rest.any (·.1 == key) then rest else (key, v) :: rest)
    | _, _ => none

end

/-- Fields in ascending order of their keys. -/
def sortFields (fields : List (String × Json K)) : List (String × Json K) :=
  fields.mergeSort fun a b => a.1 ≤ b.1

mutual

/-- The same value with the fields of each object in ascending order of keys. -/
def sorted : Json K → Json K
  | .array items => .array (sortedItems items)
  | .object fields => .object (sortFields (sortedValues fields))
  | j => j

/-- Items with sorted objects inside. -/
def sortedItems : List (Json K) → List (Json K)
  | [] => []
  | item :: items => sorted item :: sortedItems items

/-- Fields, in their order, with sorted objects inside. -/
def sortedValues : List (String × Json K) → List (String × Json K)
  | [] => []
  | (key, item) :: fields => (key, sorted item) :: sortedValues fields

end

/-- A natural number. -/
def ofNat (n : Nat) : Json K :=
  .number (.integer n)

/-- A list, item by item. -/
def ofList {α : Type} (encode : α → Json K) (xs : List α) : Json K :=
  .array (xs.map encode)

/-- An optional value; an absent one is `null`. -/
def ofOption {α : Type} (encode : α → Json K) : Option α → Json K
  | none => .null
  | some a => encode a

variable [Scalar K]

/-- A scalar; one that is not finite has no JSON form and becomes `null`. -/
def ofScalar (x : K) : Json K :=
  if Scalar.isFinite x then .number (.real x) else .null

/-- A list of scalars. -/
def ofScalars (xs : List K) : Json K :=
  ofList ofScalar xs

/-- Two scalars as an array. -/
def ofPair (p : K × K) : Json K :=
  .array [ofScalar p.1, ofScalar p.2]

end Json

end BinnedModel
