import BinnedModel.Json.Basic

/-!
# Decoding of JSON values

A decoder returns nothing when a value does not have the expected form; why it
does not is never reported. Records may be written as objects, whose unknown keys
are skipped, or as arrays of their fields in declaration order, whose last fields
may be left out if they have a default.
-/

namespace BinnedModel.Json

variable {K α : Type}

/-- A character string. -/
def string? : Json K → Option String
  | .string s => some s
  | _ => none

/-- A truth value. -/
def bool? : Json K → Option Bool
  | .bool b => some b
  | _ => none

/-- Decode every item of a list. -/
def items? (decode : Json K → Option α) : List (Json K) → Option (List α)
  | [] => some []
  | item :: items =>
    match decode item, items? decode items with
    | some a, some as => some (a :: as)
    | _, _ => none

/-- An array with items of one kind. -/
def list? (decode : Json K → Option α) : Json K → Option (List α)
  | .array items => items? decode items
  | _ => none

/-- An array of exactly two items of one kind. -/
def pair? (decode : Json K → Option α) : Json K → Option (α × α)
  | .array [a, b] =>
    match decode a, decode b with
    | some x, some y => some (x, y)
    | _, _ => none
  | _ => none

/-- A value that may be `null`. -/
def nullable? (decode : Json K → Option α) : Json K → Option (Option α)
  | .null => some none
  | j => (decode j).map some

/-- The name of an alternative without content: a string, or an object with that
name as its only key and `null` behind it. -/
def alternative? : Json K → Option String
  | .string s => some s
  | .object [(name, .null)] => some name
  | _ => none

/-- The given fields of a record. An object may hold any other keys, but none of the
given ones twice; an array holds the fields in the given order and nothing else. -/
def record? (names : List String) : Json K → Option (List (String × Json K))
  | .object fields =>
    let known := fields.filter fun f => names.contains f.1
    if (known.map (·.1)).Nodup then some known else none
  | .array items => if items.length ≤ names.length then some (names.zip items) else none
  | _ => none

/-- Decode a field that has to be there. -/
def field? (fields : List (String × Json K)) (name : String)
    (decode : Json K → Option α) : Option α :=
  (fields.lookup name).bind decode

/-- Decode a field that takes a default when it is missing. -/
def fieldD? (fields : List (String × Json K)) (name : String) (default : α)
    (decode : Json K → Option α) : Option α :=
  match fields.lookup name with
  | none => some default
  | some j => decode j

/-- Items that each decode to what they encode decode to the list of it. -/
theorem items?_map {α : Type} {encode : α → Json K} {decode : Json K → Option α} {xs : List α}
    (h : ∀ x ∈ xs, decode (encode x) = some x) : items? decode (xs.map encode) = some xs := by
  induction xs with
  | nil => rfl
  | cons x xs ih =>
    have hx : decode (encode x) = some x := h x (by simp)
    have hxs : items? decode (xs.map encode) = some xs := ih fun y hy => h y (by simp [hy])
    simp [items?, hx, hxs]

/-- A list is decoded if each of its items is. -/
theorem list?_ofList {α : Type} {encode : α → Json K} {decode : Json K → Option α} {xs : List α}
    (h : ∀ x ∈ xs, decode (encode x) = some x) : (ofList encode xs).list? decode = some xs :=
  items?_map h

variable [Scalar K]

/-- A number. JSON numbers are finite, so a leaf that is not finite denotes none. -/
def scalar? : Json K → Option K
  | .number n => if Scalar.isFinite n.toScalar then some n.toScalar else none
  | _ => none

/-- An array of numbers. -/
def scalars? : Json K → Option (List K) :=
  list? scalar?

/-- A scalar is read back exactly if it is finite. -/
theorem scalar?_ofScalar (x : K) :
    (ofScalar x).scalar? = if Scalar.isFinite x then some x else none := by
  unfold ofScalar
  split
  · next h => simp [scalar?, JsonNumber.toScalar, h]
  · rfl

end BinnedModel.Json
