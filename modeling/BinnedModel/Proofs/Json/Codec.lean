import Mathlib
import BinnedModel.Workspace.Json

/-!
# Faithful codecs

An encoder and a decoder are faithful to each other on a class of values if each value of the
class is read back as it was written and nothing outside the class is ever read. Then one pass
of reading and writing brings every value that can be read to a form that further passes keep.
Codecs of lists, pairs and fields of records are faithful if those of their parts are. Raw values
are their own code: the class is that of values with distinct keys and no unreadable part.
-/

namespace BinnedModel.Json

variable {K α : Type}

mutual

/-- A value that denotes itself: all its parts are readable, and the keys of each of its objects
are distinct. -/
def Plain : Json K → Prop
  | .null => True
  | .bool _ => True
  | .number _ => True
  | .string _ => True
  | .array items => PlainItems items
  | .object fields => (fields.map (·.1)).Nodup ∧ PlainFields fields
  | .unreadable => False

/-- Items that denote themselves. -/
def PlainItems : List (Json K) → Prop
  | [] => True
  | item :: items => Plain item ∧ PlainItems items

/-- Fields with values that denote themselves. -/
def PlainFields : List (String × Json K) → Prop
  | [] => True
  | (_, item) :: fields => Plain item ∧ PlainFields fields

end

mutual

/-- A plain value denotes itself. -/
theorem Plain.plain?_eq : ∀ {j : Json K}, j.Plain → j.plain? = some j
  | .null, _ => rfl
  | .bool _, _ => rfl
  | .number _, _ => rfl
  | .string _, _ => rfl
  | .array items, h => by
    rw [plain?, plainItems?_eq h]
    rfl
  | .object fields, h => by
    rw [plain?, plainFields?_eq h.1 h.2]
    rfl

/-- Plain items denote themselves. -/
theorem plainItems?_eq : ∀ {items : List (Json K)}, PlainItems items →
    plainItems? items = some items
  | [], _ => rfl
  | item :: items, h => by rw [plainItems?, h.1.plain?_eq, plainItems?_eq h.2]

/-- Plain fields with distinct keys denote themselves, since no key comes again. -/
theorem plainFields?_eq : ∀ {fields : List (String × Json K)}, (fields.map (·.1)).Nodup →
    PlainFields fields → plainFields? fields = some fields
  | [], _, _ => rfl
  | (key, item) :: fields, hkeys, h => by
    rw [List.map_cons, List.nodup_cons] at hkeys
    have hnew : ¬ fields.any (·.1 == key) = true := by
      rw [List.any_eq_true]
      rintro ⟨f, hf, hkey⟩
      exact hkeys.1 (List.mem_map.mpr ⟨f, hf, beq_iff_eq.mp hkey⟩)
    rw [plainFields?, h.1.plain?_eq, plainFields?_eq hkeys.2 h.2]
    exact congrArg some (if_neg hnew)

end

mutual

/-- What a value denotes is plain. -/
theorem plain_of_plain? : ∀ {j v : Json K}, j.plain? = some v → v.Plain
  | .null, _, h => by
    cases h
    trivial
  | .bool _, _, h => by
    cases h
    trivial
  | .number _, _, h => by
    cases h
    trivial
  | .string _, _, h => by
    cases h
    trivial
  | .array items, _, h => by
    obtain ⟨values, hvalues, rfl⟩ := Option.map_eq_some_iff.mp h
    exact plainItems_of_plainItems? hvalues
  | .object fields, _, h => by
    obtain ⟨values, hvalues, rfl⟩ := Option.map_eq_some_iff.mp h
    exact plainFields_of_plainFields? hvalues
  | .unreadable, _, h => by cases h

/-- What items denote is plain. -/
theorem plainItems_of_plainItems? : ∀ {items values : List (Json K)},
    plainItems? items = some values → PlainItems values
  | [], _, h => by
    cases h
    trivial
  | item :: items, _, h => by
    rw [plainItems?] at h
    split at h
    · next v vs hv hvs =>
      cases h
      exact ⟨plain_of_plain? hv, plainItems_of_plainItems? hvs⟩
    · cases h

/-- What fields denote is plain, and has distinct keys because of those that come again only the
last one is kept. -/
theorem plainFields_of_plainFields? : ∀ {fields values : List (String × Json K)},
    plainFields? fields = some values → (values.map (·.1)).Nodup ∧ PlainFields values
  | [], _, h => by
    cases h
    exact ⟨List.nodup_nil, trivial⟩
  | (key, item) :: fields, _, h => by
    rw [plainFields?] at h
    split at h
    · next v rest hv hrest =>
      have hplain := plainFields_of_plainFields? hrest
      split at h
      · cases h
        exact hplain
      · next hnew =>
        cases h
        refine ⟨List.nodup_cons.mpr ⟨fun hmem => hnew ?_, hplain.1⟩, plain_of_plain? hv, hplain.2⟩
        obtain ⟨f, hf, hkey⟩ := List.mem_map.mp hmem
        exact List.any_eq_true.mpr ⟨f, hf, beq_iff_eq.mpr hkey⟩
    · cases h

end

/-- An encoder and a decoder that are faithful to each other on a class of values. -/
structure Faithful (encode : α → Json K) (decode : Json K → Option α) (P : α → Prop) : Prop where
  /-- A value of the class is read back as it was. -/
  decode_encode : ∀ a, P a → decode (encode a) = some a
  /-- What is read is of the class. -/
  mem_of_decode : ∀ j a, decode j = some a → P a

/-- A value that has been read is read back from its own encoding. -/
theorem Faithful.decode_again {encode : α → Json K} {decode : Json K → Option α} {P : α → Prop}
    (h : Faithful encode decode P) {j : Json K} {a : α} (hj : decode j = some a) :
    decode (encode a) = some a :=
  h.decode_encode a (h.mem_of_decode j a hj)

/-- Raw values are their own code. -/
theorem faithful_plain : Faithful (fun j : Json K => j) plain? Plain where
  decode_encode _ h := h.plain?_eq
  mem_of_decode _ _ h := plain_of_plain? h

/-- An optional string is read back, an absent one from `null`. -/
theorem faithful_stringOption :
    Faithful (ofOption string : Option String → Json K) (nullable? string?) fun _ => True where
  decode_encode o _ := by cases o <;> rfl
  mem_of_decode _ _ _ := trivial

/-- What is read from items is of a class if what each item is read as is. -/
theorem mem_of_items? {decode : Json K → Option α} {P : α → Prop}
    (h : ∀ j a, decode j = some a → P a) {items : List (Json K)} {as : List α}
    (has : items? decode items = some as) : ∀ a ∈ as, P a := by
  induction items generalizing as with
  | nil =>
    cases has
    exact List.forall_mem_nil _
  | cons item items ih =>
    rw [items?] at has
    split at has
    · next a rest ha hrest =>
      cases has
      exact List.forall_mem_cons.mpr ⟨h item a ha, ih hrest⟩
    · cases has

/-- Items are not read exactly if one of them is not. -/
theorem items?_eq_none_iff {decode : Json K → Option α} {items : List (Json K)} :
    items? decode items = none ↔ ∃ item ∈ items, decode item = none := by
  induction items with
  | nil => simp [items?]
  | cons item items ih =>
    rw [List.exists_mem_cons_iff, ← ih, items?]
    cases decode item with
    | none => simp
    | some a => cases items? decode items <;> simp

/-- Lists are read back if their items are. -/
theorem Faithful.list {encode : α → Json K} {decode : Json K → Option α} {P : α → Prop}
    (h : Faithful encode decode P) :
    Faithful (ofList encode) (list? decode) fun as => ∀ a ∈ as, P a where
  decode_encode _ has := list?_ofList fun a ha => h.decode_encode a (has a ha)
  mem_of_decode j as hj := by
    unfold list? at hj
    split at hj
    · exact mem_of_items? h.mem_of_decode hj
    · cases hj

/-- An object whose keys are among the distinct ones of a record, and in their order, has exactly
its own fields. -/
theorem record?_object {names : List String} {fields : List (String × Json K)}
    (hkeys : (fields.map (·.1)).Sublist names) (hnames : names.Nodup) :
    record? names (.object fields) = some fields := by
  have hknown : (fields.filter fun f => names.contains f.1) = fields := by
    rw [List.filter_eq_self]
    intro f hf
    exact List.contains_iff_mem.mpr (hkeys.subset (List.mem_map_of_mem hf))
  rw [record?, hknown, if_pos (hkeys.nodup hnames)]

/-- What stands under a key is the first field of that key. -/
theorem lookup_cons (name key : String) (j : Json K) (fields : List (String × Json K)) :
    ((key, j) :: fields).lookup name = if name = key then some j else fields.lookup name := by
  rw [List.lookup_cons]
  split_ifs with h
  · rw [beq_iff_eq.mpr h]
  · rw [beq_false_of_ne h]

/-- A required field is the first one with its key. -/
theorem field?_cons (name key : String) (j : Json K) (fields : List (String × Json K))
    (decode : Json K → Option α) :
    field? ((key, j) :: fields) name decode =
      if name = key then decode j else field? fields name decode := by
  unfold field?
  rw [lookup_cons]
  split_ifs <;> rfl

/-- A field with a default is the first one with its key. -/
theorem fieldD?_cons (name key : String) (j : Json K) (fields : List (String × Json K))
    (default : α) (decode : Json K → Option α) :
    fieldD? ((key, j) :: fields) name default decode =
      if name = key then decode j else fieldD? fields name default decode := by
  unfold fieldD?
  rw [lookup_cons]
  split_ifs <;> rfl

/-- A field that is missing has its default. -/
theorem fieldD?_nil (name : String) (default : α) (decode : Json K → Option α) :
    fieldD? [] name default decode = some default :=
  rfl

/-- A required field is read from some value. -/
theorem exists_of_field? {fields : List (String × Json K)} {name : String}
    {decode : Json K → Option α} {a : α} (h : field? fields name decode = some a) :
    ∃ j, decode j = some a := by
  obtain ⟨j, -, hj⟩ := Option.bind_eq_some_iff.mp h
  exact ⟨j, hj⟩

/-- A field with a default has the default or is read from some value. -/
theorem eq_or_exists_of_fieldD? {fields : List (String × Json K)} {name : String} {default a : α}
    {decode : Json K → Option α} (h : fieldD? fields name default decode = some a) :
    a = default ∨ ∃ j, decode j = some a := by
  unfold fieldD? at h
  split at h
  · exact .inl (Option.some.inj h).symm
  · next j _ => exact .inr ⟨j, h⟩

namespace Faithful

variable {encode : α → Json K} {decode : Json K → Option α} {P : α → Prop}

/-- What a required field is read as is of the class of its codec. -/
theorem of_field? (h : Faithful encode decode P) {fields : List (String × Json K)} {name : String}
    {a : α} (ha : field? fields name decode = some a) : P a := by
  obtain ⟨j, hj⟩ := exists_of_field? ha
  exact h.mem_of_decode j a hj

/-- What a field is read as is of the class of its codec if its default is. -/
theorem of_fieldD? (h : Faithful encode decode P) {fields : List (String × Json K)} {name : String}
    {default a : α} (hdefault : P default) (ha : fieldD? fields name default decode = some a) :
    P a := by
  rcases eq_or_exists_of_fieldD? ha with rfl | ⟨j, hj⟩
  · exact hdefault
  · exact h.mem_of_decode j a hj

end Faithful

/-- A record is read back if its fields are written under its own distinct keys, in their order,
and what is read from these fields is the record. -/
theorem faithful_record {names : List String} {fields : α → List (String × Json K)}
    {read : List (String × Json K) → Option α} {P : α → Prop}
    (hkeys : ∀ a, ((fields a).map (·.1)).Sublist names) (hnames : names.Nodup)
    (hread : ∀ a, P a → read (fields a) = some a) (hmem : ∀ r a, read r = some a → P a) :
    Faithful (fun a => .object (fields a)) (fun j => j.record? names >>= read) P where
  decode_encode a ha := by
    rw [record?_object (hkeys a) hnames]
    exact hread a ha
  mem_of_decode j a hj := by
    obtain ⟨r, -, hr⟩ := Option.bind_eq_some_iff.mp hj
    exact hmem r a hr

section ListField

variable {encode : α → Json K} {decode : Json K → Option α} {P : α → Prop}

/-- A list that may be left out adds at most its own key. -/
theorem keys_listField (name : String) (encode : α → Json K) (xs : List α) :
    ((listField name encode xs).map (·.1)).Sublist [name] := by
  unfold listField
  split
  · exact List.nil_sublist _
  · exact List.Sublist.refl _

/-- A list that may be left out hides no other field behind it. -/
theorem lookup_listField_of_ne {name key : String} (h : name ≠ key) (xs : List α)
    (rest : List (String × Json K)) :
    (listField key encode xs ++ rest).lookup name = rest.lookup name := by
  unfold listField
  split
  · rfl
  · rw [List.singleton_append, lookup_cons, if_neg h]

/-- A field behind a list of another key is read as if the list were not there. -/
theorem fieldD?_listField_of_ne {β : Type} {name key : String} (h : name ≠ key) (xs : List α)
    (rest : List (String × Json K)) (default : β) (decode : Json K → Option β) :
    fieldD? (listField key encode xs ++ rest) name default decode =
      fieldD? rest name default decode := by
  rw [fieldD?, fieldD?, lookup_listField_of_ne h]

/-- A list that is left out when it is empty is read back, since its default is the empty list. -/
theorem Faithful.fieldD?_listField (h : Faithful encode decode P) {name : String} {xs : List α}
    (hxs : ∀ x ∈ xs, P x) {rest : List (String × Json K)} (hrest : rest.lookup name = none) :
    fieldD? (listField name encode xs ++ rest) name [] (list? decode) = some xs := by
  unfold listField
  split
  · next hempty =>
    rw [List.isEmpty_iff.mp hempty, List.nil_append, fieldD?, hrest]
  · rw [List.singleton_append, fieldD?_cons, if_pos rfl]
    exact h.list.decode_encode xs hxs

end ListField

section Scalars

variable [Scalar K]

/-- Finite scalars are read back. -/
theorem faithful_scalar :
    Faithful (ofScalar : K → Json K) scalar? fun x => Scalar.isFinite x = true where
  decode_encode x hx := by rw [scalar?_ofScalar, if_pos hx]
  mem_of_decode j x hj := by
    unfold scalar? at hj
    split at hj
    · split at hj
      · next hfinite =>
        cases hj
        exact hfinite
      · cases hj
    · cases hj

/-- Lists of finite scalars are read back. -/
theorem faithful_scalars :
    Faithful (ofScalars : List K → Json K) scalars? fun xs => ∀ x ∈ xs, Scalar.isFinite x = true :=
  faithful_scalar.list

/-- A list of scalars is read back if all of them are finite, and not read at all otherwise. -/
theorem scalars?_ofScalars (xs : List K) :
    (ofScalars xs).scalars? = if ∀ x ∈ xs, Scalar.isFinite x = true then some xs else none := by
  split_ifs with h
  · exact faithful_scalars.decode_encode xs h
  · push Not at h
    obtain ⟨x, hx, hinfinite⟩ := h
    refine items?_eq_none_iff.mpr ⟨ofScalar x, List.mem_map_of_mem hx, ?_⟩
    rw [scalar?_ofScalar, if_neg hinfinite]

/-- Pairs of finite scalars are read back. -/
theorem faithful_pair :
    Faithful (ofPair : K × K → Json K) (pair? scalar?) fun p =>
      Scalar.isFinite p.1 = true ∧ Scalar.isFinite p.2 = true where
  decode_encode p hp := by
    rw [ofPair, pair?, faithful_scalar.decode_encode p.1 hp.1,
      faithful_scalar.decode_encode p.2 hp.2]
  mem_of_decode j p hj := by
    unfold pair? at hj
    split at hj
    · next a b =>
      split at hj
      · next x y hx hy =>
        cases hj
        exact ⟨faithful_scalar.mem_of_decode a x hx, faithful_scalar.mem_of_decode b y hy⟩
      · cases hj
    · cases hj

end Scalars

end BinnedModel.Json
