import Mathlib
import BinnedModel.Proofs.Registry.Sums

/-!
# Units of the entries

Histograms may be given in other units: yields and absolute uncertainties are all multiplied by one
number. Over the real numbers a modifier of such data is read, checked and entered into the registry
as the original one is. An entry has its sums of yields multiplied by the number and its sums of
squared uncertainties by the square of it. For a positive number the relative uncertainties are the
same, and with them all priors, so the table of the registry is the same.
-/

namespace BinnedModel

/-- An entry of a list in other units, which is zero beyond its end, is the entry in these units. -/
theorem getD_map_mul (c : ℝ) (xs : List ℝ) (k : ℕ) :
    (xs.map (c * ·)).getD k 0 = c * xs.getD k 0 := by
  have hzero := List.getD_map (l := xs) (d := (0 : ℝ)) (n := k) (c * ·)
  rwa [mul_zero] at hzero

namespace Json

/-- A number is multiplied, anything else stays. -/
noncomputable def rescaleNumber (c : ℝ) : Json ℝ → Json ℝ
  | .number n => .number (.real (c * n.toScalar))
  | j => j

/-- The numbers of an array are multiplied, anything else stays. -/
noncomputable def rescaleItems (c : ℝ) : Json ℝ → Json ℝ
  | .array items => .array (items.map (rescaleNumber c))
  | j => j

/-- The two histograms of a record are multiplied, whether it is written with keys or without, and
anything else stays. -/
noncomputable def rescaleHistograms (c : ℝ) : Json ℝ → Json ℝ
  | .object fields => .object (fields.map fun f =>
      if ["hi_data", "lo_data"].contains f.1 then (f.1, f.2.rescaleItems c) else f)
  | .array items => .array (items.map (rescaleItems c))
  | j => j

/-- The data of a modifier of a known kind in other units: histograms and absolute uncertainties are
multiplied, factors are not. -/
noncomputable def rescaleFor (c : ℝ) : ModifierKind → Json ℝ → Json ℝ
  | .histosys => rescaleHistograms c
  | .shapesys => rescaleItems c
  | .staterror => rescaleItems c
  | _ => id

/-- A multiplied number is read as the product. -/
theorem scalar?_rescaleNumber (c : ℝ) (j : Json ℝ) :
    (j.rescaleNumber c).scalar? = j.scalar?.map (c * ·) := by
  cases j <;> rfl

/-- Items that are each read as something else are together read as a list of it. -/
theorem items?_map_of_decode {α : Type} {decode : Json ℝ → Option α} {f : Json ℝ → Json ℝ}
    {g : α → α} (h : ∀ j, decode (f j) = (decode j).map g) (items : List (Json ℝ)) :
    items? decode (items.map f) = (items? decode items).map (List.map g) := by
  induction items with
  | nil => rfl
  | cons j items ih =>
    rw [List.map_cons, items?, items?, h, ih]
    cases decode j <;> cases items? decode items <;> rfl

/-- An array of multiplied numbers is read as the list of products. -/
theorem scalars?_rescaleItems (c : ℝ) (j : Json ℝ) :
    (j.rescaleItems c).scalars? = j.scalars?.map (List.map (c * ·)) := by
  cases j with
  | array items => exact items?_map_of_decode (scalar?_rescaleNumber c) items
  | _ => rfl

/-- A field is found as it was, with its value changed. -/
theorem field?_map {α : Type} {decode : Json ℝ → Option α} {f : Json ℝ → Json ℝ} {g : α → α}
    (h : ∀ j, decode (f j) = (decode j).map g) (fields : List (String × Json ℝ)) (name : String) :
    field? (fields.map fun x => (x.1, f x.2)) name decode = (field? fields name decode).map g := by
  unfold field?
  induction fields with
  | nil => rfl
  | cons x fields ih =>
    rw [List.map_cons, List.lookup_cons, List.lookup_cons]
    cases name == x.1 with
    | true => exact h x.2
    | false => exact ih

/-- A record of two multiplied histograms has the known fields of the original one, multiplied. -/
theorem record?_rescaleHistograms (c : ℝ) (j : Json ℝ) :
    (j.rescaleHistograms c).record? ["hi_data", "lo_data"] =
      (j.record? ["hi_data", "lo_data"]).map
        (List.map fun x => (x.1, x.2.rescaleItems c)) := by
  cases j with
  | object fields =>
    have hkeys (known : List (String × Json ℝ)) :
        (known.map fun x => (x.1, x.2.rescaleItems c)).map (·.1) = known.map (·.1) := by
      rw [List.map_map]
      rfl
    have hknown : (fields.map fun x =>
          if ["hi_data", "lo_data"].contains x.1 then (x.1, x.2.rescaleItems c) else x).filter
            (fun x => ["hi_data", "lo_data"].contains x.1) =
        (fields.filter fun x => ["hi_data", "lo_data"].contains x.1).map
          fun x => (x.1, x.2.rescaleItems c) := by
      induction fields with
      | nil => rfl
      | cons x fields ih =>
        rw [List.map_cons, List.filter_cons, List.filter_cons, ih]
        by_cases hx : ["hi_data", "lo_data"].contains x.1 = true
        · rw [if_pos hx, if_pos hx, if_pos hx, List.map_cons]
        · rw [if_neg hx, if_neg hx, if_neg hx]
    rw [rescaleHistograms, record?, record?, hknown, hkeys]
    split <;> rfl
  | array items =>
    rw [rescaleHistograms, record?, record?, List.length_map]
    split
    · rw [List.zip_map_right, Option.map_some]
      rfl
    · rfl
  | _ => rfl

end Json

/-- A declaration in other units. -/
noncomputable def Declaration.rescale (c : ℝ) (d : Declaration ℝ) : Declaration ℝ :=
  match ModifierKind.ofName? d.type with
  | some kind => { d with data := d.data.rescaleFor c kind }
  | none => d

/-- Declared histograms and absolute uncertainties are multiplied, declared factors are not. -/
theorem Declaration.rescale_declared (c : ℝ) (name : String) (lo hi : ℝ)
    (los his delta : List ℝ) :
    (normsys name lo hi).rescale c = normsys name lo hi ∧
      (histosys name los his).rescale c = histosys name (los.map (c * ·)) (his.map (c * ·)) ∧
      (shapesys name delta).rescale c = shapesys name (delta.map (c * ·)) ∧
      (staterror name delta).rescale c = staterror name (delta.map (c * ·)) := by
  have hitems (xs : List ℝ) :
      (Json.ofScalars xs).rescaleItems c = Json.ofScalars (xs.map (c * ·)) := by
    simp only [Json.ofScalars, Json.ofList, Json.rescaleItems, List.map_map]
    rfl
  refine ⟨rfl, ?_, ?_, ?_⟩
  · rw [histosys, histosys, ← hitems, ← hitems]
    rfl
  · rw [shapesys, shapesys, ← hitems]
    rfl
  · rw [staterror, staterror, ← hitems]
    rfl

/-- A payload in other units. -/
def Payload.rescale (c : ℝ) : Payload ℝ → Payload ℝ
  | histosys lo hi => histosys (lo.map (c * ·)) (hi.map (c * ·))
  | shapesys delta => shapesys (delta.map (c * ·))
  | staterror delta => staterror (delta.map (c * ·))
  | p => p

/-- A modifier in other units. -/
def Modifier.rescale (c : ℝ) (m : Modifier ℝ) : Modifier ℝ :=
  ⟨m.name, m.payload.rescale c⟩

section Modifiers

variable (c : ℝ)

/-- Units do not change the kind of a payload. -/
@[simp] theorem Payload.kind_rescale (p : Payload ℝ) : (p.rescale c).kind = p.kind := by
  cases p <;> rfl

/-- Units do not change the kind of a modifier. -/
@[simp] theorem Modifier.kind_rescale (m : Modifier ℝ) : (m.rescale c).kind = m.kind :=
  m.payload.kind_rescale c

/-- All histograms of a payload are multiplied. -/
theorem Payload.histograms_rescale (p : Payload ℝ) :
    (p.rescale c).histograms = p.histograms.map (List.map (c * ·)) := by
  cases p <;> rfl

/-- The uncertainties of a payload are multiplied. -/
theorem Payload.uncertainties?_rescale (p : Payload ℝ) :
    (p.rescale c).uncertainties? = p.uncertainties?.map (List.map (c * ·)) := by
  cases p <;> rfl

/-- Data in other units is read as the payload in other units. -/
theorem Payload.ofJson?_rescaleFor (kind : ModifierKind) (data : Json ℝ) :
    ofJson? kind (data.rescaleFor c kind) = (ofJson? kind data).map (rescale c) := by
  cases kind with
  | normfactor | shapefactor | lumi => rfl
  | normsys =>
    dsimp only [Json.rescaleFor, ofJson?, id]
    cases data.record? ["hi", "lo"] with
    | none => rfl
    | some r =>
      simp only [Option.bind_eq_bind, Option.bind_some]
      cases Json.field? r "hi" Json.scalar? with
      | none => rfl
      | some hi => cases Json.field? r "lo" Json.scalar? <;> rfl
  | histosys =>
    simp only [Json.rescaleFor, ofJson?, Json.record?_rescaleHistograms, Option.bind_eq_bind]
    cases data.record? ["hi_data", "lo_data"] with
    | none => rfl
    | some r =>
      simp only [Option.map_some, Option.bind_some,
        Json.field?_map (Json.scalars?_rescaleItems c)]
      cases Json.field? r "hi_data" Json.scalars? with
      | none => rfl
      | some hi => cases Json.field? r "lo_data" Json.scalars? <;> rfl
  | shapesys =>
    simp only [Json.rescaleFor, ofJson?, Json.scalars?_rescaleItems, Option.map_map]
    rfl
  | staterror =>
    simp only [Json.rescaleFor, ofJson?, Json.scalars?_rescaleItems, Option.map_map]
    rfl

/-- A declaration in other units is read as the modifier in other units. -/
theorem Modifier.ofDeclaration_rescale (d : Declaration ℝ) :
    ofDeclaration (d.rescale c) = (ofDeclaration d).map (rescale c) := by
  unfold Declaration.rescale ofDeclaration
  cases hkind : ModifierKind.ofName? d.type with
  | none => simp only [hkind, Except.map]
  | some kind =>
    simp only [hkind, ofDeclarationAs, Payload.ofJson?_rescaleFor]
    cases Payload.ofJson? kind d.data <;> rfl

/-- Units do not change which data fits a sample. -/
theorem Modifier.checkBins_rescale (m : Modifier ℝ) (channel sample : String) (bins : ℕ) :
    (m.rescale c).checkBins channel sample bins = m.checkBins channel sample bins := by
  have hfind : (m.rescale c).payload.histograms.find? (fun h => h.length != bins) =
      (m.payload.histograms.find? fun h => h.length != bins).map (List.map (c * ·)) := by
    rw [rescale, Payload.histograms_rescale, List.find?_map]
    congr 2
    funext h
    simp only [Function.comp_apply, List.length_map]
  unfold checkBins
  rw [hfind]
  cases m.payload.histograms.find? fun h => h.length != bins with
  | none => rfl
  | some h =>
    dsimp only [Option.map_some]
    rw [List.length_map, kind_rescale]
    rfl

/-- Units do not change the width that a luminosity gets. -/
theorem Modifier.withWidth_rescale (config : Option (MeasurementConfig ℝ)) (m : Modifier ℝ) :
    (m.rescale c).withWidth config = (m.withWidth config).rescale c := by
  obtain ⟨name, payload⟩ := m
  cases payload <;> rfl

end Modifiers

/-- An entry in other units: sums of yields are multiplied once, sums of squares twice. -/
def Entry.rescale (c : ℝ) (e : Entry ℝ) : Entry ℝ :=
  { e with
    nominal := e.nominal.map (c * ·)
    variance := e.variance.map (c * c * ·) }

/-- A registry in other units. -/
def Registry.rescale (c : ℝ) (r : Registry ℝ) : Registry ℝ :=
  { r with entries := r.entries.map (Entry.rescale c) }

section Entries

variable (c : ℝ)

/-- Sums in other units grow by summands in other units. -/
theorem Entry.addTo_map (sums summands : List ℝ) :
    addTo (sums.map (c * ·)) (summands.map (c * ·)) = (addTo sums summands).map (c * ·) := by
  have hstart : (if (sums.map (c * ·)).isEmpty then (summands.map (c * ·)).map fun _ => 0
      else sums.map (c * ·)) =
        (if sums.isEmpty then summands.map fun _ => 0 else sums).map (c * ·) := by
    rw [List.isEmpty_map]
    split
    · rw [List.map_map, List.map_map]
      refine List.map_congr_left fun _ _ => ?_
      exact (mul_zero c).symm
    · rfl
  unfold addTo
  rw [hstart, List.zipWith_map, List.map_zipWith]
  congr 1
  funext x y
  exact (mul_add c x y).symm

/-- A modifier in other units is merged into an entry in these units. -/
theorem Entry.absorb_rescale (e : Entry ℝ) (payload : Payload ℝ) (nominal : List ℝ) (offset : ℕ) :
    (e.rescale c).absorb (payload.rescale c) (nominal.map (c * ·)) offset =
      (e.absorb payload nominal offset).rescale c := by
  have hact : (e.rescale c).actOn offset nominal.length =
      (e.actOn offset nominal.length).rescale c := by
    unfold actOn rescale
    dsimp only
    split <;> rfl
  unfold absorb
  dsimp only
  rw [List.length_map, hact, Payload.uncertainties?_rescale]
  cases payload.uncertainties? with
  | none => rfl
  | some delta =>
    have hsquares : (delta.map (c * ·)).map (fun d => d * d) =
        (delta.map fun d => d * d).map (c * c * ·) := by
      rw [List.map_map, List.map_map]
      refine List.map_congr_left fun d _ => ?_
      exact mul_mul_mul_comm c d c d
    dsimp only [Option.map_some, accumulate, rescale]
    rw [hsquares, addTo_map, addTo_map]

/-- An entry is put in its place in all units. -/
theorem map_rescale_putEntry (e : Entry ℝ) (es : List (Entry ℝ)) :
    (putEntry e es).map (Entry.rescale c) =
      putEntry (e.rescale c) (es.map (Entry.rescale c)) := by
  induction es with
  | nil => rfl
  | cons x es ih =>
    have hname : ((x.rescale c).name == (e.rescale c).name) = (x.name == e.name) := rfl
    rw [List.map_cons, putEntry, putEntry, hname]
    split
    · rfl
    · rw [List.map_cons, ih]

namespace Registry

/-- The entry that a modifier joins is the same in all units. -/
theorem entryFor_rescale (r : Registry ℝ) (m : Modifier ℝ) (bins : ℕ) (channel sample : String) :
    (r.rescale c).entryFor (m.rescale c) bins channel sample =
      (r.entryFor m bins channel sample).map (Entry.rescale c) := by
  have hentry : Registry.entry? (r.rescale c) m.name = (r.entry? m.name).map (Entry.rescale c) := by
    rw [Registry.entry?, rescale, List.find?_map]
    rfl
  have hname : (m.rescale c).name = m.name := rfl
  unfold entryFor
  rw [hname, hentry, Modifier.kind_rescale]
  cases r.entry? m.name with
  | none => rfl
  | some e =>
    dsimp only [Option.map_some, Entry.rescale]
    split
    · rfl
    · split <;> rfl

/-- A declaration in other units is entered as the original one is, with the same fault or into the
registry in these units. -/
theorem register_rescale (r : Registry ℝ) (d : Declaration ℝ) (nominal : List ℝ) (offset : ℕ)
    (channel sample : String) :
    (r.rescale c).register (d.rescale c) (nominal.map (c * ·)) offset channel sample =
      (r.register d nominal offset channel sample).map
        (Prod.map (Modifier.rescale c) (rescale c)) := by
  unfold register
  rw [Modifier.ofDeclaration_rescale]
  cases Modifier.ofDeclaration d with
  | error f => rfl
  | ok m =>
    dsimp only [Except.map]
    rw [Modifier.checkBins_rescale, List.length_map]
    cases m.checkBins channel sample nominal.length with
    | error f => rfl
    | ok _ =>
      dsimp only
      rw [entryFor_rescale]
      cases r.entryFor m nominal.length channel sample with
      | error f => rfl
      | ok e =>
        have hconfig : (r.rescale c).config = r.config := rfl
        dsimp only [Except.map, Prod.map]
        rw [hconfig, Modifier.withWidth_rescale]
        dsimp only [rescale, Modifier.rescale]
        rw [Entry.absorb_rescale, map_rescale_putEntry]

end Registry

end Entries

section Tables

variable {c : ℝ} (hc : 0 < c)

include hc

/-- A relative uncertainty has no unit. -/
theorem Entry.relativeWidth_rescale (e : Entry ℝ) (k : ℕ) :
    (e.rescale c).relativeWidth k = e.relativeWidth k := by
  have hnominal : (e.rescale c).nominal.getD k 0 = c * e.nominal.getD k 0 :=
    getD_map_mul c e.nominal k
  have hvariance : (e.rescale c).variance.getD k 0 = c * c * e.variance.getD k 0 :=
    getD_map_mul (c * c) e.variance k
  have hroot : Scalar.sqrt (c * c * e.variance.getD k 0) =
      c * Scalar.sqrt (e.variance.getD k 0) := by
    change Real.sqrt (c * c * e.variance.getD k 0) = c * Real.sqrt (e.variance.getD k 0)
    rw [Real.sqrt_mul (mul_self_nonneg c), Real.sqrt_mul_self hc.le]
  have hsign : 0 < c * e.nominal.getD k 0 ↔ 0 < e.nominal.getD k 0 :=
    mul_pos_iff_of_pos_left hc
  unfold relativeWidth
  dsimp only
  rw [hnominal, hvariance, hroot]
  simp only [hsign]
  split
  · exact mul_div_mul_left _ _ hc.ne'
  · rfl

/-- The parameters of an entry are the same in all units. -/
theorem Entry.parameter_rescale (e : Entry ℝ) (settings : Option (ParameterConfig ℝ))
    (o : Options ℝ) (k : ℕ) :
    (e.rescale c).parameter settings o k = e.parameter settings o k := by
  have hprior : (e.rescale c).prior settings o k = e.prior settings o k := by
    unfold prior
    rw [e.relativeWidth_rescale hc]
    rfl
  unfold parameter
  rw [hprior]
  rfl

/-- The table of a registry is the same in all units. -/
theorem Registry.table_rescale (r : Registry ℝ) (o : Options ℝ) :
    (r.rescale c).table o = r.table o := by
  have hblocks : (r.rescale c).entries.mapM (fun e => e.parameters (r.settings? e.name) o) =
      r.entries.mapM fun e => e.parameters (r.settings? e.name) o := by
    rw [rescale, List.mapM_map]
    refine mapM_congr fun e _ => ?_
    exact mapM_congr fun k _ => e.parameter_rescale hc _ o k
  have hnames : (r.rescale c).entries.map (·.name) = r.entries.map (·.name) := by
    rw [rescale, List.map_map]
    rfl
  have hsettings : (r.rescale c).settings? = r.settings? := rfl
  unfold table
  rw [hsettings, hblocks, hnames]

end Tables

end BinnedModel
