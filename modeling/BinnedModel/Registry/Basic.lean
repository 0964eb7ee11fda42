import BinnedModel.Modifier.Basic
import BinnedModel.Registry.Blocks

/-!
# Registry of modifiers

While channels are read, every modifier is entered into a registry under its name.
Modifiers of one name act on one set of parameters, in whatever sample or channel
they stand, so an entry collects what all of them contribute: the bins that each
parameter acts on and, for constrained per-bin factors, the summed yields and the
summed squares of the uncertainties. An entry is made or changed only after all
checks have passed; a modifier that is refused leaves the registry as it was.
-/

namespace BinnedModel

/-- What the modifiers of one name have in common. -/
structure Entry (K : Type) where
  /-- The name. -/
  name : String
  /-- Their kind. -/
  kind : ModifierKind
  /-- Number of parameters: one, or one per bin. -/
  slots : Nat
  /-- For each parameter the bins that it acts on, in the order of encounter. -/
  bins : List (List Nat)
  /-- Summed nominal yields per parameter, for kinds with uncertainties. -/
  nominal : List K
  /-- Summed squares of uncertainties per parameter, for kinds with uncertainties. -/
  variance : List K

/-- The modifiers met so far, with the settings of the measurement. -/
structure Registry (K : Type) where
  /-- Settings of the selected measurement. -/
  config : Option (MeasurementConfig K)
  /-- One entry per name, in the order of encounter. -/
  entries : List (Entry K)

/-- A list of bins with one more bin at its end, unless it is in the list. -/
def insertBin (bins : List Nat) (bin : Nat) : List Nat :=
  if bins.contains bin then bins else bins ++ [bin]

/-- The bins after an insertion are the bins before it and the new one. -/
theorem mem_insertBin {bins : List Nat} {bin x : Nat} :
    x ∈ insertBin bins bin ↔ x ∈ bins ∨ x = bin := by
  unfold insertBin
  split
  · next h =>
    constructor
    · exact Or.inl
    · rintro (hx | rfl)
      · exact hx
      · simpa using h
  · simp

/-- An insertion does not make a bin come twice. -/
theorem nodup_insertBin {bins : List Nat} {bin : Nat} (h : bins.Nodup) :
    (insertBin bins bin).Nodup := by
  unfold insertBin
  split
  · exact h
  · next hb =>
    rw [List.nodup_append]
    refine ⟨h, by simp, ?_⟩
    rintro a ha b hbin rfl
    simp_all

namespace Entry

variable {K : Type}

/-- The entry of a name that is met for the first time. -/
def fresh (name : String) (kind : ModifierKind) (bins : Nat) : Entry K :=
  let slots := if kind.isPerBin then bins else 1
  ⟨name, kind, slots, List.replicate slots [], [], []⟩

/-- Record the bins of a sample whose first bin has the given global index: each
parameter gets its own bin, or the only parameter gets all of them. Global indices
are natural numbers; offsets so near to `2 ^ 64` that the index of a bin does not fit
a machine word are left out. -/
def actOn (e : Entry K) (offset bins : Nat) : Entry K :=
  if e.kind.isPerBin then
    { e with bins := e.bins.mapIdx fun k bs => insertBin bs (offset + k) }
  else
    { e with bins := e.bins.map fun bs =>
        (List.range bins).foldl (fun bs k => insertBin bs (offset + k)) bs }

/-- A list of sums, which starts out as zeros, with one more summand each. -/
def addTo [Scalar K] (sums summands : List K) : List K :=
  List.zipWith (· + ·) (if sums.isEmpty then summands.map fun _ => 0 else sums) summands

/-- Add the yields and the squared uncertainties of a sample. -/
def accumulate [Scalar K] (e : Entry K) (nominal delta : List K) : Entry K :=
  { e with
    nominal := addTo e.nominal nominal
    variance := addTo e.variance (delta.map fun d => d * d) }

/-- Merge a modifier of a sample into the entry of its name. -/
def absorb [Scalar K] (e : Entry K) (payload : Payload K) (nominal : List K) (offset : Nat) :
    Entry K :=
  let e := e.actOn offset nominal.length
  match payload.uncertainties? with
  | some delta => e.accumulate nominal delta
  | none => e

end Entry

/-- Entries with the entry of one name replaced, or added at the end. -/
def putEntry {K : Type} (e : Entry K) : List (Entry K) → List (Entry K)
  | [] => [e]
  | x :: xs => if x.name == e.name then e :: xs else x :: putEntry e xs

/-- The names of the entries after a replacement or addition. -/
theorem map_name_putEntry {K : Type} (e : Entry K) (es : List (Entry K)) :
    (putEntry e es).map (·.name) =
      if e.name ∈ es.map (·.name) then es.map (·.name) else es.map (·.name) ++ [e.name] := by
  induction es with
  | nil => simp [putEntry]
  | cons x xs ih =>
    unfold putEntry
    by_cases h : x.name = e.name
    · simp [h]
    · have h' : ¬ e.name = x.name := fun he => h he.symm
      simp only [beq_iff_eq, h, if_false, List.map_cons, ih, List.mem_cons, h', false_or]
      split <;> simp

namespace Registry

variable {K : Type}

/-- No modifiers yet. -/
def empty (config : Option (MeasurementConfig K)) : Registry K :=
  ⟨config, []⟩

/-- Number of distinct names. -/
def size (r : Registry K) : Nat :=
  r.entries.length

/-- Number of parameters of all names together. -/
def slots (r : Registry K) : Nat :=
  blockTotal (r.entries.map (·.slots))

/-- The entry of a name. -/
def entry? (r : Registry K) (name : String) : Option (Entry K) :=
  r.entries.find? fun e => e.name == name

/-- The settings for a name. -/
def settings? (r : Registry K) (name : String) : Option (ParameterConfig K) :=
  r.config.bind fun c => c.parameter? name

/-- The entry that a modifier joins: that of its name, if kind and, for per-bin kinds,
the number of bins agree; a fresh one if the name is new. -/
def entryFor (r : Registry K) (m : Modifier K) (bins : Nat) (channel sample : String) :
    Except (Fault K) (Entry K) :=
  match r.entry? m.name with
  | none => .ok (Entry.fresh m.name m.kind bins)
  | some e =>
    if e.kind ≠ m.kind then .error (.kindConflict m.name m.kind channel sample e.kind)
    else if m.kind.isPerBin ∧ e.slots ≠ bins then
      .error (.shapeConflict m.name m.kind bins channel e.slots)
    else .ok e

/-- Enter the modifier that is declared for a sample, given the sample's nominal
yields and the global index of its first bin. -/
def register [Scalar K] (r : Registry K) (d : Declaration K) (nominal : List K)
    (offset : Nat) (channel sample : String) : Except (Fault K) (Modifier K × Registry K) :=
  match Modifier.ofDeclaration d with
  | .error f => .error f
  | .ok m =>
    match m.checkBins channel sample nominal.length with
    | .error f => .error f
    | .ok () =>
      match r.entryFor m nominal.length channel sample with
      | .error f => .error f
      | .ok e =>
        .ok (m.withWidth r.config,
          { r with entries := putEntry (e.absorb m.payload nominal offset) r.entries })

end Registry

end BinnedModel
