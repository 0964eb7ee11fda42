import Mathlib
import BinnedModel.Registry.Basic

/-!
# Registrations

Entering a modifier is split into a condition and a change. The condition looks at the
declaration, at the number of bins of its sample and at the earlier entry of its name;
the change is a total function of the registry. A sequence of registrations then has one
condition and one result, which do not mention outcomes.
-/

namespace BinnedModel

variable {K : Type}

/-- All per-bin data of a modifier has one entry per bin. -/
def Modifier.Fits (m : Modifier K) (bins : ℕ) : Prop :=
  ∀ h ∈ m.payload.histograms, h.length = bins

/-- The check of per-bin data finds exactly the modifiers that fit. -/
theorem Modifier.checkBins_eq_ok_iff {m : Modifier K} {channel sample : String} {bins : ℕ}
    {u : Unit} : m.checkBins channel sample bins = .ok u ↔ m.Fits bins := by
  unfold checkBins Fits
  split
  · next h hfind =>
    have hmem : h ∈ m.payload.histograms := List.mem_of_find?_eq_some hfind
    have hne : h.length ≠ bins := by simpa using List.find?_some hfind
    simp only [reduceCtorEq, false_iff]
    exact fun hall => hne (hall h hmem)
  · next hfind =>
    have hall := List.find?_eq_none.mp hfind
    simp only [true_iff]
    intro h hmem
    simpa using hall h hmem

/-- The width of a luminosity is no part of the name. -/
@[simp] theorem Modifier.withWidth_name (config : Option (MeasurementConfig K))
    (m : Modifier K) : (m.withWidth config).name = m.name := by
  unfold withWidth
  split <;> rfl

/-- The width of a luminosity is no part of the kind. -/
@[simp] theorem Modifier.withWidth_kind (config : Option (MeasurementConfig K))
    (m : Modifier K) : (m.withWidth config).kind = m.kind := by
  unfold withWidth
  split
  · next h => simp [kind, h, Payload.kind]
  · rfl

/-- The width of a luminosity is no uncertainty per bin. -/
@[simp] theorem Modifier.withWidth_uncertainties? (config : Option (MeasurementConfig K))
    (m : Modifier K) :
    (m.withWidth config).payload.uncertainties? = m.payload.uncertainties? := by
  unfold withWidth
  split
  · next h => simp [h, Payload.uncertainties?]
  · rfl

/-- The width of a luminosity does not change which modifiers fit. -/
@[simp] theorem Modifier.withWidth_fits (config : Option (MeasurementConfig K))
    (m : Modifier K) (bins : ℕ) : (m.withWidth config).Fits bins ↔ m.Fits bins := by
  unfold withWidth Fits
  split
  · next h => simp [h, Payload.histograms]
  · rfl

/-- A modifier on its way into a registry, with the nominal yields of its sample and the
global index of the first bin of its channel. -/
structure Registration (K : Type) where
  /-- The modifier. -/
  modifier : Modifier K
  /-- Nominal yields of its sample. -/
  nominal : List K
  /-- Global index of the first bin, a natural number as in `Entry.actOn`. -/
  offset : ℕ

/-- The entry that a registration makes if its name is new, before it acts on bins. -/
def Registration.start (x : Registration K) : Entry K :=
  Entry.fresh x.modifier.name x.modifier.kind x.nominal.length

namespace Registration

/-- Two registrations do not contradict each other: if their names are equal, so are
their kinds and, for per-bin kinds, their numbers of bins. -/
def Agrees (x y : Registration K) : Prop :=
  x.modifier.name = y.modifier.name →
    x.modifier.kind = y.modifier.kind ∧
      (x.modifier.kind.isPerBin = true → x.nominal.length = y.nominal.length)

/-- A registration agrees with itself. -/
theorem Agrees.refl (x : Registration K) : x.Agrees x := fun _ => ⟨rfl, fun _ => rfl⟩

/-- Agreement goes both ways. -/
theorem Agrees.symm {x y : Registration K} (h : x.Agrees y) : y.Agrees x := by
  intro hname
  obtain ⟨hkind, hbins⟩ := h hname.symm
  exact ⟨hkind.symm, fun hper => (hbins (hkind ▸ hper)).symm⟩

/-- Number of parameters that a registration asks for. -/
def slots (x : Registration K) : ℕ :=
  if x.modifier.kind.isPerBin then x.nominal.length else 1

/-- A registration with a bin asks for a parameter. -/
theorem slots_pos (x : Registration K) (h : 0 < x.nominal.length) : 0 < x.slots := by
  unfold slots
  split <;> omega

/-- Registrations of one name that agree ask for equally many parameters. -/
theorem Agrees.slots_eq {x y : Registration K} (h : x.Agrees y)
    (hname : x.modifier.name = y.modifier.name) : x.slots = y.slots := by
  obtain ⟨hkind, hbins⟩ := h hname
  unfold slots
  rw [← hkind]
  split
  · next hper => exact hbins hper
  · rfl

end Registration

namespace Registry

/-- A registration agrees with the entry of its name, if there is one: the kinds are the
same, and for per-bin kinds the numbers of bins. -/
def Admits (r : Registry K) (x : Registration K) : Prop :=
  ∀ e, r.entry? x.modifier.name = some e →
    e.kind = x.modifier.kind ∧ (x.modifier.kind.isPerBin = true → e.slots = x.nominal.length)

/-- A modifier has an entry to join exactly if its registration is admitted, and the entry
is the earlier one of its name or else a new one. -/
theorem entryFor_eq_ok_iff {r : Registry K} {x : Registration K} {channel sample : String}
    {e : Entry K} : r.entryFor x.modifier x.nominal.length channel sample = .ok e ↔
      r.Admits x ∧ e = (r.entry? x.modifier.name).getD x.start := by
  unfold entryFor Admits
  cases he : r.entry? x.modifier.name with
  | none =>
    simp only [reduceCtorEq, false_implies, implies_true, true_and, Option.getD_none,
      Except.ok.injEq]
    exact eq_comm
  | some e₀ =>
    simp only [Option.some.injEq, forall_eq', Option.getD_some]
    by_cases hkind : e₀.kind = x.modifier.kind
    · by_cases hbins : x.modifier.kind.isPerBin = true ∧ e₀.slots ≠ x.nominal.length
      · simp [hkind, hbins]
      · have hslots : x.modifier.kind.isPerBin = true → e₀.slots = x.nominal.length := by
          intro hper
          by_contra hne
          exact hbins ⟨hper, hne⟩
        rw [if_neg (not_not.mpr hkind), if_neg hbins, Except.ok.injEq]
        exact ⟨fun h => ⟨⟨hkind, hslots⟩, h.symm⟩, fun h => h.2.symm⟩
    · simp [hkind]

end Registry

variable [Scalar K]

/-- A declaration in a sample of the given number of bins says what the modifier says,
whose luminosity width, if it has one, is that of the settings. -/
def Declaration.Says (config : Option (MeasurementConfig K)) (bins : ℕ) (d : Declaration K)
    (m : Modifier K) : Prop :=
  ∃ m₀, Modifier.ofDeclaration d = .ok m₀ ∧ m₀.Fits bins ∧ m = m₀.withWidth config

/-- A modifier that is read from a declaration has the declared name and the kind of the
declared type, and its data is what the kind reads from the declared data. -/
theorem Modifier.ofDeclaration_eq_ok_iff {d : Declaration K} {m : Modifier K} :
    Modifier.ofDeclaration d = .ok m ↔
      m.name = d.name ∧ ∃ kind, ModifierKind.ofName? d.type = some kind ∧
        Payload.ofJson? kind d.data = some m.payload := by
  unfold ofDeclaration
  cases hk : ModifierKind.ofName? d.type with
  | none => simp
  | some kind =>
    dsimp only [ofDeclarationAs]
    cases hp : Payload.ofJson? kind d.data with
    | none => simp [hp]
    | some payload =>
      simp only [Except.ok.injEq, Option.some.injEq, exists_eq_left']
      constructor
      · rintro rfl
        exact ⟨rfl, hp⟩
      · rintro ⟨hname, hpayload⟩
        cases m
        simp_all

/-- The data of a kind has that kind. -/
theorem Payload.kind_of_ofJson? {kind : ModifierKind} {data : Json K} {payload : Payload K}
    (h : Payload.ofJson? kind data = some payload) : payload.kind = kind := by
  cases kind <;> simp only [Payload.ofJson?, Option.some.injEq, Option.map_eq_some_iff,
    Option.bind_eq_bind, Option.bind_eq_some_iff, Option.pure_def] at h
  case normfactor | shapefactor | lumi => subst h; rfl
  case shapesys | staterror => obtain ⟨_, _, rfl⟩ := h; rfl
  case normsys | histosys => obtain ⟨_, _, _, _, _, _, rfl⟩ := h; rfl

namespace Declaration

variable {config : Option (MeasurementConfig K)} {bins : ℕ} {d : Declaration K}
  {m : Modifier K}

/-- What a declaration says has the declared name. -/
theorem Says.name (h : d.Says config bins m) : m.name = d.name := by
  obtain ⟨m₀, hread, -, rfl⟩ := h
  rw [Modifier.withWidth_name]
  exact (Modifier.ofDeclaration_eq_ok_iff.mp hread).1

/-- What a declaration says has the kind of the declared type. -/
theorem Says.kind (h : d.Says config bins m) :
    ModifierKind.ofName? d.type = some m.kind := by
  obtain ⟨m₀, hread, -, rfl⟩ := h
  obtain ⟨-, kind, hkind, hpayload⟩ := Modifier.ofDeclaration_eq_ok_iff.mp hread
  rw [Modifier.withWidth_kind, hkind, Modifier.kind, Payload.kind_of_ofJson? hpayload]

/-- What a declaration says fits the bins of its sample. -/
theorem Says.fits (h : d.Says config bins m) : m.Fits bins := by
  obtain ⟨m₀, -, hfits, rfl⟩ := h
  rwa [Modifier.withWidth_fits]

end Declaration

/-- An entry with one more registration merged into it. -/
def Entry.join (e : Entry K) (x : Registration K) : Entry K :=
  e.absorb x.modifier.payload x.nominal x.offset

namespace Registry

/-- The registry after a registration. -/
def enter (r : Registry K) (x : Registration K) : Registry K :=
  { r with
    entries := putEntry (((r.entry? x.modifier.name).getD x.start).join x) r.entries }

/-- The width of a luminosity is no part of what a registration changes. -/
theorem enter_withWidth (r : Registry K) (config : Option (MeasurementConfig K))
    (m : Modifier K) (nominal : List K) (offset : ℕ) :
    r.enter ⟨m.withWidth config, nominal, offset⟩ = r.enter ⟨m, nominal, offset⟩ := by
  simp [enter, Entry.join, Entry.absorb, Registration.start]

/-- A registration succeeds exactly if its declaration is read, the modifier passes the check of its
data and there is an entry that it joins. -/
theorem register_eq_ok_iff_steps {r r' : Registry K} {d : Declaration K} {nominal : List K}
    {offset : ℕ} {channel sample : String} {m : Modifier K} :
    r.register d nominal offset channel sample = .ok (m, r') ↔
      ∃ m₀ e, Modifier.ofDeclaration d = .ok m₀ ∧
        m₀.checkBins channel sample nominal.length = .ok () ∧
        r.entryFor m₀ nominal.length channel sample = .ok e ∧
        m = m₀.withWidth r.config ∧
        r' = { r with entries := putEntry (e.absorb m₀.payload nominal offset) r.entries } := by
  unfold register
  cases Modifier.ofDeclaration d with
  | error f => simp
  | ok m₀ =>
    dsimp only
    cases hcheck : m₀.checkBins channel sample nominal.length with
    | error f => simp [hcheck]
    | ok u =>
      dsimp only
      cases hentry : r.entryFor m₀ nominal.length channel sample with
      | error f => simp [hentry]
      | ok e => simp [hcheck, hentry, eq_comm]

/-- A declaration is entered exactly if it says something that the registry admits; then
the registry changes by the registration of what it says. -/
theorem register_eq_ok_iff {r r' : Registry K} {d : Declaration K} {nominal : List K}
    {offset : ℕ} {channel sample : String} {m : Modifier K} :
    r.register d nominal offset channel sample = .ok (m, r') ↔
      d.Says r.config nominal.length m ∧ r.Admits ⟨m, nominal, offset⟩ ∧
        r' = r.enter ⟨m, nominal, offset⟩ := by
  have henter : ∀ m₀ : Modifier K, r.enter ⟨m₀.withWidth r.config, nominal, offset⟩ =
      r.enter ⟨m₀, nominal, offset⟩ := fun m₀ => r.enter_withWidth r.config m₀ nominal offset
  have hadmits : ∀ m₀ : Modifier K, r.Admits ⟨m₀.withWidth r.config, nominal, offset⟩ ↔
      r.Admits ⟨m₀, nominal, offset⟩ := by
    intro m₀
    simp [Admits]
  rw [register_eq_ok_iff_steps]
  constructor
  · rintro ⟨m₀, e, hread, hcheck, hentry, rfl, rfl⟩
    obtain ⟨hyes, rfl⟩ := (entryFor_eq_ok_iff (x := ⟨m₀, nominal, offset⟩)).mp hentry
    exact ⟨⟨m₀, hread, Modifier.checkBins_eq_ok_iff.mp hcheck, rfl⟩, (hadmits m₀).mpr hyes,
      (henter m₀).symm⟩
  · rintro ⟨⟨m₀, hread, hfits, rfl⟩, hyes, rfl⟩
    exact ⟨m₀, _, hread, Modifier.checkBins_eq_ok_iff.mpr hfits,
      entryFor_eq_ok_iff.mpr ⟨(hadmits m₀).mp hyes, rfl⟩, rfl, henter m₀⟩

end Registry

end BinnedModel
