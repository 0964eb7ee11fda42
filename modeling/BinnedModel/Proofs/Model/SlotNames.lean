import Mathlib
import BinnedModel.Proofs.Model.Frame

/-!
# Names of parameters

A parameter is named like its modifier, followed by an index in brackets if the modifier has
a parameter per bin. The name can be taken apart again, so two parameters per bin have
different names, and so have two modifiers with one parameter each. Nothing keeps a modifier
with one parameter from being called like a parameter per bin of another modifier, though.
The names are distinct exactly if no modifier is; then each parameter is found under its
name, and the parameter of interest is that of the modifier of this name.
-/

namespace BinnedModel

/-- Two lists that are split behind the last occurrence of one item are split alike. -/
theorem append_cons_inj_of_notMem_right {α : Type} {x : α} {a b u v : List α}
    (h : a ++ x :: u = b ++ x :: v) (hu : x ∉ u) (hv : x ∉ v) : a = b ∧ u = v := by
  rcases List.append_eq_append_iff.mp h with ⟨w, hb, hw⟩ | ⟨w, ha, hw⟩
  · cases w with
    | nil => exact ⟨by rw [hb, List.append_nil], (List.cons.inj hw).2⟩
    | cons y w =>
      have hmem : x ∈ u := by
        rw [(List.cons.inj hw).2]
        exact List.mem_append_right _ List.mem_cons_self
      exact absurd hmem hu
  · cases w with
    | nil => exact ⟨by rw [ha, List.append_nil], (List.cons.inj hw).2.symm⟩
    | cons y w =>
      have hmem : x ∈ v := by
        rw [(List.cons.inj hw).2]
        exact List.mem_append_right _ List.mem_cons_self
      exact absurd hmem hv

/-- A name with an index in brackets is taken apart at its last opening bracket. -/
theorem indexed_inj {a b : String} {k l : ℕ}
    (h : a ++ "[" ++ toString k ++ "]" = b ++ "[" ++ toString l ++ "]") : a = b ∧ k = l := by
  have hdigits : ∀ n : ℕ, '[' ∉ (toString n).toList ++ [']'] := by
    intro n hmem
    rcases List.mem_append.mp hmem with hmem | hmem
    · have hrepr : (toString n).toList = Nat.toDigits 10 n := Nat.toList_repr
      rw [hrepr] at hmem
      have hdigit := Nat.isDigit_of_mem_toDigits (by decide) (by decide) hmem
      revert hdigit
      decide
    · simp at hmem
  have hchars : ∀ (s : String) (n : ℕ), (s ++ "[" ++ toString n ++ "]").toList =
      s.toList ++ '[' :: ((toString n).toList ++ [']']) := by
    intro s n
    simp only [String.toList_append, List.append_assoc]
    rfl
  have hlist := congrArg String.toList h
  rw [hchars, hchars] at hlist
  obtain ⟨hname, hindex⟩ :=
    append_cons_inj_of_notMem_right hlist (hdigits k) (hdigits l)
  have hrepr : (toString k).toList = (toString l).toList := List.append_cancel_right hindex
  exact ⟨String.toList_inj.mp hname, Nat.repr_injective (String.toList_inj.mp hrepr)⟩

/-- The kinds with a parameter per bin add the index to the name of the modifier. -/
theorem ModifierKind.slotName_eq (kind : ModifierKind) (modifier : String) (k : ℕ) :
    kind.slotName modifier k =
      if kind.isPerBin then modifier ++ "[" ++ toString k ++ "]" else modifier := by
  cases kind <;> rfl

variable {K : Type}

/-- No modifier with one parameter is called like a parameter per bin of a modifier. -/
def Workspace.Unambiguous (ws : Workspace K) : Prop :=
  ∀ s d s' d' kind kind', ws.Declares s d → ws.Declares s' d' →
    ModifierKind.ofName? d.type = some kind → ModifierKind.ofName? d'.type = some kind' →
      kind.isPerBin = false → kind'.isPerBin = true →
        ∀ k < s'.data.length, d.name ≠ kind'.slotName d'.name k

variable [Scalar K]

namespace Model.Built

variable {ws : Workspace K} {o : Options K} {config : Option (MeasurementConfig K)}
  {plans : List (ChannelPlan K)} {t : ParameterTable K} {m : Model K}

/-- A parameter has the name that some declaration gives to it: the declaration is of its
modifier and kind, and the parameter stands at an index of the block of the declaration. -/
theorem exists_slotName (h : Model.Built ws o config plans t m) {i : ℕ} {p : Parameter K}
    (hp : m.parameters[i]? = some p) :
    ∃ s d k, ws.Declares s d ∧ d.name = p.modifier ∧
      ModifierKind.ofName? d.type = some p.kind ∧ k < p.kind.width s.data.length ∧
      i = m.slotOf p.modifier + k ∧ p.name = p.kind.slotName p.modifier k := by
  obtain ⟨e, k, hgroup, hname, hk, hi, hparameter⟩ := h.exists_parameter hp
  obtain ⟨hlabel, -, hkind, -⟩ := Entry.parameter_label hparameter
  obtain ⟨x, hx, hxname⟩ := Entry.exists_registration hgroup
  rw [← hxname] at hgroup
  obtain ⟨-, hekind, hslots⟩ := Entry.spec_of_ofGroup h.agree hx hgroup
  obtain ⟨s, d, hd, hstated, hnominal⟩ := Workspace.exists_declares h.reads hx
  have hpkind : p.kind = x.modifier.kind := hkind.trans hekind
  refine ⟨s, d, k, hd, hstated.name.symm.trans hxname, hpkind ▸ hstated.kind, ?_, hi, ?_⟩
  · rw [hslots, Registration.slots, ← ModifierKind.width_eq, hnominal] at hk
    rw [hpkind]
    exact hk
  · rw [hlabel, Entry.slotName, ModifierKind.slotName_eq, hname, hkind]

/-- A declaration has a parameter of its name and kind at each index of its block. -/
theorem exists_parameter_of_declares (h : Model.Built ws o config plans t m) {s : Sample K}
    {d : Declaration K} (hd : ws.Declares s d) {kind : ModifierKind}
    (hkind : ModifierKind.ofName? d.type = some kind) {k : ℕ}
    (hk : k < kind.width s.data.length) :
    ∃ p, m.parameters[m.slotOf d.name + k]? = some p ∧ p.modifier = d.name ∧
      p.kind = kind ∧ p.name = kind.slotName d.name k := by
  obtain ⟨x, hx, hstated, hnominal, -⟩ := hd.exists_registration h.reads
  have hxkind : x.modifier.kind = kind := by
    rw [hstated.kind, Option.some.injEq] at hkind
    exact hkind
  obtain ⟨hle, hblock⟩ := h.block hd hstated
  rw [Modifier.slotsIn_eq, hxkind] at hle hblock
  have hp := List.getElem?_eq_getElem (show m.slotOf d.name + k < m.parameters.length by omega)
  have hmodifier := (hblock _ _ hp).mpr ⟨by omega, by omega⟩
  have hpkind := (h.kind_eq hp hd hmodifier hstated).symm.trans hxkind
  obtain ⟨s', d', l, -, -, -, -, hi, hname⟩ := h.exists_slotName hp
  rw [hmodifier] at hi
  obtain rfl : k = l := by omega
  rw [hmodifier, hpkind] at hname
  exact ⟨_, hp, hmodifier, hpkind, hname⟩

/-- A modifier with one parameter has it at its slot, under its own name. -/
theorem exists_single (h : Model.Built ws o config plans t m) {s : Sample K}
    {d : Declaration K} (hd : ws.Declares s d) {kind : ModifierKind}
    (hkind : ModifierKind.ofName? d.type = some kind) (hsingle : kind.isPerBin = false) :
    ∃ p, m.parameters[m.slotOf d.name]? = some p ∧ p.modifier = d.name ∧ p.kind = kind ∧
      p.name = d.name := by
  have hwidth : 0 < kind.width s.data.length := by
    rw [ModifierKind.width_eq, hsingle]
    exact Nat.one_pos
  obtain ⟨p, hp, hmodifier, hpkind, hname⟩ := h.exists_parameter_of_declares hd hkind hwidth
  rw [ModifierKind.slotName_eq, hsingle] at hname
  exact ⟨p, hp, hmodifier, hpkind, hname⟩

/-- Two parameters of one name stand at one index if their kinds are both per bin or both
not; otherwise one of the modifiers is called like a parameter of the other. -/
theorem index_eq_of_name_eq (h : Model.Built ws o config plans t m)
    (hdistinct : ws.Unambiguous) {i j : ℕ} {p q : Parameter K}
    (hp : m.parameters[i]? = some p) (hq : m.parameters[j]? = some q)
    (hname : p.name = q.name) : i = j := by
  obtain ⟨s, d, k, hd, hmodifier, hkind, hk, hi, hpname⟩ := h.exists_slotName hp
  obtain ⟨s', d', l, hd', hmodifier', hkind', hl, hj, hqname⟩ := h.exists_slotName hq
  rw [ModifierKind.width_eq] at hk hl
  cases hper : p.kind.isPerBin with
  | false =>
    rw [hper] at hk
    rw [hpname, ModifierKind.slotName_eq, hper] at hname
    cases hper' : q.kind.isPerBin with
    | false =>
      rw [hper'] at hl
      rw [hqname, ModifierKind.slotName_eq, hper'] at hname
      have heq : p.modifier = q.modifier := hname
      have hk0 : k < 1 := hk
      have hl0 : l < 1 := hl
      rw [hi, hj, heq]
      omega
    | true =>
      rw [hper'] at hl
      refine absurd ?_ (hdistinct s d s' d' _ _ hd hd' hkind hkind' hper hper' l hl)
      rw [hmodifier, hmodifier', ← hqname]
      exact hname
  | true =>
    rw [hper] at hk
    cases hper' : q.kind.isPerBin with
    | false =>
      rw [hqname, ModifierKind.slotName_eq, hper'] at hname
      refine absurd ?_ (hdistinct s' d' s d _ _ hd' hd hkind' hkind hper' hper k hk)
      rw [hmodifier, hmodifier', ← hpname]
      exact hname.symm
    | true =>
      rw [hpname, hqname, ModifierKind.slotName_eq, ModifierKind.slotName_eq, hper, hper']
        at hname
      obtain ⟨heq, rfl⟩ := indexed_inj hname
      rw [hi, hj, heq]

/-- The names of the parameters are distinct exactly if no modifier with one parameter is
called like a parameter per bin. -/
theorem nodup_names_iff (h : Model.Built ws o config plans t m) :
    m.names.Nodup ↔ ws.Unambiguous := by
  rw [Model.names, List.nodup_iff_getElem?_ne_getElem?]
  constructor
  · intro hnodup s d s' d' kind kind' hd hd' hkind hkind' hsingle hper k hk hname
    obtain ⟨p, hp, hpmodifier, hpkind, hpname⟩ := h.exists_single hd hkind hsingle
    have hwidth : k < kind'.width s'.data.length := by
      rw [ModifierKind.width_eq, hper]
      exact hk
    obtain ⟨q, hq, hqmodifier, hqkind, hqname⟩ :=
      h.exists_parameter_of_declares hd' hkind' hwidth
    have hnames : (m.parameters.map (·.name))[m.slotOf d.name]? =
        (m.parameters.map (·.name))[m.slotOf d'.name + k]? := by
      rw [List.getElem?_map, List.getElem?_map, hp, hq, Option.map_some, Option.map_some,
        hpname, hqname, hname]
    have hlt := (List.getElem?_eq_some_iff.mp hp).1
    have hlt' := (List.getElem?_eq_some_iff.mp hq).1
    rcases Nat.lt_trichotomy (m.slotOf d.name) (m.slotOf d'.name + k) with hij | hij | hij
    · exact hnodup _ _ hij (by rwa [List.length_map]) hnames
    · rw [hij, hq, Option.some.injEq] at hp
      rw [← hpkind, ← hp, hqkind, hper] at hsingle
      cases hsingle
    · exact hnodup _ _ hij (by rwa [List.length_map]) hnames.symm
  · intro hdistinct i j hij hj hnames
    rw [List.length_map] at hj
    have hp := List.getElem?_eq_getElem (show i < m.parameters.length by omega)
    have hq := List.getElem?_eq_getElem hj
    rw [List.getElem?_map, List.getElem?_map, hp, hq, Option.map_some, Option.map_some,
      Option.some.injEq] at hnames
    have heq := h.index_eq_of_name_eq hdistinct hp hq hnames
    omega

/-- If no name is ambiguous, each parameter is found under its name. -/
theorem index?_eq (h : Model.Built ws o config plans t m) (hdistinct : ws.Unambiguous)
    {i : ℕ} {p : Parameter K} (hp : m.parameters[i]? = some p) :
    m.index? p.name = some i := by
  obtain ⟨hlt, rfl⟩ := List.getElem?_eq_some_iff.mp hp
  refine List.findIdx?_eq_some_iff_getElem.mpr ⟨hlt, by simp, fun j hj => ?_⟩
  intro hname
  have hq := List.getElem?_eq_getElem (show j < m.parameters.length by omega)
  have heq := h.index_eq_of_name_eq hdistinct hq hp (by simpa using hname)
  omega

/-- The parameter of interest is what the selected measurement states, unless that is
empty. -/
theorem poi_eq (h : Model.Built ws o config plans t m) {x : Measurement K}
    (hx : ws.measurement? o.measurement = some x) (hpoi : x.config.poi ≠ "") :
    m.poi = some x.config.poi := by
  have hconfig : config = some x.config := by
    have hsettings := h.settings
    unfold Workspace.settings at hsettings
    rw [hx] at hsettings
    split at hsettings
    · next hnone => cases hnone
    · next hsome => exact (Except.ok.inj hsettings).symm
  rw [h.model, hconfig]
  simpa [Option.filter] using hpoi

end Model.Built

/-- The names of the parameters of a model that has been built are distinct exactly if no
modifier with one parameter is called like a parameter per bin. Then each parameter is found
under its name, and if the selected measurement states a modifier with one parameter as the
parameter of interest, then this parameter is found, at the slot of the modifier. -/
theorem Model.names_identify_iff {ws : Workspace K} {o : Options K} {m : Model K}
    (h : Model.build ws o = .ok m) :
    (m.names.Nodup ↔ ws.Unambiguous) ∧
    (ws.Unambiguous →
      (∀ i name, m.names[i]? = some name → m.index? name = some i) ∧
      ∀ s d kind x, ws.Declares s d → ModifierKind.ofName? d.type = some kind →
        kind.isPerBin = false → ws.measurement? o.measurement = some x → d.name ≠ "" →
          x.config.poi = d.name → m.poiIndex? = some (m.slotOf d.name)) := by
  obtain ⟨config, plans, t, hbuilt⟩ := Model.build_eq_ok_iff.mp h
  refine ⟨hbuilt.nodup_names_iff, fun hdistinct => ⟨fun i name hname => ?_, ?_⟩⟩
  · rw [Model.names, List.getElem?_map, Option.map_eq_some_iff] at hname
    obtain ⟨p, hp, rfl⟩ := hname
    exact hbuilt.index?_eq hdistinct hp
  · intro s d kind x hd hkind hsingle hx hne hpoi
    obtain ⟨p, hp, -, -, hname⟩ := hbuilt.exists_single hd hkind hsingle
    have hstated := hbuilt.poi_eq hx (hpoi ▸ hne)
    rw [Model.poiIndex?, hstated, hpoi, Option.bind_some, ← hname]
    exact hname ▸ hbuilt.index?_eq hdistinct hp

/-- The names of the two regions are distinct, so the second statistical factor is found
under its name, and so is the signal strength as the parameter of interest. -/
theorem Model.names_twoRegions :
    ∃ m, Model.build Workspace.twoRegions Options.standard = .ok m ∧ m.names.Nodup ∧
      Workspace.twoRegions.Unambiguous ∧ m.index? "counts[1]" = some 3 ∧
        m.poiIndex? = some (m.slotOf "mu") := by
  have hnames : ((Model.build Workspace.twoRegions Options.standard).toOption.map
      Model.names) = some ["mu", "luminosity", "counts[0]", "counts[1]", "scale", "rate",
        "shape[0]", "uncorrelated[0]"] := by decide +kernel
  obtain ⟨m, hm, hlist⟩ := Option.map_eq_some_iff.mp hnames
  have hbuild := toOption_eq_some_iff.mp hm
  have hnodup : m.names.Nodup := by
    rw [hlist]
    decide
  obtain ⟨hiff, hfound⟩ := Model.names_identify_iff hbuild
  obtain ⟨hindex, hpoi⟩ := hfound (hiff.mp hnodup)
  have hsecond : m.names[3]? = some "counts[1]" := by
    rw [hlist]
    rfl
  have hsample : ∃ s, Workspace.twoRegions.Declares s (.normfactor "mu") :=
    ⟨_, Workspace.declares_iff.mpr ⟨⟨0, 0, 0⟩, rfl⟩⟩
  obtain ⟨s, hdeclared⟩ := hsample
  exact ⟨m, hbuild, hnodup, hiff.mp hnodup, hindex 3 _ hsecond,
    hpoi _ _ _ _ hdeclared rfl rfl rfl (by decide) rfl⟩

/-- One sample over two bins with a factor per bin and a factor for both bins, which is
called like the first factor per bin and is the parameter of interest. -/
def Workspace.ambiguous : Workspace Float :=
  { channels := [⟨"c", [⟨"s", [1, 2], [.shapefactor "x", .normfactor "x[0]"]⟩]⟩]
    observations := []
    measurements := [⟨"m", "x[0]", []⟩]
    version := none }

/-- A model is built although one name is ambiguous: two parameters have this name, the
later one is not found under it, and the parameter of interest that is found is the factor of
the first bin. -/
theorem Model.names_ambiguous :
    ∃ m, Model.build Workspace.ambiguous Options.standard = .ok m ∧
      m.names = ["x[0]", "x[1]", "x[0]"] ∧ ¬ m.names.Nodup ∧ m.index? "x[0]" = some 0 ∧
        m.poi = some "x[0]" ∧ m.poiIndex? = some 0 ∧ m.slotOf "x[0]" = 2 := by
  have hmodel : ((Model.build Workspace.ambiguous Options.standard).toOption.map fun m =>
      (m.names, m.poi, m.index? "x[0]", m.slotOf "x[0]")) =
        some (["x[0]", "x[1]", "x[0]"], some "x[0]", some 0, 2) := by decide +kernel
  obtain ⟨m, hm, hvalues⟩ := Option.map_eq_some_iff.mp hmodel
  simp only [Prod.mk.injEq] at hvalues
  obtain ⟨hnames, hpoi, hindex, hslot⟩ := hvalues
  refine ⟨m, toOption_eq_some_iff.mp hm, hnames, by rw [hnames]; decide, hindex, hpoi, ?_, hslot⟩
  rw [Model.poiIndex?, hpoi]
  exact hindex

end BinnedModel
