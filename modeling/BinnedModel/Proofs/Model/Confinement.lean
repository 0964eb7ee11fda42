import Mathlib
import BinnedModel.Proofs.Model.Frame
import BinnedModel.Proofs.Model.WellFormed

/-!
# What settings can change

A measurement and the options reach many places on the way to a model: the width of a luminosity
is stored in its modifier, and intervals, centres, widths and starting values go into the
parameters. This module compares two builds from the same channels under different settings.
Without the widths of its luminosities, what is read from the channels does not depend on the
settings at all, and neither do the entries of the registry. So the layout, the labels of the
parameters and the yields are the same in both models, and a parameter differs only if the
settings for its own modifier do, or the interval of free parameters.
-/

namespace BinnedModel

variable {K : Type}

/-- A modifier without the width that the settings give to a luminosity. -/
def Modifier.unmeasured (m : Modifier K) : Modifier K :=
  m.withWidth none

/-- A width that is taken away leaves no trace of the settings that gave it. -/
theorem Modifier.unmeasured_withWidth (config : Option (MeasurementConfig K))
    (m : Modifier K) : (m.withWidth config).unmeasured = m.unmeasured := by
  unfold unmeasured withWidth
  cases hpayload : m.payload <;> simp [hpayload]

/-- A registration without the width of its luminosity. -/
def Registration.unmeasured (x : Registration K) : Registration K :=
  { x with modifier := x.modifier.unmeasured }

/-- A sample with its modifiers read, without the widths of luminosities. -/
def SamplePlan.unmeasured (p : SamplePlan K) : SamplePlan K :=
  ⟨p.nominal, p.modifiers.map Modifier.unmeasured⟩

/-- A channel with its samples read, without the widths of luminosities. -/
def ChannelPlan.unmeasured (p : ChannelPlan K) : ChannelPlan K :=
  { p with samples := p.samples.map fun s => (s.1, s.2.unmeasured) }

/-- The registrations of a channel lose the widths that its plan loses. -/
theorem ChannelPlan.registrations_unmeasured (p : ChannelPlan K) :
    p.unmeasured.registrations = p.registrations.map Registration.unmeasured := by
  have hsample : ∀ s : SamplePlan K, s.unmeasured.registrations p.offset =
      (s.registrations p.offset).map Registration.unmeasured := by
    intro s
    rw [SamplePlan.registrations, SamplePlan.registrations, SamplePlan.unmeasured, List.map_map,
      List.map_map]
    rfl
  rw [registrations, registrations, unmeasured, List.map_flatMap, List.flatMap_map]
  exact List.flatMap_congr fun s _ => hsample s.2

/-- What a parameter is called and where it acts: its name, the name and the kind of its
modifier, and its bins. -/
def Parameter.label (p : Parameter K) : String × String × ModifierKind × List ℕ :=
  (p.name, p.modifier, p.kind, p.bins)

variable [Scalar K]

section Reading

variable {config config' : Option (MeasurementConfig K)}

/-- Without its width a modifier is what its declaration says without settings. -/
theorem Declaration.Says.unmeasured {bins : ℕ} {d : Declaration K} {m : Modifier K}
    (h : d.Says config bins m) : d.Says none bins m.unmeasured := by
  obtain ⟨m₀, hread, hfits, rfl⟩ := h
  exact ⟨m₀, hread, hfits, Modifier.unmeasured_withWidth config m₀⟩

/-- Two plans of a sample are the same without the widths of luminosities. -/
theorem Sample.Reads.unmeasured_eq {s : Sample K} {q q' : String × SamplePlan K}
    (h : s.Reads config q) (h' : s.Reads config' q') :
    (q.1, q.2.unmeasured) = (q'.1, q'.2.unmeasured) := by
  have hname : q.1 = q'.1 := h.name.trans h'.name.symm
  have hnominal : q.2.nominal = q'.2.nominal := h.nominal.trans h'.nominal.symm
  have hmodifiers : q.2.modifiers.map Modifier.unmeasured =
      q'.2.modifiers.map Modifier.unmeasured :=
    map_eq_map_of_common h.modifiers h'.modifiers fun d m m' hm hm' =>
      hm.unmeasured.unique hm'.unmeasured
  rw [hname, SamplePlan.unmeasured, SamplePlan.unmeasured, hnominal, hmodifiers]

/-- Two plans of a channel at one place are the same without the widths of luminosities. -/
theorem Channel.Reads.unmeasured_eq {c : Channel K} {p p' : ChannelPlan K}
    (h : c.Reads config p) (h' : c.Reads config' p') (hoffset : p.offset = p'.offset) :
    p.unmeasured = p'.unmeasured := by
  have hname : p.name = p'.name := h.name.trans h'.name.symm
  have hbins : p.bins = p'.bins := h.bins.trans h'.bins.symm
  have hsamples : (p.samples.map fun s => (s.1, s.2.unmeasured)) =
      p'.samples.map fun s => (s.1, s.2.unmeasured) :=
    map_eq_map_of_common h.samples h'.samples fun s q q' hq hq' => hq.unmeasured_eq hq'
  rw [ChannelPlan.unmeasured, ChannelPlan.unmeasured, hname, hbins, hoffset, hsamples]

/-- Two lists of plans for the same channels at the same places are the same without the widths
of luminosities. -/
theorem map_unmeasured_of_reads {cs : List (Channel K)} {plans plans' : List (ChannelPlan K)}
    (h : List.Forall₂ (Channel.Reads config) cs plans)
    (h' : List.Forall₂ (Channel.Reads config') cs plans')
    (hoffsets : plans.map (·.offset) = plans'.map (·.offset)) :
    plans.map ChannelPlan.unmeasured = plans'.map ChannelPlan.unmeasured := by
  induction h generalizing plans' with
  | nil =>
    cases h'
    rfl
  | cons hp _ ih =>
    cases h' with
    | cons hp' hrest' =>
      rw [List.map_cons, List.map_cons, List.cons.injEq] at hoffsets
      have hfirst := hp.unmeasured_eq hp' hoffsets.1
      have hrest := ih hrest' hoffsets.2
      rw [List.map_cons, List.map_cons, hfirst, hrest]

end Reading

namespace Registry

/-- A registration enters the same entry without the width of its luminosity. -/
theorem enter_unmeasured (r : Registry K) (x : Registration K) :
    r.enter x.unmeasured = r.enter x :=
  r.enter_withWidth none x.modifier x.nominal x.offset

/-- Registrations enter the same entries without the widths of their luminosities. -/
theorem enterAll_unmeasured (r : Registry K) (xs : List (Registration K)) :
    r.enterAll (xs.map Registration.unmeasured) = r.enterAll xs := by
  induction xs generalizing r with
  | nil => rfl
  | cons x xs ih =>
    change (r.enter x.unmeasured).enterAll (xs.map Registration.unmeasured) =
      (r.enter x).enterAll xs
    rw [enter_unmeasured, ih]

/-- The entries that registrations make do not depend on the settings. -/
theorem entries_enterAll {r r' : Registry K} (h : r.entries = r'.entries)
    (xs : List (Registration K)) : (r.enterAll xs).entries = (r'.enterAll xs).entries := by
  induction xs generalizing r r' with
  | nil => exact h
  | cons x xs ih =>
    have hstep : (r.enter x).entries = (r'.enter x).entries := by
      unfold enter entry?
      rw [h]
    exact ih hstep

end Registry

/-- The labels of the parameters of an entry. -/
def Entry.labels (e : Entry K) : List (String × String × ModifierKind × List ℕ) :=
  (List.range e.slots).map fun k => (e.slotName k, e.name, e.kind, e.bins.getD k [])

/-- The parameters of an entry have its labels, whatever the settings say. -/
theorem Entry.map_label_parameters {e : Entry K} {settings : Option (ParameterConfig K)}
    {o : Options K} {block : List (Parameter K)} (h : e.parameters settings o = .ok block) :
    block.map Parameter.label = e.labels := by
  refine (map_eq_map_of_forall₂ ((mapM_eq_ok_iff.mp h).imp fun k p hp => ?_)).symm
  obtain ⟨hname, hmodifier, hkind, hbins⟩ := parameter_label hp
  rw [Parameter.label, hname, hmodifier, hkind, hbins]

/-- The parameters of a table have the labels of the entries, whatever the settings say. -/
theorem Registry.map_label_parameters {r : Registry K} {o : Options K} {t : ParameterTable K}
    (h : r.table o = .ok t) :
    t.parameters.map Parameter.label = r.entries.flatMap Entry.labels := by
  obtain ⟨blocks, hblocks, rfl⟩ := table_eq_ok_iff.mp h
  have hlabels : r.entries.map Entry.labels = blocks.map (List.map Parameter.label) :=
    map_eq_map_of_forall₂ (hblocks.imp fun e block hblock =>
      (Entry.map_label_parameters hblock).symm)
  rw [List.map_flatten, List.flatMap_def, hlabels]

/-- Of the options a parameter depends on the interval of free parameters only. -/
theorem Entry.parameter_congr (e : Entry K) {settings : Option (ParameterConfig K)}
    {o o' : Options K} (hinterval : o.freeInterval = o'.freeInterval) (k : ℕ) :
    e.parameter settings o k = e.parameter settings o' k := by
  unfold parameter prior freePrior
  rw [hinterval]

/-- A modifier has the same effect without the width of its luminosity, and under all options
with the same interpolation of factors. -/
theorem Modifier.effectAt_unmeasured (m : Modifier K) {o o' : Options K}
    (hcode : o.multiplicative = o'.multiplicative) (slot bins : ℕ) :
    m.unmeasured.effectAt o slot bins = m.effectAt o' slot bins := by
  unfold unmeasured withWidth effectAt
  rw [hcode]
  cases hpayload : m.payload <;> simp [hpayload]

/-- A channel has the same yields without the widths of its luminosities, and under all options
with the same interpolation of factors. -/
theorem ChannelPlan.yieldsAt_unmeasured (p : ChannelPlan K) {o o' : Options K}
    (hcode : o.multiplicative = o'.multiplicative) (slot : String → ℕ) :
    p.unmeasured.yieldsAt o slot = p.yieldsAt o' slot := by
  have hsample : ∀ s : SamplePlan K, s.unmeasured.yieldsAt o slot = s.yieldsAt o' slot := by
    intro s
    rw [SamplePlan.yieldsAt, SamplePlan.yieldsAt, SamplePlan.unmeasured, List.map_map]
    refine congrArg (SampleYields.mk s.nominal) (List.map_congr_left fun m _ => ?_)
    have hname : m.unmeasured.name = m.name := Modifier.withWidth_name none m
    rw [Function.comp_apply, hname]
    exact m.effectAt_unmeasured hcode _ _
  rw [yieldsAt, yieldsAt, unmeasured, List.map_map]
  exact congrArg (ChannelYields.mk p.bins) (List.map_congr_left fun s _ => hsample s.2)

omit [Scalar K] in
/-- A channel has the same layout without the widths of its luminosities. -/
theorem ChannelPlan.layout_unmeasured (p : ChannelPlan K) : p.unmeasured.layout = p.layout := by
  rw [layout, layout, unmeasured, List.map_map]
  rfl

namespace Model.Built

variable {ws ws' : Workspace K} {o o' : Options K} {config config' : Option (MeasurementConfig K)}
  {plans plans' : List (ChannelPlan K)} {t t' : ParameterTable K} {m m' : Model K}

/-- From the same channels the same plans are made, but for the widths of luminosities. -/
theorem map_unmeasured_eq (h : Model.Built ws o config plans t m)
    (h' : Model.Built ws' o' config' plans' t' m') (hchannels : ws.channels = ws'.channels) :
    plans.map ChannelPlan.unmeasured = plans'.map ChannelPlan.unmeasured := by
  have hreads' := h'.reads
  rw [← hchannels] at hreads'
  have hbins : plans.map (·.bins) = plans'.map (·.bins) :=
    map_eq_map_of_common h.reads hreads' fun c p p' hp hp' => hp.bins.trans hp'.bins.symm
  have hoffsets : plans.map (·.offset) = plans'.map (·.offset) := by
    rw [h.offsets, h'.offsets, hbins]
  exact map_unmeasured_of_reads h.reads hreads' hoffsets

/-- From the same channels the same entries are made. -/
theorem entries_eq (h : Model.Built ws o config plans t m)
    (h' : Model.Built ws' o' config' plans' t' m') (hchannels : ws.channels = ws'.channels) :
    ((Registry.empty config).enterAll (plans.flatMap (·.registrations))).entries =
      ((Registry.empty config').enterAll (plans'.flatMap (·.registrations))).entries := by
  have hmap : ∀ ps : List (ChannelPlan K),
      (ps.flatMap (·.registrations)).map Registration.unmeasured =
        (ps.map ChannelPlan.unmeasured).flatMap (·.registrations) := by
    intro ps
    rw [List.map_flatMap, List.flatMap_map]
    exact List.flatMap_congr fun p _ => p.registrations_unmeasured.symm
  rw [← Registry.enterAll_unmeasured, hmap, h.map_unmeasured_eq h' hchannels, ← hmap,
    Registry.enterAll_unmeasured]
  have hstart : (Registry.empty config).entries = (Registry.empty config').entries := rfl
  exact Registry.entries_enterAll hstart _

/-- From the same channels the same labels are made. -/
theorem map_label_eq (h : Model.Built ws o config plans t m)
    (h' : Model.Built ws' o' config' plans' t' m') (hchannels : ws.channels = ws'.channels) :
    m.parameters.map Parameter.label = m'.parameters.map Parameter.label := by
  rw [h.parameters_eq, h'.parameters_eq, Registry.map_label_parameters h.table,
    Registry.map_label_parameters h'.table, h.entries_eq h' hchannels]

/-- From the same channels the parameters of each name start at the same slot. -/
theorem slotOf_congr (h : Model.Built ws o config plans t m)
    (h' : Model.Built ws' o' config' plans' t' m') (hchannels : ws.channels = ws'.channels) :
    m.slotOf = m'.slotOf := by
  have hslot : ∀ (u : Model K) (name : String),
      u.slotOf name = (u.parameters.map Parameter.label).findIdx fun l => l.2.1 == name := by
    intro u name
    rw [List.findIdx_map]
    rfl
  funext name
  rw [hslot, hslot, h.map_label_eq h' hchannels]

/-- From the same channels the same layouts are made. -/
theorem layouts_congr (h : Model.Built ws o config plans t m)
    (h' : Model.Built ws' o' config' plans' t' m') (hchannels : ws.channels = ws'.channels) :
    m.channels = m'.channels := by
  have hlayouts : ∀ ps : List (ChannelPlan K),
      ps.map (·.layout) = (ps.map ChannelPlan.unmeasured).map (·.layout) := by
    intro ps
    rw [List.map_map]
    exact List.map_congr_left fun p _ => p.layout_unmeasured.symm
  rw [h.layouts_eq, h'.layouts_eq, hlayouts plans, hlayouts plans',
    h.map_unmeasured_eq h' hchannels]

/-- From the same channels and with the same interpolation the same yields are made. -/
theorem yields_eq (h : Model.Built ws o config plans t m)
    (h' : Model.Built ws' o' config' plans' t' m') (hchannels : ws.channels = ws'.channels)
    (hmultiplicative : o.multiplicative = o'.multiplicative)
    (hadditive : o.additive = o'.additive) : m.yields = m'.yields := by
  have hplans := h.map_unmeasured_eq h' hchannels
  have hslot : t.slotOf = t'.slotOf := by
    rw [← h.slotOf_eq, ← h'.slotOf_eq, h.slotOf_congr h' hchannels]
  have hcount : t.parameters.length = t'.parameters.length := by
    have hlabels := congrArg List.length (h.map_label_eq h' hchannels)
    rw [List.length_map, List.length_map, h.parameters_eq, h'.parameters_eq] at hlabels
    exact hlabels
  have hyields : (plans.map fun p => p.yieldsAt o t.slotOf) =
      plans'.map fun p => p.yieldsAt o' t'.slotOf := by
    have hmap : ∀ (ps : List (ChannelPlan K)) (o₁ : Options K),
        o.multiplicative = o₁.multiplicative → (ps.map fun p => p.yieldsAt o₁ t.slotOf) =
          (ps.map ChannelPlan.unmeasured).map fun p => p.yieldsAt o t.slotOf := by
      intro ps o₁ hcode
      rw [List.map_map]
      exact List.map_congr_left fun p _ => (p.yieldsAt_unmeasured hcode t.slotOf).symm
    rw [← hslot, hmap plans o rfl, hmap plans' o' hmultiplicative, hplans]
  have hbins : plans.map (·.bins) = plans'.map (·.bins) := by
    have hall := congrArg (List.map ChannelPlan.bins) hplans
    rw [List.map_map, List.map_map] at hall
    exact hall
  rw [h.model, h'.model, hyields, hcount, hbins, hadditive]

/-- From the same channels, with the same interval of free parameters and the same settings for
its modifier, the same parameter is made. -/
theorem parameter_congr (h : Model.Built ws o config plans t m)
    (h' : Model.Built ws' o' config' plans' t' m') (hchannels : ws.channels = ws'.channels)
    (hinterval : o.freeInterval = o'.freeInterval) {i : ℕ} {p p' : Parameter K}
    (hp : m.parameters[i]? = some p) (hp' : m'.parameters[i]? = some p')
    (hsettings : ws.parameterConfig? o p.modifier = ws'.parameterConfig? o' p.modifier) :
    p = p' := by
  have hmodifier : p.modifier = p'.modifier := by
    have hlabel := congrArg (fun labels => labels[i]?) (h.map_label_eq h' hchannels)
    simp only [List.getElem?_map, hp, hp', Option.map_some, Option.some.injEq] at hlabel
    exact congrArg (fun l => l.2.1) hlabel
  obtain ⟨e, k, hgroup, -, -, hi, hparameter⟩ := h.exists_parameter hp
  obtain ⟨e', k', hgroup', -, -, hi', hparameter'⟩ := h'.exists_parameter hp'
  have hentry : e = e' := by
    have hfound : Registry.entry? ((Registry.empty config).enterAll
        (plans.flatMap (·.registrations))) p.modifier = Registry.entry? ((Registry.empty
          config').enterAll (plans'.flatMap (·.registrations))) p.modifier := by
      rw [Registry.entry?, Registry.entry?, h.entries_eq h' hchannels]
    rw [Registry.entry?_enterAll_empty, Registry.entry?_enterAll_empty, hgroup, hmodifier,
      hgroup', Option.some.injEq] at hfound
    exact hfound
  have hindex : k = k' := by
    rw [← hmodifier, ← h.slotOf_congr h' hchannels] at hi'
    omega
  rw [h.parameterConfig?_eq, hsettings, e.parameter_congr hinterval] at hparameter
  rw [h'.parameterConfig?_eq, ← hmodifier, ← hentry, ← hindex, hparameter] at hparameter'
  exact Except.ok.inj hparameter'

end Model.Built

/-- Two models that are built from the same channels, under options with the same interpolation
codes, have the same layout, parameters with the same labels, and the same yields at every
vector, whatever the measurements and the other options are. If the intervals of free parameters
are the same too, a modifier for which the selected measurements have the same settings, or
neither has any, has parameters with the same priors and starting values in both, whatever the
settings for other modifiers are. -/
theorem Model.settings_confined {ws ws' : Workspace K} {o o' : Options K} {m m' : Model K}
    (hchannels : ws.channels = ws'.channels)
    (hmultiplicative : o.multiplicative = o'.multiplicative)
    (hadditive : o.additive = o'.additive) (h : Model.build ws o = .ok m)
    (h' : Model.build ws' o' = .ok m') :
    m.channels = m'.channels ∧
    m.parameters.map Parameter.label = m'.parameters.map Parameter.label ∧
    (∀ params, m.yields.eval params = m'.yields.eval params) ∧
    (o.freeInterval = o'.freeInterval →
      ∀ name, ws.parameterConfig? o name = ws'.parameterConfig? o' name →
        ∀ (i : ℕ) (p p' : Parameter K), m.parameters[i]? = some p →
          m'.parameters[i]? = some p' → p.modifier = name →
            p.prior = p'.prior ∧ p.init = p'.init) := by
  obtain ⟨config, plans, t, hbuilt⟩ := Model.build_eq_ok_iff.mp h
  obtain ⟨config', plans', t', hbuilt'⟩ := Model.build_eq_ok_iff.mp h'
  have hyields := hbuilt.yields_eq hbuilt' hchannels hmultiplicative hadditive
  refine ⟨hbuilt.layouts_congr hbuilt' hchannels, hbuilt.map_label_eq hbuilt' hchannels,
    fun params => by rw [hyields], ?_⟩
  intro hinterval name hsettings i p p' hp hp' hname
  rw [← hname] at hsettings
  have hsame := hbuilt.parameter_congr hbuilt' hchannels hinterval hp hp' hsettings
  exact ⟨congrArg (·.prior) hsame, congrArg (·.init) hsame⟩

/-- The two regions under another measurement, with observed counts: the luminosity has no width,
the signal strength has an interval of its own, and the shape is pinned as before. -/
def Workspace.remeasuredRegions : Workspace Float :=
  { Workspace.twoRegions with
    observations := [⟨"signal region", [44, 52]⟩]
    measurements :=
      [⟨"other fit", "rate", [⟨"mu", [2], [(1, 4)], false, [], []⟩,
        ⟨"shape", [1], [], true, [], []⟩]⟩] }

/-- Under both measurements the two regions have the same layout and labels, and the same yields
away from the starting values. The shape, for which both have the same settings, has the same
prior and starting value in both models. -/
theorem Model.confined_twoRegions :
    ∃ m m', Model.build Workspace.twoRegions Options.standard = .ok m ∧
      Model.build Workspace.remeasuredRegions Options.standard = .ok m' ∧
      m.channels = m'.channels ∧
      m.parameters.map Parameter.label = m'.parameters.map Parameter.label ∧
      m.yields.eval [2, 1.5, 0.5, 1, -1, 3, 2, 0.25] =
        m'.yields.eval [2, 1.5, 0.5, 1, -1, 3, 2, 0.25] ∧
      ∃ p p', m.parameters[6]? = some p ∧ m'.parameters[6]? = some p' ∧
        p.prior = p'.prior ∧ p.init = p'.init := by
  have hread : ∀ ws : Workspace Float,
      ((Model.build ws Options.standard).toOption.bind fun m =>
        m.parameters[6]?.map (·.modifier)) = some "shape" →
      ∃ m p, Model.build ws Options.standard = .ok m ∧ m.parameters[6]? = some p ∧
        p.modifier = "shape" := by
    intro ws hname
    obtain ⟨m, hm, hp⟩ := Option.bind_eq_some_iff.mp hname
    obtain ⟨p, hp, hshape⟩ := Option.map_eq_some_iff.mp hp
    exact ⟨m, p, toOption_eq_some_iff.mp hm, hp, hshape⟩
  obtain ⟨m, p, hm, hp, hshape⟩ := hread Workspace.twoRegions (by decide +kernel)
  obtain ⟨m', p', hm', hp', -⟩ := hread Workspace.remeasuredRegions (by decide +kernel)
  have hchannels : Workspace.twoRegions.channels = Workspace.remeasuredRegions.channels := rfl
  obtain ⟨hlayout, hlabels, hyields, hsame⟩ :=
    Model.settings_confined hchannels rfl rfl hm hm'
  have hpinned := hsame rfl "shape" rfl 6 p p' hp hp' hshape
  exact ⟨m, m', hm, hm', hlayout, hlabels, hyields _, p, p', hp, hp', hpinned⟩

end BinnedModel
