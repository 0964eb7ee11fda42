import Mathlib
import BinnedModel.Proofs.Model.Partition
import BinnedModel.Proofs.Scalar.FiniteOrder

/-!
# Well-formed workspaces

Whether a model can be built is decided in many places: by the options, by each channel, by
each declaration, by the registry, which compares declarations from different channels, and
by the priors of the parameters. This module collects all conditions in one definition that
mentions neither a registry nor an order of declarations, and proves that a model is built
exactly from the workspaces that meet it.
-/

namespace BinnedModel

variable {K : Type}

/-- The settings are chosen if a measurement that is asked for exists; they are those of the
measurement that is found. -/
theorem Workspace.settings_eq_ok_iff {ws : Workspace K} {o : Options K}
    {config : Option (MeasurementConfig K)} :
    ws.settings o = .ok config ↔
      (∀ name, o.measurement = some name → ∃ x ∈ ws.measurements, x.name = name) ∧
        config = (ws.measurement? o.measurement).map (·.config) := by
  unfold settings
  cases ho : o.measurement with
  | none => simp [eq_comm]
  | some name =>
    have hfound : ws.measurement? (some name) =
        ws.measurements.find? fun x => x.name == name := rfl
    cases hm : ws.measurement? (some name) with
    | none =>
      rw [hfound, List.find?_eq_none] at hm
      simp only [reduceCtorEq, Option.some.injEq, forall_eq', false_iff]
      rintro ⟨⟨x, hx, hname⟩, -⟩
      exact hm x hx (by simpa using hname)
    | some x =>
      rw [hfound] at hm
      have hx : ∃ x ∈ ws.measurements, x.name = name :=
        ⟨x, List.mem_of_find?_eq_some hm, by simpa using List.find?_some hm⟩
      simp only [Except.ok.injEq, Option.some.injEq, forall_eq', hx, true_and,
        Option.map_some]
      exact eq_comm

variable [Scalar K]

/-- A declaration can be read in a sample of the given number of bins: it has the name of a
kind, data of this kind, and one entry per bin in each histogram of the data. -/
def Declaration.Readable (d : Declaration K) (bins : ℕ) : Prop :=
  ∃ kind payload, ModifierKind.ofName? d.type = some kind ∧
    Payload.ofJson? kind d.data = some payload ∧ ∀ h ∈ payload.histograms, h.length = bins

/-- The settings for a modifier name: the first ones of this name in the selected
measurement. -/
def Workspace.parameterConfig? (ws : Workspace K) (o : Options K) (name : String) :
    Option (ParameterConfig K) :=
  (ws.measurement? o.measurement).bind fun x => x.config.parameter? name

/-- The settings with which a model is built are, name by name, those of the selected
measurement. -/
theorem Model.Built.parameterConfig?_eq {ws : Workspace K} {o : Options K}
    {config : Option (MeasurementConfig K)} {plans : List (ChannelPlan K)}
    {t : ParameterTable K} {m : Model K} (h : Model.Built ws o config plans t m)
    (name : String) : (config.bind fun c => c.parameter? name) = ws.parameterConfig? o name := by
  obtain ⟨-, hconfig⟩ := Workspace.settings_eq_ok_iff.mp h.settings
  rw [hconfig, Option.bind_map]
  rfl

/-- The `k`-th parameter of a free modifier has an interval, from the settings or else from
the options. -/
def FreeAdmissible (settings : Option (ParameterConfig K)) (o : Options K) (k : ℕ) : Prop :=
  let ends := (settings.bind fun s => settingFor? s.bounds k).getD o.freeInterval
  Scalar.Interval ends.1 ends.2

namespace ModifierKind

/-- The settings give the `k`-th parameter of a kind a prior. Only free parameters and
luminosities depend on them; a luminosity without a width is free. -/
def PriorAdmissible (settings : Option (ParameterConfig K)) (o : Options K) (k : ℕ) :
    ModifierKind → Prop
  | normfactor | shapefactor => FreeAdmissible settings o k
  | normsys | histosys | shapesys | staterror => True
  | lumi =>
    match settings.bind fun s => settingFor? s.sigmas 0 with
    | none => FreeAdmissible settings o k
    | some sigma =>
      Scalar.Gaussian ((settings.bind fun s => settingFor? s.auxdata 0).getD 1) sigma

/-- The settings admit the `k`-th parameter of a kind: it has a prior and, if it is pinned,
a finite starting value. -/
def Admissible (settings : Option (ParameterConfig K)) (o : Options K) (k : ℕ)
    (kind : ModifierKind) : Prop :=
  kind.PriorAdmissible settings o k ∧ ((∃ s, settings = some s ∧ s.fixed = true) →
    Scalar.isFinite ((settings.bind fun s => settingFor? s.inits k).getD kind.neutral) = true)

end ModifierKind

/-- The workspaces from which a model can be built under the given options. -/
structure Workspace.WellFormed (ws : Workspace K) (o : Options K) : Prop where
  /-- The interval of free parameters is finite and not reversed. -/
  interval : Scalar.Interval o.freeInterval.1 o.freeInterval.2
  /-- There is a channel. -/
  channels : ws.channels ≠ []
  /-- A measurement that is asked for by name exists. -/
  measurement : ∀ name, o.measurement = some name → ∃ x ∈ ws.measurements, x.name = name
  /-- The channels have distinct names. -/
  names : (ws.channels.map (·.name)).Nodup
  /-- Each channel has samples with distinct names over one number of bins. -/
  regular : ∀ c ∈ ws.channels, c.Regular
  /-- Each declaration can be read. -/
  readable : ∀ s d, ws.Declares s d → d.Readable s.data.length
  /-- Declarations of one name have one kind and, with a parameter per bin, one number of
  bins. -/
  agree : ∀ s d s' d' kind kind', ws.Declares s d → ws.Declares s' d' → d.name = d'.name →
    ModifierKind.ofName? d.type = some kind → ModifierKind.ofName? d'.type = some kind' →
      kind = kind' ∧ (kind.isPerBin = true → s.data.length = s'.data.length)
  /-- The settings admit each parameter of each declaration. -/
  admissible : ∀ s d kind, ws.Declares s d → ModifierKind.ofName? d.type = some kind →
    ∀ k < kind.width s.data.length, kind.Admissible (ws.parameterConfig? o d.name) o k

section Parameters

variable [Scalar.OrdersFinite K] {settings : Option (ParameterConfig K)} {o : Options K}
  {k : ℕ} {e : Entry K}

/-- A free parameter has a prior if its interval is admissible. -/
theorem exists_freePrior_iff :
    (∃ p, freePrior settings o k = .ok p) ↔ FreeAdmissible settings o k :=
  Prior.exists_mkFlat_iff

/-- The prior of a factor per bin exists: where there is no usable width, it is pinned. -/
theorem exists_factorPrior (sigma : K) :
    ∃ p, (if 0 < sigma ∧ Scalar.isFinite sigma = true then Prior.mkNormal 1 sigma
      else Prior.mkFlat 1 1) = .ok p := by
  by_cases hsigma : 0 < sigma ∧ Scalar.isFinite sigma = true
  · rw [if_pos hsigma]
    exact Prior.exists_mkNormal_iff.mpr
      ⟨Scalar.OrdersFinite.finite_one, hsigma.2, hsigma.1⟩
  · rw [if_neg hsigma]
    exact Prior.exists_mkFlat_iff.mpr
      (Scalar.interval_self_iff.mpr Scalar.OrdersFinite.finite_one)

/-- An entry has the prior of a parameter if the settings give one to its kind. -/
theorem Entry.exists_prior_iff :
    (∃ p, e.prior settings o k = .ok p) ↔ e.kind.PriorAdmissible settings o k := by
  have hfactor : ∃ p, (if 0 < e.relativeWidth k ∧ Scalar.isFinite (e.relativeWidth k) = true
      then Prior.mkNormal 1 (e.relativeWidth k) else Prior.mkFlat 1 1) = .ok p :=
    exists_factorPrior _
  have hunit : ∃ p : Prior K, Prior.mkNormal 0 1 = .ok p :=
    Prior.exists_mkNormal_iff.mpr ⟨Scalar.OrdersFinite.finite_zero,
      Scalar.OrdersFinite.finite_one, Scalar.OrdersFinite.zero_lt_one⟩
  unfold prior ModifierKind.PriorAdmissible
  cases e.kind with
  | normfactor => exact exists_freePrior_iff
  | shapefactor => exact exists_freePrior_iff
  | normsys => exact iff_of_true hunit trivial
  | histosys => exact iff_of_true hunit trivial
  | shapesys => exact iff_of_true hfactor trivial
  | staterror => exact iff_of_true hfactor trivial
  | lumi =>
    dsimp only
    cases settings.bind fun s => settingFor? s.sigmas 0 with
    | none => exact exists_freePrior_iff
    | some sigma => exact Prior.exists_mkNormal_iff

/-- An entry has a parameter if the settings admit it. -/
theorem Entry.exists_parameter_iff :
    (∃ p, e.parameter settings o k = .ok p) ↔ e.kind.Admissible settings o k := by
  have hfixed : (∃ s, settings = some s ∧ s.fixed = true) ↔ pinnedBy settings = true := by
    cases settings with
    | none => simp [pinnedBy]
    | some s => simp [pinnedBy]
  have hpinned : (∃ p, Prior.mkFlat (e.startingValue settings k) (e.startingValue settings k) =
      .ok p) ↔ Scalar.isFinite (e.startingValue settings k) = true :=
    Prior.exists_mkFlat_iff.trans Scalar.interval_self_iff
  unfold ModifierKind.Admissible
  rw [← exists_prior_iff, hfixed]
  change _ ↔ (∃ p, e.prior settings o k = .ok p) ∧ (pinnedBy settings = true →
    Scalar.isFinite (e.startingValue settings k) = true)
  rw [← hpinned]
  constructor
  · intro h
    obtain ⟨p, hp⟩ := h
    obtain ⟨prior, hprior, hcase⟩ := parameter_eq_ok_iff.mp hp
    refine ⟨⟨prior, hprior⟩, fun hpin => ?_⟩
    rcases hcase with ⟨-, pinned, hflat, -⟩ | ⟨hfree, -⟩
    · exact ⟨pinned, hflat⟩
    · rw [hpin] at hfree
      cases hfree
  · intro h
    obtain ⟨⟨prior, hprior⟩, hpin⟩ := h
    by_cases hfix : pinnedBy settings = true
    · obtain ⟨pinned, hflat⟩ := hpin hfix
      exact ⟨_, parameter_eq_ok_iff.mpr ⟨prior, hprior, .inl ⟨hfix, pinned, hflat, rfl⟩⟩⟩
    · have hfree : pinnedBy settings = false := by simpa using hfix
      exact ⟨_, parameter_eq_ok_iff.mpr ⟨prior, hprior, .inr ⟨hfree, rfl⟩⟩⟩

end Parameters

variable {config : Option (MeasurementConfig K)}

/-- A declaration says something if it can be read. -/
theorem Declaration.exists_says_iff {d : Declaration K} {bins : ℕ} :
    (∃ m, d.Says config bins m) ↔ d.Readable bins := by
  constructor
  · intro h
    obtain ⟨m, m₀, hread, hfits, -⟩ := h
    obtain ⟨-, kind, hkind, hpayload⟩ := Modifier.ofDeclaration_eq_ok_iff.mp hread
    exact ⟨kind, m₀.payload, hkind, hpayload, hfits⟩
  · intro h
    obtain ⟨kind, payload, hkind, hpayload, hfits⟩ := h
    have hread : Modifier.ofDeclaration d = .ok ⟨d.name, payload⟩ :=
      Modifier.ofDeclaration_eq_ok_iff.mpr ⟨rfl, kind, hkind, hpayload⟩
    exact ⟨_, _, hread, hfits, rfl⟩

/-- A channel of regular form whose declarations can be read has a plan at each offset. -/
theorem Channel.exists_reads {c : Channel K} (hregular : c.Regular)
    (hreadable : ∀ s ∈ c.samples, ∀ d ∈ s.modifiers, d.Readable s.data.length) (offset : ℕ) :
    ∃ p, c.Reads config p ∧ p.offset = offset := by
  have hsample : ∀ s ∈ c.samples, ∃ p, Sample.Reads config s p := by
    intro s hs
    have hall : ∀ d ∈ s.modifiers, ∃ m, Declaration.Says config s.data.length d m :=
      fun d hd => Declaration.exists_says_iff.mpr (hreadable s hs d hd)
    obtain ⟨ms, hms⟩ := exists_forall₂_iff.mpr hall
    exact ⟨(s.name, ⟨s.data, ms⟩), rfl, rfl, hms⟩
  obtain ⟨ps, hps⟩ := exists_forall₂_iff.mpr hsample
  exact ⟨⟨c.name, offset, c.bins, ps⟩, ⟨hregular, rfl, rfl, hps⟩, rfl⟩

/-- Channels that each have a plan at every offset have plans one behind the other. -/
theorem exists_plans {cs : List (Channel K)}
    (h : ∀ c ∈ cs, ∀ offset, ∃ p, Channel.Reads config c p ∧ p.offset = offset) (start : ℕ) :
    ∃ plans, List.Forall₂ (Channel.Reads config) cs plans ∧
      plans.map (·.offset) = blockStarts start (plans.map (·.bins)) := by
  induction cs generalizing start with
  | nil => exact ⟨[], .nil, rfl⟩
  | cons c cs ih =>
    obtain ⟨hc, hcs⟩ := List.forall_mem_cons.mp h
    obtain ⟨p, hp, hoffset⟩ := hc start
    obtain ⟨ps, hps, hoffsets⟩ := ih hcs (start + p.bins)
    refine ⟨p :: ps, .cons hp hps, ?_⟩
    rw [List.map_cons, List.map_cons, blockStarts, hoffset, hoffsets]

section Stages

variable {ws : Workspace K} {o : Options K} {plans : List (ChannelPlan K)}

/-- The registrations agree if the declarations do. -/
theorem agrees_iff (hreads : List.Forall₂ (Channel.Reads config) ws.channels plans) :
    (∀ x ∈ plans.flatMap (·.registrations), ∀ y ∈ plans.flatMap (·.registrations),
      x.Agrees y) ↔
    ∀ s d s' d' kind kind', ws.Declares s d → ws.Declares s' d' → d.name = d'.name →
      ModifierKind.ofName? d.type = some kind → ModifierKind.ofName? d'.type = some kind' →
        kind = kind' ∧ (kind.isPerBin = true → s.data.length = s'.data.length) := by
  constructor
  · intro h s d s' d' kind kind' hd hd' hname hkind hkind'
    obtain ⟨x, hx, hstated, hnominal, -⟩ := hd.exists_registration hreads
    obtain ⟨y, hy, hstated', hnominal', -⟩ := hd'.exists_registration hreads
    rw [hstated.kind, Option.some.injEq] at hkind
    rw [hstated'.kind, Option.some.injEq] at hkind'
    rw [← hkind, ← hkind', ← hnominal, ← hnominal']
    exact h x hx y hy (by rw [hstated.name, hstated'.name, hname])
  · intro h x hx y hy hname
    obtain ⟨s, d, hd, hstated, hnominal⟩ := Workspace.exists_declares hreads hx
    obtain ⟨s', d', hd', hstated', hnominal'⟩ := Workspace.exists_declares hreads hy
    rw [hnominal, hnominal']
    rw [hstated.name, hstated'.name] at hname
    exact h s d s' d' _ _ hd hd' hname hstated.kind hstated'.kind

/-- A registry has a table if each of its entries has all its parameters. -/
theorem Registry.exists_table_iff {r : Registry K} : (∃ t, r.table o = .ok t) ↔
    ∀ e ∈ r.entries, ∀ k < e.slots, ∃ p, e.parameter (r.settings? e.name) o k = .ok p := by
  have hblocks : (∃ t, r.table o = .ok t) ↔ ∃ blocks, List.Forall₂ (fun e block =>
      e.parameters (r.settings? e.name) o = .ok block) r.entries blocks := by
    simp only [table_eq_ok_iff]
    constructor
    · intro h
      obtain ⟨t, blocks, hblocks, -⟩ := h
      exact ⟨blocks, hblocks⟩
    · intro h
      obtain ⟨blocks, hblocks⟩ := h
      exact ⟨_, blocks, hblocks, rfl⟩
  rw [hblocks, exists_forall₂_iff]
  refine forall₂_congr fun e _ => ?_
  unfold Entry.parameters
  rw [exists_mapM_eq_ok_iff]
  simp only [List.mem_range]

/-- The registrations have a table if the settings admit the parameters of each
declaration. -/
theorem exists_table_iff [Scalar.OrdersFinite K]
    (hreads : List.Forall₂ (Channel.Reads config) ws.channels plans)
    (hagree : ∀ x ∈ plans.flatMap (·.registrations), ∀ y ∈ plans.flatMap (·.registrations),
      x.Agrees y) :
    (∃ t, ((Registry.empty config).enterAll (plans.flatMap (·.registrations))).table o =
      .ok t) ↔
    ∀ s d kind, ws.Declares s d → ModifierKind.ofName? d.type = some kind →
      ∀ k < kind.width s.data.length,
        kind.Admissible (config.bind fun c => c.parameter? d.name) o k := by
  have hentry : ∀ {x e}, x ∈ plans.flatMap (·.registrations) →
      Entry.ofGroup (Registration.named x.modifier.name (plans.flatMap (·.registrations))) =
        some e → e.name = x.modifier.name ∧ e.kind = x.modifier.kind ∧
          e.slots = x.modifier.kind.width x.nominal.length := by
    intro x e hx he
    obtain ⟨hname, hkind, hslots⟩ := Entry.spec_of_ofGroup hagree hx he
    exact ⟨hname, hkind, by rw [hslots, ModifierKind.width_eq]; rfl⟩
  rw [Registry.exists_table_iff]
  simp only [Entry.exists_parameter_iff, Registry.settings?, Registry.enterAll_config]
  constructor
  · intro h s d kind hd hkind k hk
    obtain ⟨x, hx, hstated, hnominal, -⟩ := hd.exists_registration hreads
    obtain ⟨e, he⟩ := Entry.exists_ofGroup hx
    obtain ⟨hname, hekind, hslots⟩ := hentry hx he
    have hmem : e ∈ ((Registry.empty config).enterAll
        (plans.flatMap (·.registrations))).entries :=
      Registry.mem_entries_enterAll_empty.mpr (hname ▸ he)
    rw [hstated.kind, Option.some.injEq] at hkind
    have hall := h e hmem k (by rw [hslots, hkind, hnominal]; exact hk)
    rwa [hekind, hkind, hname, hstated.name] at hall
  · intro h e he k hk
    have hgroup := Registry.mem_entries_enterAll_empty.mp he
    obtain ⟨x, hx, hxname⟩ := Entry.exists_registration hgroup
    obtain ⟨hname, hekind, hslots⟩ := hentry hx (hxname ▸ hgroup)
    obtain ⟨s, d, hd, hstated, hnominal⟩ := Workspace.exists_declares hreads hx
    rw [hname, hekind, hstated.name]
    exact h s d _ hd hstated.kind k (by rw [← hnominal, ← hslots]; exact hk)

end Stages

/-- A model is built exactly from a well-formed workspace. -/
theorem Model.exists_build_iff_wellFormed [Scalar.OrdersFinite K] {ws : Workspace K}
    {o : Options K} : (∃ m, Model.build ws o = .ok m) ↔ ws.WellFormed o := by
  have hsettings : ∀ name, ((ws.measurement? o.measurement).map (·.config)).bind
      (fun c => c.parameter? name) = ws.parameterConfig? o name := by
    intro name
    rw [Option.bind_map]
    rfl
  simp only [Model.build_eq_ok_iff]
  constructor
  · intro h
    obtain ⟨m, config, plans, t, hbuilt⟩ := h
    obtain ⟨hmeasurement, rfl⟩ := Workspace.settings_eq_ok_iff.mp hbuilt.settings
    refine ⟨Options.check_eq_ok_iff.mp hbuilt.options, hbuilt.channels, hmeasurement,
      hbuilt.names, ?_, ?_, (agrees_iff hbuilt.reads).mp hbuilt.agree, ?_⟩
    · intro c hc
      obtain ⟨p, -, hread⟩ := exists_mem_of_forall₂_left hbuilt.reads hc
      exact hread.regular
    · intro s d hd
      obtain ⟨x, -, hstated, -⟩ := hd.exists_registration hbuilt.reads
      exact Declaration.exists_says_iff.mp ⟨_, hstated⟩
    · intro s d kind hd hkind k hk
      have hall := (exists_table_iff hbuilt.reads hbuilt.agree).mp ⟨t, hbuilt.table⟩
      rw [← hsettings]
      exact hall s d kind hd hkind k hk
  · intro h
    have hconfig := Workspace.settings_eq_ok_iff.mpr ⟨h.measurement, rfl⟩
    have hplan : ∀ c ∈ ws.channels, ∀ offset, ∃ p,
        c.Reads ((ws.measurement? o.measurement).map (·.config)) p ∧ p.offset = offset :=
      fun c hc => Channel.exists_reads (h.regular c hc) fun s hs d hd =>
        h.readable s d ⟨c, hc, hs, hd⟩
    obtain ⟨plans, hreads, hoffsets⟩ := exists_plans hplan 0
    have hagree := (agrees_iff hreads).mpr h.agree
    obtain ⟨t, ht⟩ := (exists_table_iff (o := o) hreads hagree).mpr
      fun s d kind hd hkind k hk => by
        rw [hsettings]
        exact h.admissible s d kind hd hkind k hk
    exact ⟨_, _, plans, t, Options.check_eq_ok_iff.mpr h.interval, h.channels, hconfig,
      h.names, hreads, hoffsets, hagree, ht, rfl⟩

/-- The two regions are well-formed over doubles, and no model is built from them twice in
one workspace. -/
theorem Workspace.wellFormed_twoRegions :
    Workspace.twoRegions.WellFormed Options.standard ∧
      ¬ ∃ m, Model.build { Workspace.twoRegions with
        channels := Workspace.twoRegions.channels ++ Workspace.twoRegions.channels }
          Options.standard = .ok m := by
  obtain ⟨m, hbuild, -⟩ := Model.exists_build_twoRegions
  refine ⟨Model.exists_build_iff_wellFormed.mp ⟨m, hbuild⟩, fun htwice => ?_⟩
  have hnames := (Model.exists_build_iff_wellFormed.mp htwice).names
  revert hnames
  decide

end BinnedModel
