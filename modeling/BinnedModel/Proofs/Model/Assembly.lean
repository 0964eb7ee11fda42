import Mathlib
import BinnedModel.Proofs.Model.Planning
import BinnedModel.Proofs.Registry.Table
import BinnedModel.Scalar.Binary64

/-!
# What a built model consists of

A model is built in stages: settings are chosen, channels are read, the registry becomes a
table, and modifiers are compiled against it. This module takes a successful build apart
and states the result of all stages together: channel by channel, sample by sample and
modifier by modifier, the compiled yields are what the declarations say, with the slots of
each name at the block of this name in the table.
-/

namespace BinnedModel

variable {K : Type} [Scalar K]

/-- The effect of a modifier whose parameters start at a slot, in a sample of the given
number of bins. -/
def Modifier.effectAt (m : Modifier K) (o : Options K) (slot bins : ℕ) : Effect K :=
  match m.payload with
  | .normfactor | .lumi _ => .scale slot
  | .shapefactor | .shapesys _ | .staterror _ => .scaleBins (List.range' slot bins)
  | .normsys lo hi => .vary slot lo hi (o.multiplicative.effective lo hi)
  | .histosys lo hi => .morph slot lo hi

/-- Number of parameters that a modifier has in a sample of the given number of bins. -/
def Modifier.slotsIn (m : Modifier K) (bins : ℕ) : ℕ :=
  if m.kind.isPerBin then bins else 1

/-- Against a table with a block for its name, a modifier that fits its sample compiles to
its effect at the start of the block. -/
theorem Modifier.effect_eq_of_splits {m : Modifier K} {o : Options K} {t : ParameterTable K}
    {e : Entry K} {settings : Option (ParameterConfig K)} {bins : ℕ}
    {before block after : List (Parameter K)}
    (h : t.Splits e settings o before block after) (hname : e.name = m.name)
    (hslots : e.slots = m.slotsIn bins) (hfits : m.Fits bins) :
    m.effect t o = .ok (m.effectAt o before.length bins) := by
  have hcount := h.countP_eq
  unfold effect effectAt
  rw [← hname, h.start]
  cases hp : m.payload with
  | normfactor => rfl
  | lumi sigma => rfl
  | normsys lo hi => rfl
  | histosys lo hi => rfl
  | shapefactor =>
    have hper : m.kind.isPerBin = true := by simp [kind, hp, Payload.kind, ModifierKind.isPerBin]
    rw [slotsIn, if_pos hper] at hslots
    dsimp only
    rw [hcount, hslots]
  | shapesys delta =>
    have hlen : delta.length = bins := hfits delta (by simp [hp, Payload.histograms])
    dsimp only
    rw [hlen]
  | staterror delta =>
    have hlen : delta.length = bins := hfits delta (by simp [hp, Payload.histograms])
    dsimp only
    rw [hlen]

/-- The index at which the parameters of a modifier name start. -/
def ParameterTable.slotOf (t : ParameterTable K) (name : String) : ℕ :=
  t.parameters.findIdx fun p => p.modifier == name

/-- The table of registrations that agree has a block for each name that is registered with a
bin. It is the block of the entry of this name, it starts at the first parameter of the name,
and it has as many parameters as each registration of the name asks for. -/
theorem exists_splits_of_registration {config : Option (MeasurementConfig K)}
    {xs : List (Registration K)} {o : Options K} {t : ParameterTable K}
    (hagree : ∀ x ∈ xs, ∀ y ∈ xs, x.Agrees y)
    (ht : ((Registry.empty config).enterAll xs).table o = .ok t) {x : Registration K}
    (hx : x ∈ xs) (hpos : 0 < x.nominal.length) :
    ∃ e settings before block after,
      Entry.ofGroup (Registration.named x.modifier.name xs) = some e ∧
      t.Splits e settings o before block after ∧ t.slotOf x.modifier.name = before.length ∧
      e.name = x.modifier.name ∧ e.kind = x.modifier.kind ∧ e.slots = x.slots := by
  obtain ⟨e, he⟩ := Entry.exists_ofGroup hx
  obtain ⟨hname, hkind, hslots⟩ := Entry.spec_of_ofGroup hagree hx he
  have hnodup := Registry.nodup_names_enterAll (r := Registry.empty config) List.nodup_nil xs
  have hmem : e ∈ ((Registry.empty config).enterAll xs).entries :=
    Registry.mem_entries_enterAll_empty.mpr (hname ▸ he)
  obtain ⟨before, block, after, hsplits⟩ := Registry.exists_splits hnodup ht hmem
  have hstart : t.slotOf x.modifier.name = before.length := by
    rw [← hname]
    exact hsplits.findIdx_eq (hslots ▸ x.slots_pos hpos)
  exact ⟨e, _, before, block, after, he, hsplits, hstart, hname, hkind, hslots⟩

/-- The yields of a sample are compiled from its declarations, given the slot at which the
parameters of each name start. -/
structure Sample.Compiles (config : Option (MeasurementConfig K)) (o : Options K)
    (slot : String → ℕ) (s : Sample K) (y : SampleYields K) : Prop where
  /-- The nominal yields are those of the sample. -/
  nominal : y.nominal = s.data
  /-- The effects are those of the modifiers that the declarations say. -/
  effects : List.Forall₂ (fun d effect => ∃ m, d.Says config s.data.length m ∧
    effect = m.effectAt o (slot d.name) s.data.length) s.modifiers y.effects

/-- The yields of a channel are compiled from its samples. -/
structure Channel.Compiles (config : Option (MeasurementConfig K)) (o : Options K)
    (slot : String → ℕ) (c : Channel K) (y : ChannelYields K) : Prop where
  /-- The channel has a regular form. -/
  regular : c.Regular
  /-- The yields have the bins of the channel. -/
  bins : y.bins = c.bins
  /-- The samples are compiled in their order. -/
  samples : List.Forall₂ (Sample.Compiles config o slot) c.samples y.samples

/-- A registration that fits its sample compiles to its effect at the first parameter of
its name. -/
theorem effect_of_registration {config : Option (MeasurementConfig K)}
    {xs : List (Registration K)} {o : Options K} {t : ParameterTable K}
    (hagree : ∀ x ∈ xs, ∀ y ∈ xs, x.Agrees y)
    (ht : ((Registry.empty config).enterAll xs).table o = .ok t) {x : Registration K}
    (hx : x ∈ xs) (hfits : x.modifier.Fits x.nominal.length) (hpos : 0 < x.nominal.length) :
    x.modifier.effect t o =
      .ok (x.modifier.effectAt o (t.slotOf x.modifier.name) x.nominal.length) := by
  obtain ⟨e, settings, before, block, after, -, hsplits, hstart, hname, -, hslots⟩ :=
    exists_splits_of_registration hagree ht hx hpos
  rw [hstart]
  exact Modifier.effect_eq_of_splits hsplits hname hslots hfits

/-- A registration of a channel's plan is what a declaration in one of its samples says. -/
theorem Channel.Reads.exists_declaration {config : Option (MeasurementConfig K)}
    {c : Channel K} {p : ChannelPlan K} (h : c.Reads config p) {x : Registration K}
    (hx : x ∈ p.registrations) :
    ∃ s ∈ c.samples, ∃ d ∈ s.modifiers, d.Says config s.data.length x.modifier ∧
      x.nominal = s.data ∧ x.offset = p.offset := by
  obtain ⟨sp, hsp, hxsp⟩ := List.mem_flatMap.mp hx
  obtain ⟨m, hm, rfl⟩ := List.mem_map.mp hxsp
  obtain ⟨s, hs, hreads⟩ := exists_mem_of_forall₂_right h.samples hsp
  obtain ⟨d, hd, hstated⟩ := exists_mem_of_forall₂_right hreads.modifiers hm
  exact ⟨s, hs, d, hd, hstated, hreads.nominal, rfl⟩

/-- A declaration in a sample of a channel says one of the registrations of its plan. -/
theorem Channel.Reads.exists_registration {config : Option (MeasurementConfig K)}
    {c : Channel K} {p : ChannelPlan K} (h : c.Reads config p) {s : Sample K}
    (hs : s ∈ c.samples) {d : Declaration K} (hd : d ∈ s.modifiers) :
    ∃ x ∈ p.registrations, d.Says config s.data.length x.modifier ∧
      x.nominal = s.data ∧ x.offset = p.offset := by
  obtain ⟨sp, hsp, hreads⟩ := exists_mem_of_forall₂_left h.samples hs
  obtain ⟨m, hm, hstated⟩ := exists_mem_of_forall₂_left hreads.modifiers hd
  refine ⟨⟨m, sp.2.nominal, p.offset⟩, ?_, hstated, hreads.nominal, rfl⟩
  exact List.mem_flatMap.mpr ⟨sp, hsp, List.mem_map_of_mem hm⟩

/-- A declaration stands in a sample of a workspace. -/
def Workspace.Declares (ws : Workspace K) (s : Sample K) (d : Declaration K) : Prop :=
  ∃ c ∈ ws.channels, s ∈ c.samples ∧ d ∈ s.modifiers

/-- A registration is what a declaration in the workspace says. -/
theorem Workspace.exists_declares {ws : Workspace K} {config : Option (MeasurementConfig K)}
    {plans : List (ChannelPlan K)}
    (hreads : List.Forall₂ (Channel.Reads config) ws.channels plans) {x : Registration K}
    (hx : x ∈ plans.flatMap (·.registrations)) :
    ∃ s d, ws.Declares s d ∧ d.Says config s.data.length x.modifier ∧ x.nominal = s.data := by
  obtain ⟨p, hp, hxp⟩ := List.mem_flatMap.mp hx
  obtain ⟨c, hc, hread⟩ := exists_mem_of_forall₂_right hreads hp
  obtain ⟨s, hs, d, hd, hstated, hnominal, -⟩ := hread.exists_declaration hxp
  exact ⟨s, d, ⟨c, hc, hs, hd⟩, hstated, hnominal⟩

/-- A declaration in the workspace says one of the registrations. -/
theorem Workspace.Declares.exists_registration {ws : Workspace K}
    {config : Option (MeasurementConfig K)} {plans : List (ChannelPlan K)}
    (hreads : List.Forall₂ (Channel.Reads config) ws.channels plans) {s : Sample K}
    {d : Declaration K} (hd : ws.Declares s d) :
    ∃ x ∈ plans.flatMap (·.registrations), d.Says config s.data.length x.modifier ∧
      x.nominal = s.data ∧ 0 < x.nominal.length := by
  obtain ⟨c, hc, hs, hd⟩ := hd
  obtain ⟨p, hp, hread⟩ := exists_mem_of_forall₂_left hreads hc
  obtain ⟨x, hx, hstated, hnominal, -⟩ := hread.exists_registration hs hd
  refine ⟨x, List.mem_flatMap.mpr ⟨p, hp, hx⟩, hstated, hnominal, ?_⟩
  rw [hnominal, hread.regular.bins_eq s hs]
  exact hread.regular.bins_pos

/-- The yields of a sample, given the slot at which the parameters of each name start. -/
def SamplePlan.yieldsAt (p : SamplePlan K) (o : Options K) (slot : String → ℕ) :
    SampleYields K :=
  ⟨p.nominal, p.modifiers.map fun m => m.effectAt o (slot m.name) p.nominal.length⟩

/-- The yields of a channel, given the slot at which the parameters of each name start. -/
def ChannelPlan.yieldsAt (p : ChannelPlan K) (o : Options K) (slot : String → ℕ) :
    ChannelYields K :=
  ⟨p.bins, p.samples.map fun s => s.2.yieldsAt o slot⟩

/-- A channel compiles to its yields if its registrations do. -/
theorem ChannelPlan.compile_eq {p : ChannelPlan K} {t : ParameterTable K} {o : Options K}
    (h : ∀ x ∈ p.registrations, x.modifier.effect t o =
      .ok (x.modifier.effectAt o (t.slotOf x.modifier.name) x.nominal.length)) :
    p.compile t o = .ok (p.yieldsAt o t.slotOf) := by
  have hsample : ∀ s ∈ p.samples, s.2.compile t o = .ok (s.2.yieldsAt o t.slotOf) := by
    intro s hs
    unfold SamplePlan.compile
    rw [mapM_eq_ok_map fun m hm => h ⟨m, s.2.nominal, p.offset⟩
      (List.mem_flatMap.mpr ⟨s, hs, List.mem_map_of_mem hm⟩)]
    rfl
  unfold ChannelPlan.compile
  rw [mapM_eq_ok_map hsample]
  rfl

/-- The yields of a plan are compiled from the channel that the plan reads. -/
theorem Channel.Reads.compiles {config : Option (MeasurementConfig K)} {c : Channel K}
    {p : ChannelPlan K} (h : c.Reads config p) (o : Options K) (slot : String → ℕ) :
    c.Compiles config o slot (p.yieldsAt o slot) := by
  refine ⟨h.regular, h.bins, ?_⟩
  refine List.forall₂_map_right_iff.mpr (h.samples.imp fun s sp hreads => ?_)
  refine ⟨hreads.nominal, List.forall₂_map_right_iff.mpr ?_⟩
  refine hreads.modifiers.imp fun d m hstated => ⟨m, hstated, ?_⟩
  rw [hstated.name, hreads.nominal]

/-- A channel has one yield per bin. -/
@[simp] theorem ChannelYields.length_yields (y : ChannelYields K) (code : AdditiveCode)
    (p : ℕ → K) : (y.yields code p).length = y.bins := by
  rw [yields, List.length_map, List.length_range]

/-- A model is built from a workspace through the given settings, plans and table. -/
structure Model.Built (ws : Workspace K) (o : Options K)
    (config : Option (MeasurementConfig K)) (plans : List (ChannelPlan K))
    (t : ParameterTable K) (m : Model K) : Prop where
  /-- The options are admissible. -/
  options : o.check = .ok ()
  /-- There is a channel. -/
  channels : ws.channels ≠ []
  /-- The settings are those of the selected measurement. -/
  settings : ws.settings o = .ok config
  /-- The channels have distinct names. -/
  names : (ws.channels.map (·.name)).Nodup
  /-- The channels are read. -/
  reads : List.Forall₂ (Channel.Reads config) ws.channels plans
  /-- Each channel starts where the one before it ends. -/
  offsets : plans.map (·.offset) = blockStarts 0 (plans.map (·.bins))
  /-- No two registrations contradict each other. -/
  agree : ∀ x ∈ plans.flatMap (·.registrations), ∀ y ∈ plans.flatMap (·.registrations),
    x.Agrees y
  /-- The table is that of the registrations. -/
  table : ((Registry.empty config).enterAll (plans.flatMap (·.registrations))).table o = .ok t
  /-- The model consists of the plans compiled against the table, the parameters of the
  table, the layouts of the plans, and the parameter of interest of the settings. -/
  model : m = ⟨⟨plans.map fun p => p.yieldsAt o t.slotOf, t.parameters.length,
    blockTotal (plans.map (·.bins)), o.additive⟩, t.parameters, plans.map (·.layout),
    (config.map (·.poi)).filter fun poi => !poi.isEmpty⟩

/-- The registrations of plans compile against their table. -/
theorem compile_of_table {cs : List (Channel K)} {config : Option (MeasurementConfig K)}
    {plans : List (ChannelPlan K)} {o : Options K} {t : ParameterTable K}
    (hreads : List.Forall₂ (Channel.Reads config) cs plans)
    (hagree : ∀ x ∈ plans.flatMap (·.registrations), ∀ y ∈ plans.flatMap (·.registrations),
      x.Agrees y)
    (ht : ((Registry.empty config).enterAll (plans.flatMap (·.registrations))).table o = .ok t)
    {p : ChannelPlan K} (hp : p ∈ plans) : p.compile t o = .ok (p.yieldsAt o t.slotOf) := by
  obtain ⟨c, -, hc⟩ := exists_mem_of_forall₂_right hreads hp
  refine ChannelPlan.compile_eq fun x hx => ?_
  obtain ⟨s, hs, d, -, hstated, hnominal, -⟩ := hc.exists_declaration hx
  have hfits : x.modifier.Fits x.nominal.length := hnominal ▸ hstated.fits
  have hpos : 0 < x.nominal.length := by
    rw [hnominal, hc.regular.bins_eq s hs]
    exact hc.regular.bins_pos
  exact effect_of_registration hagree ht (List.mem_flatMap.mpr ⟨p, hp, hx⟩) hfits hpos

/-- The channels of a workspace are read into the plans of its model. -/
theorem Model.Built.planChannels_eq {ws : Workspace K} {o : Options K}
    {config : Option (MeasurementConfig K)} {plans : List (ChannelPlan K)} {t : ParameterTable K}
    {m : Model K} (h : Model.Built ws o config plans t m) :
    planChannels 0 [] ws.channels (Registry.empty config) =
      .ok ((Registry.empty config).enterAll (plans.flatMap (·.registrations)), plans) :=
  planChannels_eq_ok_iff.mpr ⟨fresh_nil_iff.mpr h.names, h.reads, h.offsets,
    Registry.admitsAll_empty_iff.mpr h.agree, rfl⟩

/-- A build succeeds exactly through settings, plans and a table. -/
theorem Model.build_eq_ok_iff {ws : Workspace K} {o : Options K} {m : Model K} :
    Model.build ws o = .ok m ↔ ∃ config plans t, Model.Built ws o config plans t m := by
  unfold build
  rw [bind_eq_ok_iff]
  constructor
  · rintro ⟨u, hcheck, h⟩
    split at h
    · cases h
    next hne =>
    obtain ⟨config, hsettings, h⟩ := bind_eq_ok_iff.mp h
    obtain ⟨⟨registry, plans⟩, hplans, h⟩ := bind_eq_ok_iff.mp h
    obtain ⟨hfresh, hreads, hoffsets, hadmits, rfl⟩ := planChannels_eq_ok_iff.mp hplans
    have hagree := Registry.admitsAll_empty_iff.mp hadmits
    obtain ⟨t, ht, h⟩ := bind_eq_ok_iff.mp h
    obtain ⟨channels, hchannels, h⟩ := bind_eq_ok_iff.mp h
    rw [mapM_eq_ok_map fun p hp => compile_of_table hreads hagree ht hp] at hchannels
    cases hchannels
    cases h
    refine ⟨config, plans, t, hcheck, by simpa using hne, hsettings, fresh_nil_iff.mp hfresh,
      hreads, hoffsets, hagree, ht, ?_⟩
    rw [Registry.enterAll_config]
    rfl
  · rintro ⟨config, plans, t, h⟩
    refine ⟨(), h.options, ?_⟩
    rw [if_neg (by simpa using h.channels)]
    refine bind_eq_ok_iff.mpr
      ⟨config, h.settings, bind_eq_ok_iff.mpr ⟨_, h.planChannels_eq, ?_⟩⟩
    have hcompile : plans.mapM (fun p => p.compile t o) =
        .ok (plans.map fun p => p.yieldsAt o t.slotOf) :=
      mapM_eq_ok_map fun p hp => compile_of_table h.reads h.agree h.table hp
    refine bind_eq_ok_iff.mpr ⟨t, h.table, bind_eq_ok_iff.mpr ⟨_, hcompile, ?_⟩⟩
    rw [h.model, Registry.enterAll_config]
    rfl

/-- The index at which the parameters of a modifier name start. -/
def Model.slotOf (m : Model K) (name : String) : ℕ :=
  m.parameters.findIdx fun p => p.modifier == name

/-- A declaration says one thing. -/
theorem Declaration.Says.unique {config : Option (MeasurementConfig K)} {bins : ℕ}
    {d : Declaration K} {m m' : Modifier K} (h : d.Says config bins m)
    (h' : d.Says config bins m') : m = m' := by
  obtain ⟨m₀, hread, -, rfl⟩ := h
  obtain ⟨m₁, hread', -, rfl⟩ := h'
  rw [hread, Except.ok.injEq] at hread'
  rw [hread']

namespace Model.Built

variable {ws : Workspace K} {o : Options K} {config : Option (MeasurementConfig K)}
  {plans : List (ChannelPlan K)} {t : ParameterTable K} {m : Model K}

/-- The parameters of a model are those of its table. -/
theorem parameters_eq (h : Model.Built ws o config plans t m) :
    m.parameters = t.parameters := by
  rw [h.model]

/-- The channels of a model are laid out as its plans are. -/
theorem layouts_eq (h : Model.Built ws o config plans t m) :
    m.channels = plans.map (·.layout) := by
  rw [h.model]

/-- Names start in a model where they start in its table. -/
theorem slotOf_eq (h : Model.Built ws o config plans t m) : m.slotOf = t.slotOf := by
  funext name
  rw [slotOf, ParameterTable.slotOf, h.parameters_eq]

/-- The yields of a model are compiled from its workspace. -/
theorem compiles (h : Model.Built ws o config plans t m) :
    List.Forall₂ (Channel.Compiles config o m.slotOf) ws.channels m.yields.channels := by
  have hyields : m.yields.channels = plans.map fun p => p.yieldsAt o t.slotOf := by
    rw [h.model]
  rw [hyields, h.slotOf_eq, List.forall₂_map_right_iff]
  exact h.reads.imp fun c p hc => hc.compiles o t.slotOf

/-- The yields of a model have the bins of its channels. -/
theorem bins_eq (h : Model.Built ws o config plans t m) :
    m.yields.channels.map (·.bins) = ws.channels.map Channel.bins :=
  (map_eq_map_of_forall₂ (h.compiles.imp fun _ _ hc => hc.bins.symm)).symm

/-- The yields of a model at a vector with one entry per parameter are those of its
channels, one after the other. -/
theorem eval_eq (h : Model.Built ws o config plans t m) {params : List K}
    (hparams : params.length = m.parameters.length) :
    m.yields.eval params = .ok (m.yields.channels.flatMap fun y =>
      y.yields o.additive fun i => params.getD i 0) := by
  have hcount : m.yields.parameters = m.parameters.length := by rw [h.model]
  have hcode : m.yields.additive = o.additive := by rw [h.model]
  unfold YieldFunction.eval
  rw [if_neg (by rw [hcount]; exact not_not.mpr hparams), hcode]

/-- The yields of all channels have as many entries as the channels have bins. -/
theorem length_yields (h : Model.Built ws o config plans t m) (p : ℕ → K) :
    (m.yields.channels.flatMap fun y => y.yields o.additive p).length =
      (ws.channels.map Channel.bins).sum := by
  rw [List.length_flatMap, ← h.bins_eq]
  simp only [ChannelYields.length_yields]

/-- The yields of a channel stand behind the bins of the channels before it. -/
theorem getElem?_yields (h : Model.Built ws o config plans t m) {p : ℕ → K} {j k : ℕ}
    {y : ChannelYields K} (hj : m.yields.channels[j]? = some y) (hk : k < y.bins) :
    (m.yields.channels.flatMap fun y => y.yields o.additive p)[
      ((ws.channels.take j).map Channel.bins).sum + k]? = (y.yields o.additive p)[k]? := by
  have hyields : (m.yields.channels.map fun y => y.yields o.additive p)[j]? =
      some (y.yields o.additive p) := by rw [List.getElem?_map, hj, Option.map_some]
  have hstart : blockTotal (((m.yields.channels.map fun y => y.yields o.additive p).take j).map
      List.length) = ((ws.channels.take j).map Channel.bins).sum := by
    rw [blockTotal_eq_sum, List.map_take, List.map_map, List.map_take, ← h.bins_eq]
    simp only [Function.comp_def, ChannelYields.length_yields]
  rw [List.flatMap_def, ← hstart]
  exact getElem?_flatten_of_block hyields (by rwa [ChannelYields.length_yields])

/-- The parameters of a declared name form a block, which starts at the slot of the name
and has as many parameters as the declared modifier asks for. -/
theorem block (h : Model.Built ws o config plans t m) {s : Sample K} {d : Declaration K}
    (hd : ws.Declares s d) {md : Modifier K} (hstated : d.Says config s.data.length md) :
    m.slotOf d.name + md.slotsIn s.data.length ≤ m.parameters.length ∧
      ∀ i p, m.parameters[i]? = some p → (p.modifier = d.name ↔
        m.slotOf d.name ≤ i ∧ i < m.slotOf d.name + md.slotsIn s.data.length) := by
  obtain ⟨x, hx, hstated', hnominal, hpos⟩ := hd.exists_registration h.reads
  obtain rfl := hstated'.unique hstated
  obtain ⟨e, settings, before, blk, after, -, hsplits, hstart, hname, -, hslots⟩ :=
    exists_splits_of_registration h.agree h.table hx hpos
  have hwidth : e.slots = x.modifier.slotsIn s.data.length := by
    rw [hslots, ← hnominal]
    rfl
  rw [hstated.name] at hstart hname
  rw [h.parameters_eq, h.slotOf_eq, hstart, ← hwidth, ← hname]
  exact ⟨hsplits.start_add_slots_le, fun i p hp => hsplits.modifier_eq_iff hp⟩

end Model.Built

/-- Two regions with every kind of modifier: the regions share a rate and the luminosity,
the two samples of the first region share their statistical factors. -/
def Workspace.twoRegions : Workspace Float :=
  { channels :=
      [⟨"signal region",
        [⟨"signal", [3, 5],
          [.normfactor "mu", .lumi "luminosity", .staterror "counts" [1, 2]]⟩,
        ⟨"background", [40, 50],
          [.histosys "scale" [38, 49] [42, 51], .staterror "counts" [4, 5],
            .normsys "rate" 0.9 1.1]⟩]⟩,
      ⟨"control region",
        [⟨"background", [100],
          [.normsys "rate" 0.8 1.2, .lumi "luminosity", .shapefactor "shape",
            .shapesys "uncorrelated" [10]]⟩]⟩]
    observations := []
    measurements :=
      [⟨"fit", "mu", [⟨"luminosity", [], [], false, [1], [0.02]⟩,
        ⟨"shape", [1], [], true, [], []⟩]⟩]
    version := none }

/-- The model of the two regions is built and has eight parameters. -/
theorem Model.exists_build_twoRegions :
    ∃ m, Model.build Workspace.twoRegions Options.standard = .ok m ∧
      m.parameters.length = 8 := by
  have hcount : ((Model.build Workspace.twoRegions Options.standard).toOption.map
      fun m => m.parameters.length) = some 8 := by decide +kernel
  obtain ⟨m, hm, hlength⟩ := Option.map_eq_some_iff.mp hcount
  exact ⟨m, toOption_eq_some_iff.mp hm, hlength⟩

end BinnedModel
