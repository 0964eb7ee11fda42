import Mathlib
import BinnedModel.Proofs.Model.Assembly

/-!
# Parameters as a partition by name

The parameters of a model come in blocks, one for each modifier name in the order in which
the names are first met. The length and the labels of a block can be read off any of the
declarations of its name. Every effect of the compiled yields reads one block as a whole:
effects of one name read the same block, effects of different names have no parameter in
common, and no parameter is left over.
-/

namespace BinnedModel

variable {K : Type}

namespace ModifierKind

/-- Number of parameters that a modifier of a kind has in a sample of the given number of
bins. -/
def width (bins : ℕ) : ModifierKind → ℕ
  | normfactor | normsys | histosys | lumi => 1
  | shapefactor | shapesys | staterror => bins

/-- Name of the `k`-th parameter of a modifier of a kind. -/
def slotName (modifier : String) (k : ℕ) : ModifierKind → String
  | normfactor | normsys | histosys | lumi => modifier
  | shapefactor | shapesys | staterror => modifier ++ "[" ++ toString k ++ "]"

/-- The kinds with a parameter per bin have as many parameters as the sample has bins. -/
theorem width_eq (kind : ModifierKind) (bins : ℕ) :
    kind.width bins = if kind.isPerBin then bins else 1 := by
  cases kind <;> rfl

end ModifierKind

/-- The modifier names of a workspace, as often as they are declared: by channel, then by
sample, then in the order of declaration. -/
def Workspace.modifierNames (ws : Workspace K) : List String :=
  ws.channels.flatMap fun c => c.samples.flatMap fun s => s.modifiers.map (·.name)

/-- Where a declaration stands in a workspace, and its effect in a model. -/
structure Place where
  /-- Index of the channel. -/
  channel : ℕ
  /-- Index of the sample within the channel. -/
  sample : ℕ
  /-- Index of the modifier within the sample. -/
  modifier : ℕ

/-- The declaration at a place, with the sample in which it stands. -/
def Workspace.declaration? (ws : Workspace K) (a : Place) :
    Option (Sample K × Declaration K) := do
  let c ← ws.channels[a.channel]?
  let s ← c.samples[a.sample]?
  let d ← s.modifiers[a.modifier]?
  return (s, d)

/-- The effect at a place. -/
def YieldFunction.effect? (f : YieldFunction K) (a : Place) : Option (Effect K) := do
  let c ← f.channels[a.channel]?
  let s ← c.samples[a.sample]?
  s.effects[a.modifier]?

/-- The parameters that an effect reads, by index. -/
def Effect.slots : Effect K → List ℕ
  | scale slot => [slot]
  | scaleBins slots => slots
  | vary slot _ _ _ => [slot]
  | morph slot _ _ => [slot]

/-- The parameter that an effect reads in a bin. -/
def Effect.slotAt? (bin : ℕ) : Effect K → Option ℕ
  | scale slot => some slot
  | scaleBins slots => slots[bin]?
  | vary slot _ _ _ => some slot
  | morph slot _ _ => some slot

/-- The parameters that an effect reads are those that it reads in some bin. -/
theorem Effect.mem_slots_iff {e : Effect K} {i : ℕ} :
    i ∈ e.slots ↔ ∃ bin, e.slotAt? bin = some i := by
  have hsingle : ∀ slot : ℕ, i ∈ [slot] ↔ ∃ _ : ℕ, some slot = some i := by
    intro slot
    rw [List.mem_singleton, exists_const, Option.some.injEq, eq_comm]
  cases e with
  | scale slot => exact hsingle slot
  | scaleBins slots => exact List.mem_iff_getElem?
  | vary slot lo hi code => exact hsingle slot
  | morph slot lo hi => exact hsingle slot

/-- A list of parameters is the block of a declaration in a sample of the given number of
bins: it is as long as the declared kind asks for, and labelled with name and kind. -/
def Declaration.HasBlock (d : Declaration K) (bins : ℕ) (block : List (Parameter K)) : Prop :=
  ∃ kind, ModifierKind.ofName? d.type = some kind ∧ block.length = kind.width bins ∧
    ∀ k p, block[k]? = some p →
      p.modifier = d.name ∧ p.kind = kind ∧ p.name = kind.slotName d.name k

/-- A declaration at a place stands in a sample of a channel. -/
theorem Workspace.declaration?_eq_some_iff {ws : Workspace K} {a : Place} {s : Sample K}
    {d : Declaration K} : ws.declaration? a = some (s, d) ↔
      ∃ c, ws.channels[a.channel]? = some c ∧ c.samples[a.sample]? = some s ∧
        s.modifiers[a.modifier]? = some d := by
  unfold declaration?
  simp only [Option.bind_eq_bind, Option.bind_eq_some_iff, Option.pure_def, Option.some.injEq,
    Prod.mk.injEq]
  constructor
  · rintro ⟨c, hc, s', hs, d', hd, rfl, rfl⟩
    exact ⟨c, hc, hs, hd⟩
  · rintro ⟨c, hc, hs, hd⟩
    exact ⟨c, hc, s, hs, d, hd, rfl, rfl⟩

/-- The declarations of a workspace are those at its places. -/
theorem Workspace.declares_iff {ws : Workspace K} {s : Sample K} {d : Declaration K} :
    ws.Declares s d ↔ ∃ a, ws.declaration? a = some (s, d) := by
  simp only [declaration?_eq_some_iff, Declares, List.mem_iff_getElem?]
  constructor
  · intro hd
    obtain ⟨c, ⟨i, hc⟩, ⟨j, hs⟩, ⟨l, hl⟩⟩ := hd
    exact ⟨⟨i, j, l⟩, c, hc, hs, hl⟩
  · intro ha
    obtain ⟨a, c, hc, hs, hd⟩ := ha
    exact ⟨c, ⟨a.channel, hc⟩, ⟨a.sample, hs⟩, ⟨a.modifier, hd⟩⟩

/-- The number of parameters of a modifier is that of its kind. -/
theorem Modifier.slotsIn_eq (m : Modifier K) (bins : ℕ) :
    m.slotsIn bins = m.kind.width bins := by
  rw [slotsIn, ModifierKind.width_eq]

variable [Scalar K]

/-- The parameters that an effect reads are consecutive, and as many as the kind asks
for. -/
theorem Modifier.slots_effectAt (m : Modifier K) (o : Options K) (slot bins : ℕ) :
    (m.effectAt o slot bins).slots = List.range' slot (m.kind.width bins) := by
  unfold effectAt kind
  cases m.payload <;> rfl

namespace Registry

variable {config : Option (MeasurementConfig K)} {xs : List (Registration K)}

/-- The parameters of an entry are the block of each declaration of its name. -/
theorem hasBlock_of_mem_entries {settings : Option (ParameterConfig K)} {o : Options K}
    {e : Entry K} {block : List (Parameter K)} {bins : ℕ} {d : Declaration K}
    {x : Registration K} (hagree : ∀ x ∈ xs, ∀ y ∈ xs, x.Agrees y)
    (he : e ∈ ((empty config).enterAll xs).entries)
    (hblock : e.parameters settings o = .ok block) (hx : x ∈ xs)
    (hstated : d.Says config bins x.modifier) (hnominal : x.nominal.length = bins)
    (hname : d.name = e.name) : d.HasBlock bins block := by
  have hxname : x.modifier.name = e.name := hstated.name.trans hname
  have hgroup := mem_entries_enterAll_empty.mp he
  rw [← hxname] at hgroup
  obtain ⟨-, hkind, hslots⟩ := Entry.spec_of_ofGroup hagree hx hgroup
  refine ⟨e.kind, hkind ▸ hstated.kind, ?_, ?_⟩
  · rw [Entry.length_parameters hblock, hslots, Registration.slots, hnominal, hkind,
      ModifierKind.width_eq]
  · intro k p hp
    obtain ⟨hlabel, hmodifier, hpkind, -⟩ :=
      Entry.parameter_label (Entry.getElem?_parameters hblock hp)
    refine ⟨hmodifier.trans hname.symm, hpkind, ?_⟩
    rw [hlabel, hname, Entry.slotName]
    cases e.kind <;> rfl

end Registry

/-- The registrations of a sample have the names of its declarations. -/
theorem Sample.Reads.names {config : Option (MeasurementConfig K)} {s : Sample K}
    {p : String × SamplePlan K} (h : s.Reads config p) (offset : ℕ) :
    (p.2.registrations offset).map (·.modifier.name) = s.modifiers.map (·.name) := by
  rw [SamplePlan.registrations, List.map_map]
  exact (map_eq_map_of_forall₂ (h.modifiers.imp fun _ _ hd => hd.name.symm)).symm

/-- The registrations of a channel have the names of the declarations in its samples. -/
theorem Channel.Reads.names {config : Option (MeasurementConfig K)} {c : Channel K}
    {p : ChannelPlan K} (h : c.Reads config p) :
    p.registrations.map (·.modifier.name) =
      c.samples.flatMap fun s => s.modifiers.map (·.name) := by
  rw [ChannelPlan.registrations, List.map_flatMap, List.flatMap_def, List.flatMap_def]
  have hsamples := map_eq_map_of_forall₂ (h.samples.imp fun _ _ hs => (hs.names p.offset).symm)
  rw [hsamples]

namespace Model.Built

variable {ws : Workspace K} {o : Options K} {config : Option (MeasurementConfig K)}
  {plans : List (ChannelPlan K)} {t : ParameterTable K} {m : Model K}

/-- The registrations have the names that are declared in the workspace, in the same
order. -/
theorem names_eq (h : Model.Built ws o config plans t m) :
    (plans.flatMap (·.registrations)).map (·.modifier.name) = ws.modifierNames := by
  rw [Workspace.modifierNames, List.map_flatMap, List.flatMap_def, List.flatMap_def]
  have hchannels := map_eq_map_of_forall₂ (h.reads.imp fun _ _ hc => hc.names.symm)
  rw [hchannels]

/-- The parameters consist of one block for each distinct name, which is the block of every
declaration of this name. -/
theorem exists_blocks (h : Model.Built ws o config plans t m) :
    ∃ blocks, m.parameters = blocks.flatten ∧
      List.Forall₂ (fun name block => ∀ s d, ws.Declares s d → d.name = name →
        d.HasBlock s.data.length block) ws.modifierNames.eraseDups blocks := by
  obtain ⟨blocks, hblocks, htable⟩ := Registry.table_eq_ok_iff.mp h.table
  refine ⟨blocks, by rw [h.parameters_eq, htable], ?_⟩
  rw [← h.names_eq, ← Registry.names_enterAll_empty config, List.forall₂_map_left_iff]
  refine forall₂_imp_of_mem hblocks fun e he block hblock s d hd hname => ?_
  obtain ⟨x, hx, hstated, hnominal, -⟩ := hd.exists_registration h.reads
  have hlength : x.nominal.length = s.data.length := congrArg List.length hnominal
  exact Registry.hasBlock_of_mem_entries h.agree he hblock hx hstated hlength hname

/-- Each parameter belongs to the name of a declaration. -/
theorem exists_declares (h : Model.Built ws o config plans t m) {p : Parameter K}
    (hp : p ∈ m.parameters) : ∃ s d, ws.Declares s d ∧ d.name = p.modifier := by
  obtain ⟨e, he, hmodifier⟩ := Registry.exists_entry_of_mem h.table (h.parameters_eq ▸ hp)
  have hgroup := Registry.mem_entries_enterAll_empty.mp he
  obtain ⟨x, hx, hname⟩ := Entry.exists_registration hgroup
  obtain ⟨s, d, hd, hstated, -⟩ := Workspace.exists_declares h.reads hx
  exact ⟨s, d, hd, by rw [← hstated.name, hname, hmodifier]⟩

/-- Each declaration has its effect at its place. -/
theorem effect?_eq (h : Model.Built ws o config plans t m) {a : Place} {s : Sample K}
    {d : Declaration K} (ha : ws.declaration? a = some (s, d)) :
    ∃ md, d.Says config s.data.length md ∧
      m.yields.effect? a = some (md.effectAt o (m.slotOf d.name) s.data.length) := by
  obtain ⟨c, hc, hs, hd⟩ := Workspace.declaration?_eq_some_iff.mp ha
  obtain ⟨y, hy, hchannel⟩ := getElem?_of_forall₂_left h.compiles hc
  obtain ⟨z, hz, hsample⟩ := getElem?_of_forall₂_left hchannel.samples hs
  obtain ⟨e, he, md, hstated, rfl⟩ := getElem?_of_forall₂_left hsample.effects hd
  refine ⟨md, hstated, ?_⟩
  rw [YieldFunction.effect?, hy, Option.bind_eq_bind, Option.bind_some, hz, Option.bind_eq_bind,
    Option.bind_some, he]

/-- There are effects at the places of declarations only. -/
theorem exists_declaration?_of_effect? (h : Model.Built ws o config plans t m) {a : Place}
    {e : Effect K} (ha : m.yields.effect? a = some e) :
    ∃ s d, ws.declaration? a = some (s, d) := by
  simp only [YieldFunction.effect?, Option.bind_eq_bind, Option.bind_eq_some_iff] at ha
  obtain ⟨y, hy, z, hz, he⟩ := ha
  obtain ⟨c, hc, hchannel⟩ := getElem?_of_forall₂_right h.compiles hy
  obtain ⟨s, hs, hsample⟩ := getElem?_of_forall₂_right hchannel.samples hz
  obtain ⟨d, hd, -⟩ := getElem?_of_forall₂_right hsample.effects he
  exact ⟨s, d, Workspace.declaration?_eq_some_iff.mpr ⟨c, hc, hs, hd⟩⟩

/-- The effect of a declaration reads the parameters of its name, and no other. -/
theorem mem_slots_iff (h : Model.Built ws o config plans t m) {a : Place} {s : Sample K}
    {d : Declaration K} {e : Effect K} (ha : ws.declaration? a = some (s, d))
    (he : m.yields.effect? a = some e) (i : ℕ) :
    i ∈ e.slots ↔ ∃ p, m.parameters[i]? = some p ∧ p.modifier = d.name := by
  obtain ⟨md, hstated, hread⟩ := h.effect?_eq ha
  obtain rfl : md.effectAt o (m.slotOf d.name) s.data.length = e :=
    Option.some.inj (hread.symm.trans he)
  obtain ⟨hle, hblock⟩ := h.block (Workspace.declares_iff.mpr ⟨a, ha⟩) hstated
  rw [Modifier.slots_effectAt, List.mem_range'_1, ← Modifier.slotsIn_eq]
  constructor
  · intro hi
    have hlt : i < m.parameters.length := by omega
    exact ⟨_, List.getElem?_eq_getElem hlt, (hblock i _ (List.getElem?_eq_getElem hlt)).mpr hi⟩
  · intro hi
    obtain ⟨p, hp, hname⟩ := hi
    exact (hblock i p hp).mp hname

/-- Effects of declarations of one name read the same parameters in the same order. -/
theorem slots_eq (h : Model.Built ws o config plans t m) {a b : Place} {s s' : Sample K}
    {d d' : Declaration K} {e e' : Effect K} (ha : ws.declaration? a = some (s, d))
    (hb : ws.declaration? b = some (s', d')) (he : m.yields.effect? a = some e)
    (he' : m.yields.effect? b = some e') (hname : d.name = d'.name) : e.slots = e'.slots := by
  have hread : ∀ {a s d e}, ws.declaration? a = some (s, d) → m.yields.effect? a = some e →
      ∃ x ∈ plans.flatMap (·.registrations), x.modifier.name = d.name ∧
        e.slots = List.range' (m.slotOf d.name) x.slots := by
    intro a s d e ha he
    obtain ⟨x, hx, hstated, hnominal, -⟩ :=
      (Workspace.declares_iff.mpr ⟨a, ha⟩).exists_registration h.reads
    obtain ⟨md, hstated', heffect⟩ := h.effect?_eq ha
    obtain rfl := hstated.unique hstated'
    rw [he, Option.some.injEq] at heffect
    refine ⟨x, hx, hstated.name, ?_⟩
    rw [heffect, Modifier.slots_effectAt, ← Modifier.slotsIn_eq, ← hnominal]
    rfl
  obtain ⟨x, hx, hxname, hxslots⟩ := hread ha he
  obtain ⟨y, hy, hyname, hyslots⟩ := hread hb he'
  have hcount : x.slots = y.slots := by
    refine (h.agree x hx y hy).slots_eq ?_
    rw [hxname, hyname, hname]
  rw [hxslots, hyslots, hname, hcount]

end Model.Built

/-- The parameters of a model that has been built are partitioned by modifier name. They
come in one block for each distinct name, in the order in which the names are first met,
and the block is as long and as labelled as each declaration of the name asks for. There is
an effect at each place of a declaration and at no other place; effects of one name read the
same parameters, effects of different names have none in common, and each parameter is read
by some effect. -/
theorem Model.parameters_partitioned {ws : Workspace K} {o : Options K} {m : Model K}
    (h : Model.build ws o = .ok m) :
    (∃ blocks, m.parameters = blocks.flatten ∧
      List.Forall₂ (fun name block => ∀ a s d, ws.declaration? a = some (s, d) →
        d.name = name → d.HasBlock s.data.length block) ws.modifierNames.eraseDups blocks) ∧
    (∀ a, (∃ e, m.yields.effect? a = some e) ↔ ∃ s d, ws.declaration? a = some (s, d)) ∧
    (∀ a b s d s' d' e e', ws.declaration? a = some (s, d) →
      ws.declaration? b = some (s', d') → m.yields.effect? a = some e →
      m.yields.effect? b = some e' →
        (d.name = d'.name → e.slots = e'.slots) ∧
        (d.name ≠ d'.name → List.Disjoint e.slots e'.slots)) ∧
    ∀ i, i < m.parameters.length ↔ ∃ a e, m.yields.effect? a = some e ∧ i ∈ e.slots := by
  obtain ⟨config, plans, t, hbuilt⟩ := Model.build_eq_ok_iff.mp h
  refine ⟨?_, ?_, ?_, ?_⟩
  · obtain ⟨blocks, hflat, hblocks⟩ := hbuilt.exists_blocks
    refine ⟨blocks, hflat, hblocks.imp fun name block hblock a s d ha => ?_⟩
    exact hblock s d (Workspace.declares_iff.mpr ⟨a, ha⟩)
  · intro a
    constructor
    · intro heffect
      obtain ⟨e, he⟩ := heffect
      exact hbuilt.exists_declaration?_of_effect? he
    · intro hdeclared
      obtain ⟨s, d, ha⟩ := hdeclared
      obtain ⟨md, -, he⟩ := hbuilt.effect?_eq ha
      exact ⟨_, he⟩
  · intro a b s d s' d' e e' ha hb he he'
    refine ⟨hbuilt.slots_eq ha hb he he', fun hne => List.disjoint_left.mpr ?_⟩
    intro i hi hi'
    obtain ⟨p, hp, hname⟩ := (hbuilt.mem_slots_iff ha he i).mp hi
    obtain ⟨p', hp', hname'⟩ := (hbuilt.mem_slots_iff hb he' i).mp hi'
    rw [hp, Option.some.injEq] at hp'
    exact hne (hname.symm.trans (hp' ▸ hname'))
  · intro i
    constructor
    · intro hi
      have hp := List.getElem?_eq_getElem hi
      obtain ⟨s, d, hd, hname⟩ := hbuilt.exists_declares (List.mem_of_getElem? hp)
      obtain ⟨a, ha⟩ := Workspace.declares_iff.mp hd
      obtain ⟨md, -, he⟩ := hbuilt.effect?_eq ha
      exact ⟨a, _, he, (hbuilt.mem_slots_iff ha he i).mpr ⟨_, hp, hname.symm⟩⟩
    · intro hread
      obtain ⟨a, e, he, hi⟩ := hread
      obtain ⟨s, d, ha⟩ := hbuilt.exists_declaration?_of_effect? he
      obtain ⟨p, hp, -⟩ := (hbuilt.mem_slots_iff ha he i).mp hi
      exact (List.getElem?_eq_some_iff.mp hp).1

/-- The two regions have seven blocks. The rate of the signal region and that of the control
region read the same parameter, which the luminosity does not read; the last of the eight
parameters is read as well. -/
theorem Model.parameters_twoRegions :
    ∃ m, Model.build Workspace.twoRegions Options.standard = .ok m ∧
      (∃ blocks : List (List (Parameter Float)),
        m.parameters = blocks.flatten ∧ blocks.length = 7) ∧
      (∃ rate rate' luminosity, m.yields.effect? ⟨0, 1, 2⟩ = some rate ∧
        m.yields.effect? ⟨1, 0, 0⟩ = some rate' ∧
        m.yields.effect? ⟨1, 0, 1⟩ = some luminosity ∧ rate.slots = rate'.slots ∧
        List.Disjoint rate.slots luminosity.slots) ∧
      ∃ a e, m.yields.effect? a = some e ∧ 7 ∈ e.slots := by
  obtain ⟨m, hbuild, hcount⟩ := Model.exists_build_twoRegions
  obtain ⟨⟨blocks, hflat, hblocks⟩, heffects, hslots, hall⟩ :=
    Model.parameters_partitioned hbuild
  obtain ⟨rate, hrate⟩ := (heffects ⟨0, 1, 2⟩).mpr ⟨_, _, rfl⟩
  obtain ⟨rate', hrate'⟩ := (heffects ⟨1, 0, 0⟩).mpr ⟨_, _, rfl⟩
  obtain ⟨luminosity, hluminosity⟩ := (heffects ⟨1, 0, 1⟩).mpr ⟨_, _, rfl⟩
  have hnames : Workspace.twoRegions.modifierNames.eraseDups.length = 7 := by decide
  have hequal := (hslots ⟨0, 1, 2⟩ ⟨1, 0, 0⟩ _ _ _ _ _ _ rfl rfl hrate hrate').1
    (Eq.refl "rate")
  have hapart := (hslots ⟨0, 1, 2⟩ ⟨1, 0, 1⟩ _ _ _ _ _ _ rfl rfl hrate hluminosity).2
    (by decide)
  exact ⟨m, hbuild, ⟨blocks, hflat, hblocks.length_eq ▸ hnames⟩,
    ⟨rate, rate', luminosity, hrate, hrate', hluminosity, hequal, hapart⟩,
    (hall 7).mp (by omega)⟩

end BinnedModel
