import Mathlib
import BinnedModel.Proofs.Model.Reordering
import BinnedModel.Proofs.Model.SlotNames
import BinnedModel.Proofs.Registry.Sums

/-!
# Models of reordered workspaces

The models of two workspaces that differ in order only list their parameters and their bins
in different orders. A parameter is recognized by its modifier and its index among the
parameters of this modifier, a bin by its channel and its index in this channel. Over exact
scalars the models have, under these addresses, the same parameters, with the same kinds, priors
and starting values, acting on the same bins, and the same yields at every assignment of values
to the parameters. Over doubles the sums behind a prior or a yield are rounded in the order in
which they are taken, so only the first part remains: a model is built from both or from none.
-/

namespace BinnedModel

variable {K : Type}

namespace Model

/-- The parameter at an index among the parameters of a modifier. -/
def slot? (m : Model K) (modifier : String) (k : ℕ) : Option (Parameter K) :=
  m.parameters[m.slotOf modifier + k]?.filter fun p => p.modifier == modifier

/-- The vector of the values that are assigned to the parameters by modifier and index. -/
def vector (m : Model K) (a : String → ℕ → K) : List K :=
  m.parameters.mapIdx fun i p => a p.modifier (i - m.slotOf p.modifier)

/-- A parameter states the bin at an index in a channel as one on which it acts. -/
def ActsAt (m : Model K) (p : Parameter K) (channel : String) (bin : ℕ) : Prop :=
  ∃ l ∈ m.channels, l.name = channel ∧ bin < l.bins ∧ l.offset + bin ∈ p.bins

/-- The yield of the bin at an index in a channel. -/
def yieldAt? [Scalar K] (m : Model K) (params : List K) (channel : String) (bin : ℕ) :
    Option K := do
  let values ← (m.yields.eval params).toOption
  let l ← m.channels.find? fun l => l.name == channel
  (l.slice values)[bin]?

/-- The addresses of a model are complete. -/
structure Addressed (m : Model K) : Prop where
  /-- Each parameter is found at its address. -/
  found : ∀ i p, m.parameters[i]? = some p →
    m.slot? p.modifier (i - m.slotOf p.modifier) = some p
  /-- Each vector with one value per parameter is that of an assignment. -/
  assigned : ∀ params : List K, params.length = m.parameters.length → ∃ a, m.vector a = params

/-- Two models are the same up to the order of their parameters and their channels. -/
structure SameUpToOrder [Scalar K] (m m' : Model K) : Prop where
  /-- The addresses of both models are complete. -/
  addressed : m.Addressed ∧ m'.Addressed
  /-- Each modifier has the same parameters at the same indices: of the same kind, with the
  same prior and starting value, acting on the same bins. -/
  slots : ∀ modifier k, Option.Rel (fun p p' => p.kind = p'.kind ∧ p.prior = p'.prior ∧
    p.init = p'.init ∧ ∀ channel bin, m.ActsAt p channel bin ↔ m'.ActsAt p' channel bin)
      (m.slot? modifier k) (m'.slot? modifier k)
  /-- The channels have the same names and numbers of bins. -/
  channels : ∀ name bins, (∃ l ∈ m.channels, l.name = name ∧ l.bins = bins) ↔
    ∃ l ∈ m'.channels, l.name = name ∧ l.bins = bins
  /-- Each bin of each channel has the same yield at each assignment of values. -/
  yields : ∀ a : String → ℕ → K, ∀ l ∈ m.channels, ∀ bin < l.bins, ∃ value,
    m.yieldAt? (m.vector a) l.name bin = some value ∧
      m'.yieldAt? (m'.vector a) l.name bin = some value

/-- There is a parameter at an index of a modifier if the parameter at this distance from the
first one of the modifier belongs to the modifier. -/
theorem slot?_eq_some_iff {m : Model K} {modifier : String} {k : ℕ} {p : Parameter K} :
    m.slot? modifier k = some p ↔
      m.parameters[m.slotOf modifier + k]? = some p ∧ p.modifier = modifier := by
  rw [slot?, Option.filter_eq_some_iff, beq_iff_eq]

/-- A vector of assigned values has one for each parameter. -/
@[simp] theorem length_vector (m : Model K) (a : String → ℕ → K) :
    (m.vector a).length = m.parameters.length :=
  List.length_mapIdx

end Model

variable [Scalar K] {config : Option (MeasurementConfig K)}

/-- The plans of reordered samples have the same yields, and the same modifiers up to
order. -/
theorem Sample.Reordered.perm_modifiers {s s' : Sample K} {q q' : String × SamplePlan K}
    (h : s.Reordered s') (hq : s.Reads config q) (hq' : s'.Reads config q') :
    q'.2.nominal = q.2.nominal ∧ q.2.modifiers.Perm q'.2.modifiers := by
  have hmodifiers' := hq'.modifiers
  rw [h.data] at hmodifiers'
  have hunique : Relator.RightUnique (Declaration.Says config s.data.length) :=
    fun _ _ _ hm hm' => hm.unique hm'
  refine ⟨by rw [hq'.nominal, hq.nominal, h.data], ?_⟩
  exact List.rel_perm_imp hunique hq.modifiers hmodifiers' h.modifiers

/-- The plans of reordered channels have the same registrations up to order and places. -/
theorem Channel.Reordered.perm_registrations {c c' : Channel K} {p p' : ChannelPlan K}
    (h : c.Reordered c') (hp : c.Reads config p) (hp' : c'.Reads config p') :
    (p.registrations.map Registration.unplaced).Perm
      (p'.registrations.map Registration.unplaced) := by
  rw [ChannelPlan.registrations, ChannelPlan.registrations, List.map_flatMap, List.map_flatMap]
  refine (h.samples.lift hp.samples hp'.samples).perm_flatMap fun q q' hqq' => ?_
  obtain ⟨s, s', hsample, hq, hq'⟩ := hqq'
  obtain ⟨hnominal, hmodifiers⟩ := hsample.perm_modifiers hq hq'
  have hmap : ∀ (u : SamplePlan K) (offset : ℕ),
      (u.registrations offset).map Registration.unplaced =
        u.modifiers.map fun md => ⟨md, u.nominal, 0⟩ := by
    intro u offset
    rw [SamplePlan.registrations, List.map_map]
    rfl
  rw [hmap, hmap, hnominal]
  exact hmodifiers.map _

namespace Model.Built

variable {ws ws' : Workspace K} {o : Options K} {plans plans' : List (ChannelPlan K)}
  {t t' : ParameterTable K} {m m' : Model K}

/-- Models of reordered workspaces have the same registrations up to order and places. -/
theorem perm_registrations (h : Model.Built ws o config plans t m)
    (h' : Model.Built ws' o config plans' t' m') (hre : ws.Reordered ws') :
    ((plans.flatMap (·.registrations)).map Registration.unplaced).Perm
      ((plans'.flatMap (·.registrations)).map Registration.unplaced) := by
  rw [List.map_flatMap, List.map_flatMap]
  refine (hre.channels.lift h.reads h'.reads).perm_flatMap fun p p' hpp' => ?_
  obtain ⟨c, c', hchannel, hp, hp'⟩ := hpp'
  exact hchannel.perm_registrations hp hp'

/-- The addresses of a model that has been built are complete. -/
theorem addressed (h : Model.Built ws o config plans t m) : m.Addressed := by
  have hindex : ∀ i p, m.parameters[i]? = some p →
      m.slotOf p.modifier + (i - m.slotOf p.modifier) = i := by
    intro i p hp
    obtain ⟨e, k, -, -, -, hi, -⟩ := h.exists_parameter hp
    omega
  refine ⟨fun i p hp => ?_, fun params hparams => ?_⟩
  · exact Model.slot?_eq_some_iff.mpr ⟨(hindex i p hp).symm ▸ hp, rfl⟩
  · refine ⟨fun modifier k => params.getD (m.slotOf modifier + k) 0, ?_⟩
    refine List.ext_getElem? fun i => ?_
    rw [Model.vector, List.getElem?_mapIdx]
    cases hp : m.parameters[i]? with
    | none =>
      rw [List.getElem?_eq_none_iff] at hp
      rw [Option.map_none, List.getElem?_eq_none (by omega)]
    | some p =>
      have hlt := (List.getElem?_eq_some_iff.mp hp).1
      rw [Option.map_some, hindex i p hp, List.getD_eq_getElem?_getD,
        List.getElem?_eq_getElem (by omega), Option.getD_some]

/-- The registrations of a model fit their samples. -/
theorem fits (h : Model.Built ws o config plans t m) {x : Registration K}
    (hx : x ∈ plans.flatMap (·.registrations)) : x.modifier.Fits x.nominal.length := by
  obtain ⟨s, d, -, hstated, hnominal⟩ := Workspace.exists_declares h.reads hx
  rw [hnominal]
  exact hstated.fits

/-- At the address of a parameter, the model of a reordered workspace has a parameter of the
same kind, with the same prior and starting value, since both come from entries with the same
sums. -/
theorem exists_slot [Scalar.Exact K] (h : Model.Built ws o config plans t m)
    (h' : Model.Built ws' o config plans' t' m') (hre : ws.Reordered ws') {modifier : String}
    {k : ℕ} {p : Parameter K} (hp : m.slot? modifier k = some p) :
    ∃ q, m'.slot? modifier k = some q ∧ p.kind = q.kind ∧ p.prior = q.prior ∧
      p.init = q.init := by
  obtain ⟨hp, rfl⟩ := Model.slot?_eq_some_iff.mp hp
  obtain ⟨s, d, l, hd, hname, hkind, hl, hi, -⟩ := h.exists_slotName hp
  obtain rfl : k = l := by omega
  obtain ⟨s', hd', hdata⟩ := hre.symm.exists_declares hd
  rw [← hdata] at hl
  obtain ⟨q, hq, hqname, hqkind, -⟩ := h'.exists_parameter_of_declares hd' hkind hl
  rw [hname] at hq hqname
  obtain ⟨e, j, hgroup, -, -, hj, hparameter⟩ := h.exists_parameter hp
  obtain ⟨e', j', hgroup', -, -, hj', hparameter'⟩ := h'.exists_parameter hq
  rw [hqname] at hgroup' hj' hparameter'
  obtain rfl : k = j := by omega
  obtain rfl : k = j' := by omega
  obtain ⟨hename, hekind, -, hsums⟩ := Entry.same_of_perm h.agree h'.agree
    (fun x hx => h.fits hx) (h.perm_registrations h' hre) hgroup hgroup'
  rw [Entry.parameter_of_sums hename hekind hsums, hparameter] at hparameter'
  obtain rfl := Except.ok.inj hparameter'
  exact ⟨_, Model.slot?_eq_some_iff.mpr ⟨hq, hqname⟩, rfl, rfl, rfl⟩

/-- Two channels of a model that share a bin are the same. -/
theorem channel_unique (h : Model.Built ws o config plans t m) {j j' g : ℕ}
    {l l' : ChannelLayout} (hj : m.channels[j]? = some l) (hj' : m.channels[j']? = some l')
    (hg : l.offset ≤ g ∧ g < l.offset + l.bins)
    (hg' : l'.offset ≤ g ∧ g < l'.offset + l'.bins) : j = j' := by
  have hdisjoint : m.channels.Pairwise fun a b => a.offset + a.bins ≤ b.offset := by
    rw [h.layouts_eq, List.pairwise_map]
    exact pairwise_of_blockStarts h.offsets
  rw [List.pairwise_iff_getElem] at hdisjoint
  obtain ⟨hlt, rfl⟩ := List.getElem?_eq_some_iff.mp hj
  obtain ⟨hlt', rfl⟩ := List.getElem?_eq_some_iff.mp hj'
  rcases Nat.lt_trichotomy j j' with hjj | hjj | hjj
  · have hend := hdisjoint j j' hlt hlt' hjj
    omega
  · exact hjj
  · have hend := hdisjoint j' j hlt' hlt hjj
    omega

/-- A parameter acts on the bins of the channels that declare its modifier and, with a
parameter per bin, on the bin at its own index only. -/
theorem actsAt_iff (h : Model.Built ws o config plans t m) {i : ℕ} {p : Parameter K}
    (hp : m.parameters[i]? = some p) {channel : String} {bin : ℕ} :
    m.ActsAt p channel bin ↔ ∃ c ∈ ws.channels, c.name = channel ∧ bin < c.bins ∧
      (∃ s ∈ c.samples, ∃ d ∈ s.modifiers, d.name = p.modifier) ∧
      (p.kind.isPerBin = true → bin = i - m.slotOf p.modifier) := by
  constructor
  · intro hacts
    obtain ⟨l, hl, hname, hbin, hmem⟩ := hacts
    obtain ⟨j, hj⟩ := List.mem_iff_getElem?.mp hl
    obtain ⟨j', c, l', hc, hj', hcname, hle, hlt, hdeclared, hper⟩ :=
      (h.mem_bins_iff hp).mp hmem
    obtain rfl := h.channel_unique hj hj' ⟨by omega, by omega⟩ ⟨hle, hlt⟩
    obtain rfl : l = l' := Option.some.inj (hj.symm.trans hj')
    obtain ⟨plan, -, hread, hlayout, -⟩ := h.exists_plan hc
    obtain rfl : plan.layout = l := Option.some.inj (hlayout.symm.trans hj)
    refine ⟨c, List.mem_of_getElem? hc, hcname.symm.trans hname, hread.bins ▸ hbin, hdeclared,
      fun hperBin => ?_⟩
    have hoffset := hper hperBin
    omega
  · intro hdeclared
    obtain ⟨c, hc, rfl, hbin, hdeclares, hper⟩ := hdeclared
    obtain ⟨j, hj⟩ := List.mem_iff_getElem?.mp hc
    obtain ⟨plan, -, hread, hlayout, -⟩ := h.exists_plan hj
    have hlt : bin < plan.bins := hread.bins ▸ hbin
    refine ⟨plan.layout, List.mem_of_getElem? hlayout, hread.name, hlt, ?_⟩
    refine (h.mem_bins_iff hp).mpr ⟨j, c, plan.layout, hj, hlayout, hread.name,
      Nat.le_add_right _ _, Nat.add_lt_add_left hlt _, hdeclares, fun hperBin => ?_⟩
    rw [hper hperBin]

/-- Parameters at one address act on the same bins in models of reordered workspaces. -/
theorem actsAt_of_reordered (h : Model.Built ws o config plans t m)
    (h' : Model.Built ws' o config plans' t' m') (hre : ws.Reordered ws') {modifier : String}
    {k : ℕ} {p q : Parameter K} (hp : m.slot? modifier k = some p)
    (hq : m'.slot? modifier k = some q) (hkind : p.kind = q.kind) {channel : String} {bin : ℕ}
    (hacts : m.ActsAt p channel bin) : m'.ActsAt q channel bin := by
  obtain ⟨hp, hpname⟩ := Model.slot?_eq_some_iff.mp hp
  obtain ⟨hq, hqname⟩ := Model.slot?_eq_some_iff.mp hq
  obtain ⟨c, hc, hname, hbin, ⟨s, hs, d, hd, hmodifier⟩, hper⟩ := (h.actsAt_iff hp).mp hacts
  obtain ⟨c', hc', hchannel⟩ := hre.channels.symm.exists_left hc
  obtain ⟨s', hs', hsample⟩ := hchannel.samples.symm.exists_left hs
  obtain ⟨plan, -, hread⟩ := exists_mem_of_forall₂_left h.reads hc
  have hbins := (hchannel.regular hread.regular).2
  refine (h'.actsAt_iff hq).mpr ⟨c', hc', hchannel.name.trans hname, hbins ▸ hbin,
    ⟨s', hs', d, hsample.modifiers.mem_iff.mp hd, ?_⟩, fun hperBin => ?_⟩
  · rw [hmodifier, hpname, hqname]
  · rw [hper (hkind ▸ hperBin), hpname, hqname]
    omega

/-- The channels of a model have the names and the numbers of bins of those of its
workspace. -/
theorem exists_layout_iff (h : Model.Built ws o config plans t m) {name : String} {bins : ℕ} :
    (∃ l ∈ m.channels, l.name = name ∧ l.bins = bins) ↔
      ∃ c ∈ ws.channels, c.name = name ∧ c.bins = bins := by
  rw [h.layouts_eq]
  constructor
  · intro hl
    obtain ⟨l, hl, hname, hbins⟩ := hl
    obtain ⟨p, hp, rfl⟩ := List.mem_map.mp hl
    obtain ⟨c, hc, hread⟩ := exists_mem_of_forall₂_right h.reads hp
    exact ⟨c, hc, hread.name.symm.trans hname, hread.bins.symm.trans hbins⟩
  · intro hc
    obtain ⟨c, hc, hname, hbins⟩ := hc
    obtain ⟨p, hp, hread⟩ := exists_mem_of_forall₂_left h.reads hc
    exact ⟨p.layout, List.mem_map_of_mem hp, hread.name.trans hname, hread.bins.trans hbins⟩

/-- Reordered workspaces have the same channel names and numbers of bins. -/
theorem exists_channel_of_reordered (h : Model.Built ws o config plans t m)
    (hre : ws.Reordered ws') {name : String} {bins : ℕ}
    (hc : ∃ c ∈ ws.channels, c.name = name ∧ c.bins = bins) :
    ∃ c ∈ ws'.channels, c.name = name ∧ c.bins = bins := by
  obtain ⟨c, hc, hname, hbins⟩ := hc
  obtain ⟨c', hc', hchannel⟩ := hre.channels.symm.exists_left hc
  obtain ⟨p, -, hread⟩ := exists_mem_of_forall₂_left h.reads hc
  exact ⟨c', hc', hchannel.name.trans hname,
    (hchannel.regular hread.regular).2.trans hbins⟩

end Model.Built

/-- An effect whose parameters start at a slot does what the effect at the first slot does with
the values behind this slot. -/
theorem Modifier.effectAt_shift (md : Modifier K) (o : Options K) {slot bins bin : ℕ}
    (hbin : bin < bins) {p a : ℕ → K} (h : ∀ k < md.slotsIn bins, p (slot + k) = a k)
    (nominal : K) :
    (md.effectAt o slot bins).shiftAt? o.additive p nominal bin =
        (md.effectAt o 0 bins).shiftAt? o.additive a nominal bin ∧
      (md.effectAt o slot bins).factorAt? p bin = (md.effectAt o 0 bins).factorAt? a bin := by
  have hbins : (∀ k < bins, p (slot + k) = a k) →
      (List.range' slot bins)[bin]?.map p = (List.range' 0 bins)[bin]?.map a := by
    intro hall
    rw [List.getElem?_range' hbin, List.getElem?_range' hbin, Nat.one_mul, Nat.zero_add,
      Option.map_some, Option.map_some, hall bin hbin]
  have hone : (∀ k < 1, p (slot + k) = a k) → p slot = a 0 := fun hall => hall 0 Nat.one_pos
  unfold slotsIn kind at h
  unfold effectAt
  cases hp : md.payload with
  | normfactor =>
    rw [hp] at h
    exact ⟨rfl, congrArg some (hone h)⟩
  | lumi sigma =>
    rw [hp] at h
    exact ⟨rfl, congrArg some (hone h)⟩
  | normsys lo hi =>
    rw [hp] at h
    exact ⟨rfl, by rw [Effect.factorAt?, Effect.factorAt?, hone h]⟩
  | histosys lo hi =>
    rw [hp] at h
    exact ⟨by rw [Effect.shiftAt?, Effect.shiftAt?, hone h], rfl⟩
  | shapefactor =>
    rw [hp] at h
    exact ⟨rfl, hbins h⟩
  | shapesys delta =>
    rw [hp] at h
    exact ⟨rfl, hbins h⟩
  | staterror delta =>
    rw [hp] at h
    exact ⟨rfl, hbins h⟩

/-- The yield of a sample in a bin at an assignment of values to the parameters. -/
def SamplePlan.yield (q : SamplePlan K) (o : Options K) (a : String → ℕ → K) (bin : ℕ) : K :=
  let nominal := q.nominal.getD bin 0
  let effect := fun md : Modifier K => md.effectAt o 0 q.nominal.length
  (nominal + Scalar.total (q.modifiers.filterMap fun md =>
      (effect md).shiftAt? o.additive (a md.name) nominal bin)) *
    Scalar.product (q.modifiers.filterMap fun md => (effect md).factorAt? (a md.name) bin)

/-- The yield of a channel in a bin at an assignment of values to the parameters. -/
def ChannelPlan.yield (p : ChannelPlan K) (o : Options K) (a : String → ℕ → K) (bin : ℕ) : K :=
  Scalar.total (p.samples.map fun s => s.2.yield o a bin)

/-- A sample has its yield at an assignment if the parameters of its modifiers have the values
that are assigned to them. -/
theorem SamplePlan.yieldAt_eq {q : SamplePlan K} {o : Options K} {slot : String → ℕ}
    {p : ℕ → K} {a : String → ℕ → K} {bin : ℕ} (hbin : bin < q.nominal.length)
    (h : ∀ md ∈ q.modifiers, ∀ k < md.slotsIn q.nominal.length,
      p (slot md.name + k) = a md.name k) :
    (q.yieldsAt o slot).yieldAt o.additive p bin = q.yield o a bin := by
  unfold SampleYields.yieldAt SamplePlan.yieldsAt yield
  dsimp only
  rw [List.filterMap_map, List.filterMap_map]
  have heffect := fun md hmd =>
    Modifier.effectAt_shift md o hbin (h md hmd) (q.nominal.getD bin 0)
  refine congrArg₂ (fun shifts factors =>
    (q.nominal.getD bin 0 + Scalar.total shifts) * Scalar.product factors)
      (List.filterMap_congr fun md hmd => ?_) (List.filterMap_congr fun md hmd => ?_)
  · exact (heffect md hmd).1
  · exact (heffect md hmd).2

/-- A channel has its yield at an assignment if the parameters of its registrations have the
values that are assigned to them. -/
theorem Channel.Reads.getElem?_yields {c : Channel K} {q : ChannelPlan K}
    (hread : c.Reads config q) {o : Options K} {slot : String → ℕ} {p : ℕ → K}
    {a : String → ℕ → K} {bin : ℕ} (hbin : bin < q.bins)
    (h : ∀ x ∈ q.registrations, ∀ k < x.modifier.slotsIn x.nominal.length,
      p (slot x.modifier.name + k) = a x.modifier.name k) :
    ((q.yieldsAt o slot).yields o.additive p)[bin]? = some (q.yield o a bin) := by
  have hsample : ∀ s ∈ q.samples,
      (s.2.yieldsAt o slot).yieldAt o.additive p bin = s.2.yield o a bin := by
    intro s hs
    obtain ⟨sample, hmem, hsread⟩ := exists_mem_of_forall₂_right hread.samples hs
    have hlength : bin < s.2.nominal.length := by
      rw [hsread.nominal, hread.regular.bins_eq sample hmem, ← hread.bins]
      exact hbin
    refine SamplePlan.yieldAt_eq hlength fun md hmd => ?_
    exact h ⟨md, s.2.nominal, q.offset⟩
      (List.mem_flatMap.mpr ⟨s, hs, List.mem_map_of_mem hmd⟩)
  rw [ChannelYields.yields, List.getElem?_map]
  change ((List.range q.bins)[bin]?.map _) = _
  rw [List.getElem?_range hbin, Option.map_some, ChannelPlan.yield,
    ← List.map_congr_left hsample, ChannelPlan.yieldsAt, List.map_map]
  rfl

section Exact

variable [Scalar.Exact K]

/-- The plans of reordered samples have the same yields. -/
theorem Sample.Reordered.yield_eq {s s' : Sample K} {q q' : String × SamplePlan K}
    (h : s.Reordered s') (hq : s.Reads config q) (hq' : s'.Reads config q') (o : Options K)
    (a : String → ℕ → K) (bin : ℕ) : q.2.yield o a bin = q'.2.yield o a bin := by
  obtain ⟨hnominal, hmodifiers⟩ := h.perm_modifiers hq hq'
  unfold SamplePlan.yield
  dsimp only
  rw [hnominal, Scalar.total_perm (hmodifiers.filterMap _),
    Scalar.product_perm (hmodifiers.filterMap _)]

/-- The plans of reordered channels have the same yields. -/
theorem Channel.Reordered.yield_eq {c c' : Channel K} {p p' : ChannelPlan K}
    (h : c.Reordered c') (hp : c.Reads config p) (hp' : c'.Reads config p') (o : Options K)
    (a : String → ℕ → K) (bin : ℕ) : p.yield o a bin = p'.yield o a bin := by
  refine Scalar.total_perm ((h.samples.lift hp.samples hp'.samples).perm_map fun q q' hqq' => ?_)
  obtain ⟨s, s', hsample, hq, hq'⟩ := hqq'
  exact hsample.yield_eq hq hq' o a bin

end Exact

namespace Model.Built

variable {ws ws' : Workspace K} {o : Options K} {plans plans' : List (ChannelPlan K)}
  {t t' : ParameterTable K} {m m' : Model K}

/-- The vector of an assignment holds for each declared modifier the values that are assigned
to its parameters. -/
theorem getD_vector (h : Model.Built ws o config plans t m) (a : String → ℕ → K)
    {x : Registration K} (hx : x ∈ plans.flatMap (·.registrations)) {k : ℕ}
    (hk : k < x.modifier.slotsIn x.nominal.length) :
    (m.vector a).getD (m.slotOf x.modifier.name + k) 0 = a x.modifier.name k := by
  obtain ⟨s, d, hd, hstated, hnominal⟩ := Workspace.exists_declares h.reads hx
  rw [Modifier.slotsIn_eq, hnominal] at hk
  obtain ⟨p, hp, hname, -, -⟩ := h.exists_parameter_of_declares hd hstated.kind hk
  rw [hstated.name, List.getD_eq_getElem?_getD, Model.vector, List.getElem?_mapIdx, hp,
    Option.map_some, Option.getD_some, hname, Nat.add_sub_cancel_left]

/-- The yield of a bin at its address is that of the channel in which it lies. -/
theorem yieldAt?_eq (h : Model.Built ws o config plans t m) {params : List K}
    (hparams : params.length = m.parameters.length) {j : ℕ} {c : Channel K}
    {y : ChannelYields K} (hc : ws.channels[j]? = some c) (hy : m.yields.channels[j]? = some y)
    {bin : ℕ} (hbin : bin < c.bins) :
    m.yieldAt? params c.name bin =
      (y.yields o.additive fun i => params.getD i 0)[bin]? := by
  obtain ⟨p, -, hread, hlayout, hoffset⟩ := h.exists_plan hc
  obtain ⟨c', hc', hcompiled⟩ := getElem?_of_forall₂_right h.compiles hy
  obtain rfl : c = c' := Option.some.inj (hc.symm.trans hc')
  have hnames : (m.channels.map (·.name)).Nodup := by
    have hsame := map_eq_map_of_forall₂ (h.reads.imp fun _ _ hc => hc.name.symm)
    rw [h.layouts_eq, List.map_map]
    exact hsame ▸ h.names
  have hfind := find?_eq_some_of_mem hnames (List.mem_of_getElem? hlayout)
  have hname : p.layout.name = c.name := hread.name
  have hslice : ∀ values : List K, (p.layout.slice values)[bin]? =
      values[((ws.channels.take j).map Channel.bins).sum + bin]? := by
    intro values
    have hlt : bin < p.layout.bins := (show bin < p.bins from hread.bins ▸ hbin)
    rw [ChannelLayout.slice, List.getElem?_take_of_lt hlt, List.getElem?_drop, ← hoffset]
    rfl
  rw [hname] at hfind
  rw [← h.getElem?_yields hy (hcompiled.bins ▸ hbin), ← hslice, Model.yieldAt?,
    h.eval_eq hparams, hfind]
  rfl

/-- At the vector of an assignment each bin of a channel has the yield of the plan at the
assignment. -/
theorem yieldAt?_vector (h : Model.Built ws o config plans t m) (a : String → ℕ → K) {j : ℕ}
    {c : Channel K} {p : ChannelPlan K} (hc : ws.channels[j]? = some c)
    (hp : plans[j]? = some p) (hread : c.Reads config p) {bin : ℕ} (hbin : bin < c.bins) :
    m.yieldAt? (m.vector a) c.name bin = some (p.yield o a bin) := by
  have hy : m.yields.channels[j]? = some (p.yieldsAt o m.slotOf) := by
    rw [h.slotOf_eq, h.model, List.getElem?_map, hp, Option.map_some]
  rw [h.yieldAt?_eq (m.length_vector a) hc hy hbin]
  refine hread.getElem?_yields (hread.bins ▸ hbin) fun x hx k hk => ?_
  exact h.getD_vector a (List.mem_flatMap.mpr ⟨p, List.mem_of_getElem? hp, hx⟩) hk

/-- Bins at one address have the same yield in models of reordered workspaces, at each
assignment of values to the parameters. -/
theorem yield_of_reordered [Scalar.Exact K] (h : Model.Built ws o config plans t m)
    (h' : Model.Built ws' o config plans' t' m') (hre : ws.Reordered ws')
    (a : String → ℕ → K) {c : Channel K} (hc : c ∈ ws.channels) {bin : ℕ}
    (hbin : bin < c.bins) :
    ∃ value, m.yieldAt? (m.vector a) c.name bin = some value ∧
      m'.yieldAt? (m'.vector a) c.name bin = some value := by
  obtain ⟨c', hc', hchannel⟩ := hre.channels.symm.exists_left hc
  obtain ⟨j, hj⟩ := List.mem_iff_getElem?.mp hc
  obtain ⟨j', hj'⟩ := List.mem_iff_getElem?.mp hc'
  obtain ⟨p, hp, hread, -⟩ := h.exists_plan hj
  obtain ⟨p', hp', hread', -⟩ := h'.exists_plan hj'
  have hbins := (hchannel.regular hread.regular).2
  refine ⟨_, h.yieldAt?_vector a hj hp hread hbin, ?_⟩
  rw [← hchannel.name, h'.yieldAt?_vector a hj' hp' hread' (hbins ▸ hbin),
    hchannel.yield_eq hread hread' o a bin]

/-- Models of reordered workspaces are the same up to the order of their parameters and their
channels. -/
theorem sameUpToOrder [Scalar.Exact K] (h : Model.Built ws o config plans t m)
    (h' : Model.Built ws' o config plans' t' m') (hre : ws.Reordered ws') :
    m.SameUpToOrder m' := by
  refine ⟨⟨h.addressed, h'.addressed⟩, fun modifier k => ?_, fun name bins => ?_,
    fun a l hl bin hbin => ?_⟩
  · cases hp : m.slot? modifier k with
    | none =>
      cases hq : m'.slot? modifier k with
      | none => exact .none
      | some q =>
        obtain ⟨p, hp', -⟩ := h'.exists_slot h hre.symm hq
        rw [hp] at hp'
        cases hp'
    | some p =>
      obtain ⟨q, hq, hkind, hprior, hinit⟩ := h.exists_slot h' hre hp
      rw [hq]
      refine .some ⟨hkind, hprior, hinit, fun channel bin => ⟨?_, ?_⟩⟩
      · exact h.actsAt_of_reordered h' hre hp hq hkind
      · exact h'.actsAt_of_reordered h hre.symm hq hp hkind.symm
  · rw [h.exists_layout_iff, h'.exists_layout_iff]
    exact ⟨h.exists_channel_of_reordered hre, h'.exists_channel_of_reordered hre.symm⟩
  · obtain ⟨c, hc, hname, hbins⟩ := h.exists_layout_iff.mp ⟨l, hl, rfl, rfl⟩
    rw [← hname]
    exact h.yield_of_reordered h' hre a hc (hbins ▸ hbin)

end Model.Built

/-- From workspaces that differ in the order of channels, samples and modifiers only, either a
model is built from both or from none. Over exact scalars the models are the same up to the
order of their parameters and their channels: at the same addresses, which are complete in both,
they have the same parameters, acting on the same bins, and they have the same yields at each
assignment of values. -/
theorem Model.build_reordered [Scalar.OrdersFinite K] {ws ws' : Workspace K} (o : Options K)
    (h : ws.Reordered ws') :
    ((∃ m, Model.build ws o = .ok m) ↔ ∃ m', Model.build ws' o = .ok m') ∧
    (Scalar.Exact K → ∀ m m', Model.build ws o = .ok m → Model.build ws' o = .ok m' →
      m.SameUpToOrder m') := by
  have hbuild : ∀ {u u' : Workspace K}, u.Reordered u' →
      (∃ m, Model.build u o = .ok m) → ∃ m', Model.build u' o = .ok m' := by
    intro u u' hre hm
    obtain ⟨m, hm⟩ := hm
    obtain ⟨config, plans, t, hbuilt⟩ := Model.build_eq_ok_iff.mp hm
    obtain ⟨plans', t', m', hbuilt'⟩ := hbuilt.exists_reordered hre
    exact ⟨m', Model.build_eq_ok_iff.mpr ⟨config, plans', t', hbuilt'⟩⟩
  refine ⟨⟨hbuild h, hbuild h.symm⟩, fun hexact m m' hm hm' => ?_⟩
  obtain ⟨config, plans, t, hbuilt⟩ := Model.build_eq_ok_iff.mp hm
  obtain ⟨config', plans', t', hbuilt'⟩ := Model.build_eq_ok_iff.mp hm'
  have hsettings := hbuilt'.settings
  rw [h.settings_eq, hbuilt.settings] at hsettings
  obtain rfl := Except.ok.inj hsettings
  exact hbuilt.sameUpToOrder hbuilt' h

/-- Two regions over the real numbers that share a signal strength and a shift; two samples of
the signal region share their statistical factors. -/
noncomputable def Workspace.regions : Workspace ℝ :=
  { channels :=
      [⟨"signal region",
        [⟨"signal", [3, 5], [.normfactor "mu", .staterror "counts" [1, 3]]⟩,
        ⟨"background", [40, 50],
          [.histosys "scale" [38, 49] [42, 51], .staterror "counts" [4, 5]]⟩]⟩,
      ⟨"control region",
        [⟨"background", [100], [.histosys "scale" [90] [110], .normfactor "mu"]⟩]⟩]
    observations := []
    measurements := [⟨"fit", "mu", []⟩]
    version := none }

/-- The same regions with the control region first, the samples of the signal region exchanged,
and so the modifiers of two samples. -/
noncomputable def Workspace.regionsExchanged : Workspace ℝ :=
  { Workspace.regions with
    channels :=
      [⟨"control region",
        [⟨"background", [100], [.normfactor "mu", .histosys "scale" [90] [110]]⟩]⟩,
      ⟨"signal region",
        [⟨"background", [40, 50],
          [.staterror "counts" [4, 5], .histosys "scale" [38, 49] [42, 51]]⟩,
        ⟨"signal", [3, 5], [.normfactor "mu", .staterror "counts" [1, 3]]⟩]⟩] }

/-- Without settings the standard options admit each parameter, if they are admissible. -/
theorem ModifierKind.admissible_of_unset {K : Type} [Scalar K] [Scalar.OrdersFinite K]
    (hstandard : (Options.standard : Options K).check = .ok ()) (kind : ModifierKind) (k : ℕ) :
    kind.Admissible none (Options.standard : Options K) k := by
  have hfree : FreeAdmissible none (Options.standard : Options K) k :=
    Options.check_eq_ok_iff.mp hstandard
  refine ⟨?_, fun hfixed => ?_⟩
  · cases kind <;> first | exact hfree | trivial
  · obtain ⟨s, hs, -⟩ := hfixed
    cases hs

/-- Over the real numbers the standard options are admissible. -/
theorem Options.check_standard : (Options.standard : Options ℝ).check = .ok () := by
  refine Options.check_eq_ok_iff.mpr ⟨rfl, rfl, ?_⟩
  change (0 : ℝ) ≤ ((10 : ℕ) : ℝ)
  norm_num

/-- Over the real numbers the standard options admit each parameter without settings. -/
theorem ModifierKind.admissible_standard (kind : ModifierKind) (k : ℕ) :
    kind.Admissible none (Options.standard : Options ℝ) k :=
  admissible_of_unset Options.check_standard kind k

/-- From channels that are read, a model over the real numbers is built under the standard
options if the measurement sets no parameter. -/
theorem Model.exists_build_of_unset {ws : Workspace ℝ} {config : Option (MeasurementConfig ℝ)}
    (hchannels : ws.channels ≠ []) (hsettings : ws.settings Options.standard = .ok config)
    (hunset : ∀ name, (config.bind fun c => c.parameter? name) = none)
    (hread : ∃ r plans, planChannels 0 [] ws.channels (Registry.empty config) = .ok (r, plans)) :
    ∃ m, Model.build ws Options.standard = .ok m := by
  obtain ⟨r, plans, hplans⟩ := hread
  have hconfig : r.config = config := by
    obtain ⟨-, -, -, -, rfl⟩ := planChannels_eq_ok_iff.mp hplans
    exact Registry.enterAll_config _ _
  refine Model.exists_build_of_plans Options.check_standard hchannels hsettings hplans
    fun e _ k _ => ?_
  rw [Registry.settings?, hconfig, hunset]
  exact ModifierKind.admissible_standard e.kind k

/-- From the two regions a model is built. -/
theorem Model.exists_build_regions :
    ∃ m, Model.build Workspace.regions Options.standard = .ok m :=
  Model.exists_build_of_unset (List.cons_ne_nil _ _) rfl (fun _ => rfl) ⟨_, _, rfl⟩

/-- From both orders of the regions a model is built, and the models are the same up to
order. -/
theorem Model.sameUpToOrder_regions :
    ∃ m m', Model.build Workspace.regions Options.standard = .ok m ∧
      Model.build Workspace.regionsExchanged Options.standard = .ok m' ∧
      m.SameUpToOrder m' := by
  have hreordered : Workspace.regions.Reordered Workspace.regionsExchanged := by
    refine ⟨⟨_, List.Perm.swap _ _ _, .cons ⟨rfl, ?_⟩ (.cons ⟨rfl, ?_⟩ .nil)⟩, rfl, rfl, rfl⟩
    · exact ⟨_, .refl _, .cons ⟨rfl, rfl, List.Perm.swap _ _ _⟩ .nil⟩
    · exact ⟨_, List.Perm.swap _ _ _, .cons ⟨rfl, rfl, List.Perm.swap _ _ _⟩
        (.cons ⟨rfl, rfl, .refl _⟩ .nil)⟩
  obtain ⟨hiff, hsame⟩ := Model.build_reordered Options.standard hreordered
  obtain ⟨m, hm⟩ := Model.exists_build_regions
  obtain ⟨m', hm'⟩ := hiff.mp ⟨m, hm⟩
  exact ⟨m, m', hm, hm', hsame inferInstance m m' hm hm'⟩

end BinnedModel
