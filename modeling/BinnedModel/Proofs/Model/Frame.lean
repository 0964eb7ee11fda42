import Mathlib
import BinnedModel.Proofs.Model.Partition
import BinnedModel.Proofs.Registry.BinMap

/-!
# The bins that a parameter changes

Each parameter of a model states the bins on which it acts. The statement is collected while
channels are read, from offsets and numbers of bins; the yields are computed later, from the
slots of the effects. The two fit together: the stated bins are those of the channels that
declare the modifier of the parameter, with one bin each for a parameter per bin, and a
change of the parameter changes no yield in any other bin.
-/

namespace BinnedModel

variable {K : Type}

/-- A parameter acts on a bin: the bin is of a channel in which some sample declares the
modifier of the parameter and, if the modifier has a parameter per bin, its index in the
channel is that of the parameter in its block. -/
def Model.ActsOn (m : Model K) (ws : Workspace K) (i : ℕ) (p : Parameter K) (g : ℕ) : Prop :=
  ∃ (j : ℕ) (c : Channel K) (l : ChannelLayout), ws.channels[j]? = some c ∧
    m.channels[j]? = some l ∧ l.name = c.name ∧ l.offset ≤ g ∧ g < l.offset + l.bins ∧
    (∃ s ∈ c.samples, ∃ d ∈ s.modifiers, d.name = p.modifier) ∧
    (p.kind.isPerBin = true → g = l.offset + (i - m.slotOf p.modifier))

variable [Scalar K]

namespace Effect

variable {e : Effect K} {p q : ℕ → K} {bin : ℕ}

/-- The factor of an effect in a bin depends on the parameter that it reads there. -/
theorem factorAt?_congr (h : ∀ i, e.slotAt? bin = some i → p i = q i) :
    e.factorAt? p bin = e.factorAt? q bin := by
  cases e with
  | scale slot =>
    have hslot := h slot rfl
    rw [factorAt?, factorAt?, hslot]
  | scaleBins slots =>
    rw [factorAt?, factorAt?]
    cases hslots : slots[bin]? with
    | none => rfl
    | some i =>
      have hslot := h i hslots
      rw [Option.map_some, Option.map_some, hslot]
  | vary slot lo hi code =>
    have hslot := h slot rfl
    rw [factorAt?, factorAt?, hslot]
  | morph slot lo hi => rfl

/-- The shift of an effect in a bin depends on the parameter that it reads there. -/
theorem shiftAt?_congr {code : AdditiveCode} {nominal : K}
    (h : ∀ i, e.slotAt? bin = some i → p i = q i) :
    e.shiftAt? code p nominal bin = e.shiftAt? code q nominal bin := by
  cases e with
  | morph slot lo hi =>
    have hslot := h slot rfl
    rw [shiftAt?, shiftAt?, hslot]
  | scale slot => rfl
  | scaleBins slots => rfl
  | vary slot lo hi code => rfl

end Effect

/-- The yield of a sample in a bin depends on the parameters that its effects read there. -/
theorem SampleYields.yieldAt_congr {z : SampleYields K} {code : AdditiveCode} {p q : ℕ → K}
    {bin : ℕ} (h : ∀ e ∈ z.effects, ∀ i, e.slotAt? bin = some i → p i = q i) :
    z.yieldAt code p bin = z.yieldAt code q bin := by
  have hshifts : z.effects.filterMap (Effect.shiftAt? code p (z.nominal.getD bin 0) bin) =
      z.effects.filterMap (Effect.shiftAt? code q (z.nominal.getD bin 0) bin) :=
    List.filterMap_congr fun e he => Effect.shiftAt?_congr (h e he)
  have hfactors : z.effects.filterMap (Effect.factorAt? p bin) =
      z.effects.filterMap (Effect.factorAt? q bin) :=
    List.filterMap_congr fun e he => Effect.factorAt?_congr (h e he)
  unfold yieldAt
  dsimp only
  rw [hshifts, hfactors]

/-- The yield of a channel in a bin depends on the parameters that the effects of its samples
read there. -/
theorem ChannelYields.yields_congr {y : ChannelYields K} {code : AdditiveCode} {p q : ℕ → K}
    {bin : ℕ} (h : ∀ z ∈ y.samples, ∀ e ∈ z.effects, ∀ i, e.slotAt? bin = some i →
      p i = q i) : (y.yields code p)[bin]? = (y.yields code q)[bin]? := by
  have hsamples : (y.samples.map fun z => z.yieldAt code p bin) =
      y.samples.map fun z => z.yieldAt code q bin :=
    List.map_congr_left fun z hz => SampleYields.yieldAt_congr (h z hz)
  unfold yields
  rw [List.getElem?_map, List.getElem?_map]
  cases hbin : (List.range y.bins)[bin]? with
  | none => rfl
  | some b =>
    obtain rfl : bin = b := by
      have hlt := (List.getElem?_eq_some_iff.mp hbin).1
      rw [List.getElem?_range (by simpa using hlt)] at hbin
      exact Option.some.inj hbin
    rw [Option.map_some, Option.map_some, hsamples]

/-- A modifier reads one parameter of its block in a bin: the only one, or that of the
bin. -/
theorem Modifier.slotAt?_effectAt (m : Modifier K) (o : Options K) (slot : ℕ) {bins bin : ℕ}
    (hbin : bin < bins) : (m.effectAt o slot bins).slotAt? bin =
      some (slot + if m.kind.isPerBin then bin else 0) := by
  have hslots : (List.range' slot bins)[bin]? = some (slot + bin) := by
    rw [List.getElem?_range' hbin, Nat.one_mul]
  unfold effectAt kind
  cases m.payload with
  | normfactor => rfl
  | lumi sigma => rfl
  | normsys lo hi => rfl
  | histosys lo hi => rfl
  | shapefactor => exact hslots
  | shapesys delta => exact hslots
  | staterror delta => exact hslots

/-- A registration of a channel stands at the offset of its plan and has its bins. -/
theorem Channel.Reads.place_of_mem {config : Option (MeasurementConfig K)} {c : Channel K}
    {p : ChannelPlan K} (h : c.Reads config p) {x : Registration K}
    (hx : x ∈ p.registrations) : x.offset = p.offset ∧ x.nominal.length = p.bins := by
  obtain ⟨s, hs, d, -, -, hnominal, hoffset⟩ := h.exists_declaration hx
  exact ⟨hoffset, by rw [hnominal, h.regular.bins_eq s hs, h.bins]⟩

namespace Model.Built

variable {ws : Workspace K} {o : Options K} {config : Option (MeasurementConfig K)}
  {plans : List (ChannelPlan K)} {t : ParameterTable K} {m : Model K}

/-- The registrations of a model are in order. -/
theorem precedes (h : Model.Built ws o config plans t m) :
    (plans.flatMap (·.registrations)).Pairwise Registration.Precedes := by
  have hplace : ∀ p ∈ plans, ∀ x ∈ p.registrations,
      x.offset = p.offset ∧ x.nominal.length = p.bins := by
    intro p hp x hx
    obtain ⟨c, -, hread⟩ := exists_mem_of_forall₂_right h.reads hp
    exact hread.place_of_mem hx
  rw [List.pairwise_flatMap]
  constructor
  · intro p hp
    refine List.pairwise_of_forall_mem_list fun x hx y hy => .inl ?_
    obtain ⟨hx, hxbins⟩ := hplace p hp x hx
    obtain ⟨hy, hybins⟩ := hplace p hp y hy
    exact ⟨hx.trans hy.symm, hxbins.trans hybins.symm⟩
  · refine (pairwise_of_blockStarts h.offsets).imp_of_mem fun {p q} hp hq hpq x hx y hy => ?_
    obtain ⟨hx, hxbins⟩ := hplace p hp x hx
    obtain ⟨hy, -⟩ := hplace q hq y hy
    right
    omega

/-- Each channel has its plan and, at the same index, its layout; it starts behind the bins
of the channels before it. -/
theorem exists_plan (h : Model.Built ws o config plans t m) {j : ℕ} {c : Channel K}
    (hj : ws.channels[j]? = some c) :
    ∃ p, plans[j]? = some p ∧ c.Reads config p ∧ m.channels[j]? = some p.layout ∧
      p.offset = ((ws.channels.take j).map Channel.bins).sum := by
  obtain ⟨p, hp, hread⟩ := getElem?_of_forall₂_left h.reads hj
  have hbins : plans.map (·.bins) = ws.channels.map Channel.bins :=
    (map_eq_map_of_forall₂ (h.reads.imp fun _ _ hc => hc.bins.symm)).symm
  refine ⟨p, hp, hread, ?_, ?_⟩
  · rw [h.layouts_eq, List.getElem?_map, hp, Option.map_some]
  · have hlt : j < (plans.map (·.bins)).length := by
      rw [List.length_map]
      exact (List.getElem?_eq_some_iff.mp hp).1
    have hstart := getElem?_blockStarts 0 (plans.map (·.bins)) j hlt
    rw [← h.offsets, List.getElem?_map, hp, Option.map_some, Option.some.injEq] at hstart
    rw [hstart, Nat.zero_add, blockTotal_eq_sum, hbins, List.map_take]

/-- A parameter is one of those that the entry of its name has under the settings for this
name: it stands at the index of the block at which the entry makes it. -/
theorem exists_parameter (h : Model.Built ws o config plans t m) {i : ℕ} {p : Parameter K}
    (hp : m.parameters[i]? = some p) :
    ∃ e k, Entry.ofGroup (Registration.named p.modifier (plans.flatMap (·.registrations))) =
        some e ∧ e.name = p.modifier ∧ k < e.slots ∧ i = m.slotOf p.modifier + k ∧
      e.parameter (config.bind fun c => c.parameter? p.modifier) o k = .ok p := by
  rw [h.parameters_eq] at hp
  obtain ⟨e, he, hname⟩ := Registry.exists_entry_of_mem h.table (List.mem_of_getElem? hp)
  have hnodup := Registry.nodup_names_enterAll (r := Registry.empty config) List.nodup_nil
    (plans.flatMap (·.registrations))
  obtain ⟨before, block, after, hsplits⟩ := Registry.exists_splits hnodup h.table he
  obtain ⟨hle, hlt⟩ := (hsplits.modifier_eq_iff hp).mp hname
  obtain ⟨k, hi⟩ := Nat.exists_eq_add_of_le hle
  have hk : k < e.slots := by omega
  have hstart : m.slotOf p.modifier = before.length := by
    rw [h.slotOf_eq, hname]
    exact hsplits.findIdx_eq (by omega)
  have hparameter := hsplits.parameter_eq hk (hi ▸ hp)
  rw [Registry.settings?, Registry.enterAll_config, ← hname] at hparameter
  refine ⟨e, k, ?_, hname.symm, hk, by rw [hstart, hi], hparameter⟩
  rw [hname]
  exact Registry.mem_entries_enterAll_empty.mp he

/-- A parameter is one of those of the entry of its name: it stands at some index of its
block, and has the kind of the entry and the bins recorded for the index. -/
theorem exists_entry (h : Model.Built ws o config plans t m) {i : ℕ} {p : Parameter K}
    (hp : m.parameters[i]? = some p) :
    ∃ e k, Entry.ofGroup (Registration.named p.modifier (plans.flatMap (·.registrations))) =
        some e ∧ k < e.slots ∧ i = m.slotOf p.modifier + k ∧ p.kind = e.kind ∧
      p.bins = e.bins.getD k [] := by
  obtain ⟨e, k, hgroup, -, hk, hi, hparameter⟩ := h.exists_parameter hp
  obtain ⟨-, -, hkind, hbins⟩ := Entry.parameter_label hparameter
  exact ⟨e, k, hgroup, hk, hi, hkind, hbins⟩

/-- The bins of a parameter are increasing. -/
theorem increasing_bins (h : Model.Built ws o config plans t m) {i : ℕ} {p : Parameter K}
    (hp : m.parameters[i]? = some p) : p.bins.Pairwise (· < ·) := by
  obtain ⟨e, k, hgroup, hk, -, -, hbins⟩ := h.exists_entry hp
  rw [hbins]
  exact Entry.increasing_bins h.agree h.precedes hgroup hk

/-- A parameter states the bins of the channels with a declaration of its modifier and, with
a parameter per bin, only the bin at its index in the block. -/
theorem mem_bins_iff (h : Model.Built ws o config plans t m) {i : ℕ} {p : Parameter K}
    (hp : m.parameters[i]? = some p) {g : ℕ} :
    g ∈ p.bins ↔ m.ActsOn ws i p g := by
  obtain ⟨e, k, hgroup, hk, hi, hkind, hbins⟩ := h.exists_entry hp
  have hindex : i - m.slotOf p.modifier = k := by omega
  rw [hbins, Entry.mem_bins_iff h.agree hgroup hk, ActsOn, hindex, hkind]
  constructor
  · intro hg
    obtain ⟨x, hx, hname, hle, hlt, hper⟩ := hg
    obtain ⟨plan, hplan, hxplan⟩ := List.mem_flatMap.mp hx
    obtain ⟨j, hj⟩ := List.mem_iff_getElem?.mp hplan
    obtain ⟨c, hc, -⟩ := getElem?_of_forall₂_right h.reads hj
    obtain ⟨plan', hj', hread, hlayout, -⟩ := h.exists_plan hc
    obtain rfl : plan = plan' := Option.some.inj (hj.symm.trans hj')
    obtain ⟨hoffset, hlength⟩ := hread.place_of_mem hxplan
    obtain ⟨s, hs, d, hd, hstated, -⟩ := hread.exists_declaration hxplan
    rw [hoffset] at hle hlt hper
    rw [hlength] at hlt
    exact ⟨j, c, plan.layout, hc, hlayout, hread.name, hle, hlt,
      ⟨s, hs, d, hd, hstated.name.symm.trans hname⟩, hper⟩
  · intro hg
    obtain ⟨j, c, l, hc, hl, -, hle, hlt, ⟨s, hs, d, hd, hname⟩, hper⟩ := hg
    obtain ⟨plan, hj, hread, hlayout, -⟩ := h.exists_plan hc
    obtain rfl : plan.layout = l := Option.some.inj (hlayout.symm.trans hl)
    obtain ⟨x, hx, hstated, -⟩ := hread.exists_registration hs hd
    obtain ⟨hoffset, hlength⟩ := hread.place_of_mem hx
    refine ⟨x, List.mem_flatMap.mpr ⟨plan, List.mem_of_getElem? hj, hx⟩,
      hstated.name.trans hname, ?_⟩
    rw [hoffset, hlength]
    exact ⟨hle, hlt, hper⟩

/-- A parameter states some bin. -/
theorem bins_ne_nil (h : Model.Built ws o config plans t m) {i : ℕ} {p : Parameter K}
    (hp : m.parameters[i]? = some p) : p.bins ≠ [] := by
  obtain ⟨e, k, hgroup, hk, -, -, hbins⟩ := h.exists_entry hp
  obtain ⟨s, d, hd, hname⟩ := h.exists_declares (List.mem_of_getElem? hp)
  obtain ⟨x, hx, hstated, -, hpos⟩ := hd.exists_registration h.reads
  have hxname : x.modifier.name = p.modifier := hstated.name.trans hname
  have hlt := Entry.lt_of_ofGroup h.agree hgroup hk
  have hmem : x.offset + (if e.kind.isPerBin then k else 0) ∈ p.bins := by
    rw [hbins, Entry.mem_bins_iff h.agree hgroup hk]
    refine ⟨x, hx, hxname, Nat.le_add_right _ _, ?_, fun hper => by rw [if_pos hper]⟩
    split
    · next hper =>
      exact Nat.add_lt_add_left (hlt hper x (Registration.mem_named_iff.mpr ⟨hx, hxname⟩)) _
    · omega
  exact List.ne_nil_of_mem hmem

/-- The number of bins of a model is that of its channels together. -/
theorem bins_total (h : Model.Built ws o config plans t m) :
    m.bins = (ws.channels.map Channel.bins).sum := by
  have hbins : m.bins = blockTotal (plans.map (·.bins)) := by
    rw [h.model]
    rfl
  rw [hbins, blockTotal_eq_sum,
    map_eq_map_of_forall₂ (h.reads.imp fun _ _ hc => hc.bins.symm)]

/-- The stated bins are bins of the model. -/
theorem lt_bins (h : Model.Built ws o config plans t m) {i : ℕ} {p : Parameter K}
    (hp : m.parameters[i]? = some p) {g : ℕ} (hg : g ∈ p.bins) : g < m.bins := by
  obtain ⟨j, c, l, hc, hl, -, -, hlt, -⟩ := (h.mem_bins_iff hp).mp hg
  obtain ⟨plan, -, hread, hlayout, hoffset⟩ := h.exists_plan hc
  obtain rfl : plan.layout = l := Option.some.inj (hlayout.symm.trans hl)
  have hbin : (ws.channels.map Channel.bins)[j]? = some c.bins := by
    rw [List.getElem?_map, hc, Option.map_some]
  have hend := blockTotal_take_add_le hbin
  rw [blockTotal_eq_sum, blockTotal_eq_sum, ← List.map_take, ← hoffset, ← hread.bins] at hend
  rw [h.bins_total]
  exact Nat.lt_of_lt_of_le hlt hend

/-- A parameter has the kind of each declaration of its modifier. -/
theorem kind_eq (h : Model.Built ws o config plans t m) {i : ℕ} {p : Parameter K}
    (hp : m.parameters[i]? = some p) {s : Sample K} {d : Declaration K}
    (hd : ws.Declares s d) (hname : p.modifier = d.name) {md : Modifier K}
    (hstated : d.Says config s.data.length md) : md.kind = p.kind := by
  obtain ⟨e, k, hgroup, -, -, hkind, -⟩ := h.exists_entry hp
  obtain ⟨x, hx, hstated', -⟩ := hd.exists_registration h.reads
  obtain rfl := hstated'.unique hstated
  rw [hname, ← hstated.name] at hgroup
  obtain ⟨-, hekind, -⟩ := Entry.spec_of_ofGroup h.agree hx hgroup
  rw [hkind, hekind]

/-- A parameter that an effect reads in a bin of a channel states this bin. -/
theorem mem_bins_of_slotAt? (h : Model.Built ws o config plans t m) {i : ℕ}
    {p : Parameter K} (hp : m.parameters[i]? = some p) {j k : ℕ} {c : Channel K}
    (hj : ws.channels[j]? = some c) (hk : k < c.bins) {s : Sample K} (hs : s ∈ c.samples)
    {d : Declaration K} (hd : d ∈ s.modifiers) {md : Modifier K}
    (hstated : d.Says config s.data.length md)
    (hslot : (md.effectAt o (m.slotOf d.name) s.data.length).slotAt? k = some i) :
    ((ws.channels.take j).map Channel.bins).sum + k ∈ p.bins := by
  obtain ⟨plan, -, hread, hlayout, hoffset⟩ := h.exists_plan hj
  have hdeclared : ws.Declares s d := ⟨c, List.mem_of_getElem? hj, hs, hd⟩
  have hbins : k < s.data.length := by
    rw [hread.regular.bins_eq s hs]
    exact hk
  rw [Modifier.slotAt?_effectAt md o _ hbins, Option.some.injEq] at hslot
  have hname : p.modifier = d.name := by
    refine ((h.block hdeclared hstated).2 i p hp).mpr ?_
    unfold Modifier.slotsIn
    by_cases hper : md.kind.isPerBin = true
    · rw [if_pos hper] at hslot ⊢
      omega
    · rw [if_neg hper] at hslot ⊢
      omega
  have hkind := h.kind_eq hp hdeclared hname hstated
  refine (h.mem_bins_iff hp).mpr ⟨j, c, plan.layout, hj, hlayout, hread.name, ?_, ?_,
    ⟨s, hs, d, hd, hname.symm⟩, ?_⟩
  · rw [← hoffset]
    exact Nat.le_add_right _ _
  · rw [← hoffset]
    have hlt : k < plan.bins := hread.bins ▸ hk
    exact Nat.add_lt_add_left hlt _
  · intro hper
    rw [hkind, if_pos hper] at hslot
    rw [← hoffset, hname, ← hslot, Nat.add_sub_cancel_left]
    rfl

/-- A change of one parameter changes no yield outside of the bins that it states. -/
theorem yields_congr (h : Model.Built ws o config plans t m) {i : ℕ} {p : Parameter K}
    (hp : m.parameters[i]? = some p) {q q' : ℕ → K} (hq : ∀ l, l ≠ i → q l = q' l) {g : ℕ}
    (hg : g ∉ p.bins) :
    (m.yields.channels.flatMap fun y => y.yields o.additive q)[g]? =
      (m.yields.channels.flatMap fun y => y.yields o.additive q')[g]? := by
  by_cases hlt : g < blockTotal (ws.channels.map Channel.bins)
  · obtain ⟨j, n, k, hj, hk, rfl⟩ := exists_block_of_lt hlt
    rw [List.getElem?_map, Option.map_eq_some_iff] at hj
    obtain ⟨c, hc, rfl⟩ := hj
    rw [blockTotal_eq_sum, ← List.map_take] at hg ⊢
    obtain ⟨y, hy, hchannel⟩ := getElem?_of_forall₂_left h.compiles hc
    have hky : k < y.bins := hchannel.bins ▸ hk
    rw [h.getElem?_yields hy hky, h.getElem?_yields hy hky]
    refine ChannelYields.yields_congr fun z hz e he l hslot => hq l fun hl => hg ?_
    obtain ⟨s, hs, hsample⟩ := exists_mem_of_forall₂_right hchannel.samples hz
    obtain ⟨d, hd, md, hstated, rfl⟩ := exists_mem_of_forall₂_right hsample.effects he
    exact h.mem_bins_of_slotAt? hp hc hk hs hd hstated (hl ▸ hslot)
  · have hlen : ∀ r : ℕ → K,
        (m.yields.channels.flatMap fun y => y.yields o.additive r)[g]? = none := by
      intro r
      rw [List.getElem?_eq_none]
      rw [h.length_yields, ← blockTotal_eq_sum]
      omega
    rw [hlen, hlen]

end Model.Built

/-- Each parameter of a model that has been built states the bins on which it acts: they are
increasing, there are some, all of them are bins of the model, and they are exactly the bins
of the channels that declare its modifier or, for a parameter per bin, the bins at its index.
Two vectors that differ in this parameter only yield the same in all other bins. -/
theorem Model.bins_exact_and_frame {ws : Workspace K} {o : Options K} {m : Model K}
    (h : Model.build ws o = .ok m) {i : ℕ} {p : Parameter K}
    (hp : m.parameters[i]? = some p) :
    p.bins.Pairwise (· < ·) ∧ p.bins ≠ [] ∧ (∀ g ∈ p.bins, g < m.bins) ∧
    (∀ g, g ∈ p.bins ↔ m.ActsOn ws i p g) ∧
    ∀ params params' : List K, params.length = m.parameters.length →
      params'.length = m.parameters.length → (∀ l, l ≠ i → params[l]? = params'[l]?) →
        ∃ values values', m.yields.eval params = .ok values ∧
          m.yields.eval params' = .ok values' ∧ values.length = m.bins ∧
          values'.length = m.bins ∧ ∀ g, g ∉ p.bins → values[g]? = values'[g]? := by
  obtain ⟨config, plans, t, hbuilt⟩ := Model.build_eq_ok_iff.mp h
  refine ⟨hbuilt.increasing_bins hp, hbuilt.bins_ne_nil hp, fun g => hbuilt.lt_bins hp,
    fun g => hbuilt.mem_bins_iff hp, ?_⟩
  intro params params' hparams hparams' hdiff
  refine ⟨_, _, hbuilt.eval_eq hparams, hbuilt.eval_eq hparams', ?_, ?_, ?_⟩
  · rw [hbuilt.length_yields, hbuilt.bins_total]
  · rw [hbuilt.length_yields, hbuilt.bins_total]
  · intro g hg
    refine hbuilt.yields_congr hp (fun l hl => ?_) hg
    rw [List.getD_eq_getElem?_getD, List.getD_eq_getElem?_getD, hdiff l hl]

/-- In the model of the two regions the first statistical factor states increasing bins, and
moving it away from its starting value changes no yield elsewhere. -/
theorem Model.frame_twoRegions :
    ∃ m, Model.build Workspace.twoRegions Options.standard = .ok m ∧
      ∃ p, m.parameters[2]? = some p ∧ p.bins.Pairwise (· < ·) ∧ p.bins ≠ [] ∧
        ∃ values values', m.yields.eval m.inits = .ok values ∧
          m.yields.eval (m.inits.set 2 0.5) = .ok values' ∧
          ∀ g, g ∉ p.bins → values[g]? = values'[g]? := by
  obtain ⟨m, hbuild, hcount⟩ := Model.exists_build_twoRegions
  have hlt : 2 < m.parameters.length := by omega
  have hp := List.getElem?_eq_getElem hlt
  have hinits : m.inits.length = m.parameters.length := List.length_map _
  have hmoved : (m.inits.set 2 0.5).length = m.parameters.length := by
    rw [List.length_set, hinits]
  have hdiff : ∀ l, l ≠ 2 → m.inits[l]? = (m.inits.set 2 0.5)[l]? := by
    intro l hl
    rw [List.getElem?_set_ne (Ne.symm hl)]
  obtain ⟨hincreasing, hsome, -, -, hframe⟩ := Model.bins_exact_and_frame hbuild hp
  obtain ⟨values, values', heval, heval', -, -, hsame⟩ :=
    hframe m.inits (m.inits.set 2 0.5) hinits hmoved hdiff
  exact ⟨m, hbuild, _, hp, hincreasing, hsome, values, values', heval, heval', hsame⟩

end BinnedModel
