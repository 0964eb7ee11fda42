import Mathlib
import BinnedModel.Proofs.Registry.BinMap
import BinnedModel.Proofs.Registry.FirstSlot

/-!
# What a registry keeps

A registry holds an index from names to places, a list of entries and, in each entry, lists that run
along its parameters: the bins from the start, the sums from the first merge on. This module states
how these belong together and shows that every registration keeps it, whatever its arguments and
whether it succeeds or not. An entry that a modifier joins does not yet have to hold its sums; a
merge that fits it puts them there.
-/

namespace BinnedModel

variable {K : Type}

namespace Entry

/-- For how many parameters an entry keeps sums: for all of them if its modifiers have uncertainties
per bin, and else for none. -/
def summed (e : Entry K) : ℕ :=
  match e.kind with
  | .shapesys | .staterror => e.slots
  | _ => 0

/-- The parameters of an entry are as many as its kind asks for, and each has a record of bins in
which no bin comes twice. -/
structure Shaped (e : Entry K) : Prop where
  /-- A kind without parameters per bin has one parameter. -/
  single : e.kind.isPerBin = false → e.slots = 1
  /-- There is a record of bins for each parameter. -/
  bins : e.bins.length = e.slots
  /-- No bin is recorded twice for a parameter. -/
  distinct : ∀ bs ∈ e.bins, bs.Nodup

/-- Both sums of an entry run along the parameters for which it keeps them. -/
def Summed (e : Entry K) : Prop :=
  e.nominal.length = e.summed ∧ e.variance.length = e.summed

/-- An entry as it is between two calls of a registry: shaped, and with its sums. -/
structure Sound (e : Entry K) : Prop extends Shaped e where
  /-- Both sums are there. -/
  sums : e.Summed

/-- A registration can be merged into an entry: the entry is shaped and its sums are there or not
yet begun, the kinds are the same and so are, for kinds with a parameter per bin, the numbers of
bins, and the data of the modifier fits the bins of its sample. -/
structure Joins (e : Entry K) (x : Registration K) : Prop extends Shaped e where
  /-- The sums have not been begun, or both are there. -/
  sums : (e.nominal = [] ∧ e.variance = []) ∨ e.Summed
  /-- The kinds are the same. -/
  kind : e.kind = x.modifier.kind
  /-- The numbers of bins are the same for kinds with a parameter per bin. -/
  slots : x.modifier.kind.isPerBin = true → e.slots = x.nominal.length
  /-- The data fits the bins of the sample. -/
  fits : x.modifier.Fits x.nominal.length

/-- A fresh entry is shaped: it has empty records and no sums. -/
theorem shaped_start (x : Registration K) : x.start.Shaped where
  single h := by
    have hkind : x.modifier.kind.isPerBin = false := h
    simp [Registration.start, fresh, hkind]
  bins := List.length_replicate
  distinct bs hbs := by
    rw [List.eq_of_mem_replicate hbs]
    exact List.nodup_nil

/-- A registration that fits its sample can be merged into a fresh entry. -/
theorem joins_start {x : Registration K} (hfits : x.modifier.Fits x.nominal.length) :
    x.start.Joins x where
  toShaped := shaped_start x
  sums := .inl ⟨rfl, rfl⟩
  kind := rfl
  slots hper := if_pos hper
  fits := hfits

/-- A registration that fits its sample can be merged into a sound entry of its kind and, for kinds
with a parameter per bin, of its number of bins. -/
theorem Sound.joins {e : Entry K} {x : Registration K} (h : e.Sound)
    (hkind : e.kind = x.modifier.kind)
    (hslots : x.modifier.kind.isPerBin = true → e.slots = x.nominal.length)
    (hfits : x.modifier.Fits x.nominal.length) : e.Joins x where
  toShaped := h.toShaped
  sums := .inr h.sums
  kind := hkind
  slots := hslots
  fits := hfits

/-- Kinds whose entries keep no sums have no uncertainties. -/
theorem summed_eq_of_uncertainties? {e : Entry K} {p : Payload K} (hkind : e.kind = p.kind) :
    e.summed = if p.uncertainties?.isSome then e.slots else 0 := by
  unfold summed
  rw [hkind]
  cases p <;> rfl

/-- A modifier with uncertainties that can be merged into an entry has one per bin of its sample,
for each of which the entry has a parameter. Its sums have as many items, if they are begun. -/
theorem Joins.begun {e : Entry K} {x : Registration K} (h : e.Joins x) {delta : List K}
    (hdelta : x.modifier.payload.uncertainties? = some delta) :
    delta.length = x.nominal.length ∧ e.summed = x.nominal.length ∧
      ((e.nominal = [] ∧ e.variance = []) ∨
        e.nominal.length = x.nominal.length ∧ e.variance.length = x.nominal.length) := by
  obtain ⟨hdata, hper⟩ := Payload.mem_histograms_of_uncertainties? hdelta
  have hsummed : e.summed = x.nominal.length := by
    rw [summed_eq_of_uncertainties? h.kind, hdelta, Option.isSome_some, if_pos rfl, h.slots hper]
  exact ⟨h.fits delta hdata, hsummed,
    h.sums.imp_right fun hsums => ⟨hsums.1.trans hsummed, hsums.2.trans hsummed⟩⟩

/-- Insertions do not make a bin come twice. -/
theorem nodup_foldl_insertBin {bs ls : List ℕ} (h : bs.Nodup) :
    (ls.foldl insertBin bs).Nodup := by
  induction ls generalizing bs with
  | nil => exact h
  | cons b ls ih => exact ih (nodup_insertBin h)

variable [Scalar K]

/-- A registration leaves the number of records. -/
theorem length_join_bins (e : Entry K) (x : Registration K) :
    (e.join x).bins.length = e.bins.length := by
  unfold join absorb actOn
  split <;> split <;> simp [accumulate]

/-- A registration leaves for how many parameters there are sums. -/
theorem summed_join (e : Entry K) (x : Registration K) : (e.join x).summed = e.summed := by
  unfold summed
  rw [join_kind, join_slots]

/-- A registration keeps an entry shaped. -/
theorem Shaped.join {e : Entry K} (h : e.Shaped) (x : Registration K) : (e.join x).Shaped where
  single hsingle := by
    rw [join_kind] at hsingle
    rw [join_slots, h.single hsingle]
  bins := by rw [length_join_bins, join_slots, h.bins]
  distinct bs hbs := by
    obtain ⟨k, hk⟩ := List.mem_iff_getElem?.mp hbs
    rw [getElem?_join_bins] at hk
    obtain ⟨before, hbefore, rfl⟩ := Option.map_eq_some_iff.mp hk
    exact nodup_foldl_insertBin (h.distinct before (List.mem_of_getElem? hbefore))

/-- A registration that can be merged into an entry leaves it with its sums, whether these were
begun before or not. Without uncertainties there is nothing to sum up, and they stay empty. -/
theorem Joins.summed_join {e : Entry K} {x : Registration K} (h : e.Joins x) :
    (e.join x).Summed := by
  have hjoin := sums_join e x
  unfold Registration.summands? at hjoin
  unfold Summed
  rw [Entry.summed_join]
  cases hdelta : x.modifier.payload.uncertainties? with
  | none =>
    rw [hdelta] at hjoin
    obtain ⟨hnominal, hvariance⟩ := Prod.mk.inj hjoin
    rw [hnominal, hvariance]
    rcases h.sums with ⟨hempty, hempty'⟩ | hsums
    · rw [hempty, hempty', summed_eq_of_uncertainties? h.kind, hdelta]
      exact ⟨rfl, rfl⟩
    · exact hsums
  | some delta =>
    obtain ⟨hlength, hsummed, hsums⟩ := h.begun hdelta
    rw [hdelta] at hjoin
    have hadded : (e.join x).nominal = addTo e.nominal x.nominal ∧
        (e.join x).variance = addTo e.variance (delta.map fun d => d * d) := Prod.mk.inj hjoin
    have hsquares : (delta.map fun d => d * d).length = x.nominal.length :=
      (List.length_map _).trans hlength
    rw [hadded.1, hadded.2, hsummed, length_addTo (hsums.imp And.left And.left),
      length_addTo (hsquares.symm ▸ hsums.imp And.right And.right)]
    exact ⟨rfl, hsquares⟩

/-- A registration that can be merged into an entry leaves it sound. -/
theorem Joins.sound {e : Entry K} {x : Registration K} (h : e.Joins x) : (e.join x).Sound where
  toShaped := h.toShaped.join x
  sums := h.summed_join

end Entry

/-- An entry of a list into which an entry has been put is this one or one of the list. -/
theorem eq_or_mem_of_mem_putEntry {e x : Entry K} {es : List (Entry K)}
    (h : x ∈ putEntry e es) : x = e ∨ x ∈ es := by
  induction es with
  | nil => exact .inl (List.mem_singleton.mp h)
  | cons y ys ih =>
    unfold putEntry at h
    split at h
    · exact (List.mem_cons.mp h).imp_right (List.mem_cons_of_mem y)
    · rcases List.mem_cons.mp h with rfl | hmem
      · exact .inr List.mem_cons_self
      · exact (ih hmem).imp_right (List.mem_cons_of_mem y)

/-- A registry as it is between two calls: one entry per name, and each of them sound. -/
structure Registry.Sound (r : Registry K) : Prop where
  /-- Entries have distinct names. -/
  names : (r.entries.map (·.name)).Nodup
  /-- Each entry is sound. -/
  entries : ∀ e ∈ r.entries, e.Sound

namespace Registry

/-- A registry without entries is sound. -/
theorem sound_empty (config : Option (MeasurementConfig K)) : (empty config).Sound where
  names := List.nodup_nil
  entries _ h := absurd h List.not_mem_nil

variable {r : Registry K} {x : Registration K}

/-- A registration that a sound registry admits can be merged into the entry of its name, or into a
fresh one. -/
theorem Sound.joins (h : r.Sound) (hadmits : r.Admits x)
    (hfits : x.modifier.Fits x.nominal.length) :
    ((r.entry? x.modifier.name).getD x.start).Joins x := by
  cases hentry : r.entry? x.modifier.name with
  | none => exact Entry.joins_start hfits
  | some e =>
    obtain ⟨hkind, hslots⟩ := hadmits e hentry
    exact (h.entries e (List.mem_of_find?_eq_some hentry)).joins hkind hslots hfits

variable [Scalar K]

/-- A registration that is admitted keeps a registry sound. -/
theorem Sound.enter (h : r.Sound) (hadmits : r.Admits x)
    (hfits : x.modifier.Fits x.nominal.length) : (r.enter x).Sound where
  names := nodup_names_enterAll h.names [x]
  entries e he := by
    rcases eq_or_mem_of_mem_putEntry he with rfl | hmem
    · exact (h.joins hadmits hfits).sound
    · exact h.entries e hmem

/-- A call that succeeds keeps a registry sound. -/
theorem Sound.register (h : r.Sound) {d : Declaration K} {nominal : List K} {offset : ℕ}
    {channel sample : String} {m : Modifier K} {r' : Registry K}
    (hcall : r.register d nominal offset channel sample = .ok (m, r')) : r'.Sound := by
  obtain ⟨hstated, hadmits, rfl⟩ := register_eq_ok_iff.mp hcall
  exact h.enter hadmits hstated.fits

end Registry

/-- A store as it is between two calls: the index points from exactly the names of the entries to
the places of the entries of these names, of which there is one each, and each entry is sound. -/
structure Store.Sound (s : Store K) : Prop where
  /-- Entries have distinct names. -/
  names : (s.entries.map (·.name)).Nodup
  /-- A name points to a place exactly if the entry of this name stands there. -/
  index : ∀ name i, s.index name = some i ↔ ∃ e, s.entries[i]? = some e ∧ e.name = name
  /-- Each entry is sound. -/
  entries : ∀ e ∈ s.entries, e.Sound

/-- The registry that a store keeps. -/
def Store.registry (s : Store K) : Registry K :=
  ⟨s.config, s.entries⟩

/-- Among distinct names the first place of a name is the only one. -/
theorem findIdx?_eq_some_iff_of_nodup {names : List String} (h : names.Nodup) (name : String)
    (i : ℕ) : (names.findIdx? fun n => n == name) = some i ↔ names[i]? = some name := by
  rw [List.findIdx?_eq_some_iff_getElem]
  constructor
  · rintro ⟨hi, hname, -⟩
    rw [List.getElem?_eq_getElem hi, beq_iff_eq.mp hname]
  · intro hi
    obtain ⟨hlt, hname⟩ := List.getElem?_eq_some_iff.mp hi
    refine ⟨hlt, beq_iff_eq.mpr hname, fun j hj hjname => ?_⟩
    have hsame : names[j] = names[i] := (beq_iff_eq.mp hjname).trans hname.symm
    exact absurd (h.getElem_inj_iff.mp hsame) (Nat.ne_of_lt hj)

namespace Store

/-- The store of a sound registry is sound. -/
theorem sound_ofRegistry {r : Registry K} (h : r.Sound) : (ofRegistry r).Sound where
  names := h.names
  entries := h.entries
  index name i := by
    have hplace := findIdx?_eq_some_iff_of_nodup h.names name i
    rw [List.getElem?_map, Option.map_eq_some_iff] at hplace
    exact hplace

/-- A sound store is the store of its registry, which is sound. -/
theorem Sound.eq_ofRegistry {s : Store K} (h : s.Sound) :
    s = ofRegistry s.registry ∧ s.registry.Sound := by
  have hregistry : s.registry.Sound := ⟨h.names, h.entries⟩
  have hindex : s.index = (ofRegistry s.registry).index := by
    funext name
    refine Option.ext fun i => ?_
    rw [h.index name i, (sound_ofRegistry hregistry).index name i]
    rfl
  refine ⟨?_, hregistry⟩
  cases s
  exact congrArg _ hindex

open InPlace

variable [Scalar K]

/-- Whatever is asked of a sound store, and whether it is refused or not, the store stays sound. -/
theorem Sound.register {s : Store K} (h : s.Sound) (x : Call K) :
    (exec (register x) s).2.Sound := by
  obtain ⟨hstore, hregistry⟩ := h.eq_ofRegistry
  rw [hstore, exec_register_ofRegistry]
  cases hcall : s.registry.register x.declaration x.nominal x.offset x.channel x.sample with
  | error f => exact sound_ofRegistry hregistry
  | ok mr => exact sound_ofRegistry (hregistry.register hcall)

/-- Calls one after the other keep a store sound. -/
theorem Sound.calls {s : Store K} (h : s.Sound) (calls : List (Call K)) :
    (performAll Store.register (calls.map .register) s).2.Sound := by
  induction calls generalizing s with
  | nil => exact h
  | cons x calls ih =>
    have hrequest : (exec ((Request.register x).performBy Store.register) s).2 =
        (exec (Store.register x) s).2 := by
      rw [Request.performBy, exec_bind]
      cases exec (Store.register x) s with
      | mk outcome s' => cases outcome <;> rfl
    have hnext : (exec ((Request.register x).performBy Store.register) s).2.Sound := by
      rw [hrequest]
      exact h.register x
    exact ih hnext

omit [Scalar K] in
/-- A store without entries is sound. -/
theorem sound_empty (config : Option (MeasurementConfig K)) : (empty config).Sound :=
  sound_ofRegistry (Registry.sound_empty config)

end Store

namespace Registry

variable [Scalar K] {r : Registry K}

/-- A table has as many parameters as the entries of its registry. -/
theorem length_parameters {o : Options K} {t : ParameterTable K} (h : r.table o = .ok t) :
    t.parameters.length = r.slots := by
  obtain ⟨blocks, hblocks, rfl⟩ := table_eq_ok_iff.mp h
  have hlengths : r.entries.map (·.slots) = blocks.map List.length :=
    map_eq_map_of_forall₂ (hblocks.imp fun _ _ hblock => (Entry.length_parameters hblock).symm)
  rw [slots, hlengths, blockTotal_eq_sum]
  exact List.length_flatten

/-- After any calls there are as many entries as names that an accepted call declares. -/
theorem size_eq_card {config : Option (MeasurementConfig K)} {calls : List (Call K)}
    {outcomes : List (Except (Fault K) Unit)}
    (h : Request.enterAll (calls.map .register) (empty config) = (outcomes, r)) :
    r.size = ((Call.accepted calls outcomes).map (·.declaration.name)).toFinset.card := by
  obtain ⟨hnodup, hdeclared, hentered⟩ := entries_of_accepted h
  have hnames : ((Call.accepted calls outcomes).map (·.declaration.name)).toFinset =
      (r.entries.map (·.name)).toFinset := by
    ext name
    simp only [List.mem_toFinset, List.mem_map]
    constructor
    · rintro ⟨c, hc, rfl⟩
      obtain ⟨e, he, hname, -⟩ := hentered c hc
      exact ⟨e, he, hname⟩
    · rintro ⟨e, he, rfl⟩
      exact hdeclared e he
  rw [hnames, List.toFinset_card_of_nodup hnodup, List.length_map, size]

end Registry

end BinnedModel
