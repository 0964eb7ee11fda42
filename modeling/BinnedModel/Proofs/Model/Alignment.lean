import Mathlib
import BinnedModel.CommandLine.Run
import BinnedModel.Proofs.Likelihood.WellSized

/-!
# Channels, yields and observations in one order

Three parts of a program walk over the channels: the build lays them out, the yields are
computed one channel after the other, and observed counts are looked up by name and put side
by side. That all three mean the same channel by the same bins rests on one fact: the layouts
of a model are consecutive blocks from zero on. A vector over all bins is then cut into its
channels without loss, and whatever is put together channel by channel is found again in the
slices of the channels.
-/

namespace BinnedModel

variable {α : Type}

/-- The slices of consecutive blocks concatenate back to the values from the first block
on. -/
theorem flatMap_slice {cs : List ChannelLayout} {start : ℕ} {values : List α}
    (h : cs.map (·.offset) = blockStarts start (cs.map (·.bins)))
    (hlength : values.length = start + blockTotal (cs.map (·.bins))) :
    (cs.flatMap fun c => c.slice values) = values.drop start := by
  induction cs generalizing start with
  | nil =>
    have hend : values.length ≤ start := hlength.le
    rw [List.flatMap_nil, List.drop_eq_nil_of_le hend]
  | cons c cs ih =>
    rw [List.map_cons, List.map_cons, blockStarts, List.cons.injEq] at h
    obtain ⟨hstart, hrest⟩ := h
    have htotal : blockTotal ((c :: cs).map (·.bins)) =
        c.bins + blockTotal (cs.map (·.bins)) := rfl
    have hslices := ih hrest (by omega)
    rw [List.flatMap_cons, hslices, ChannelLayout.slice, hstart, ← List.drop_drop,
      List.take_append_drop]

/-- Lists put side by side in consecutive blocks of their lengths are the slices of these
blocks. -/
theorem map_slice_flatten {cs : List ChannelLayout} {start : ℕ} {values : List α}
    {parts : List (List α)} (h : cs.map (·.offset) = blockStarts start (cs.map (·.bins)))
    (hlengths : parts.map List.length = cs.map (·.bins))
    (hvalues : values.drop start = parts.flatten) :
    (cs.map fun c => c.slice values) = parts := by
  induction cs generalizing start parts with
  | nil =>
    obtain rfl : parts = [] := List.map_eq_nil_iff.mp hlengths
    rfl
  | cons c cs ih =>
    obtain ⟨part, parts, rfl, hpart, hparts⟩ := List.map_eq_cons_iff.mp hlengths
    rw [List.map_cons, List.map_cons, blockStarts, List.cons.injEq] at h
    obtain ⟨hstart, hrest⟩ := h
    rw [List.flatten_cons] at hvalues
    have hslice : c.slice values = part := by
      rw [ChannelLayout.slice, hstart, hvalues, List.take_left' hpart]
    have hbehind : values.drop (start + c.bins) = parts.flatten := by
      rw [← List.drop_drop, hvalues, List.drop_left' hpart]
    rw [List.map_cons, hslice, ih hrest hparts hbehind]

/-- Channels tile a number of bins: the first one starts at zero, each next one starts where
the one before it ends, each has a bin, and the last one ends at the number. -/
structure Tiles (cs : List ChannelLayout) (bins : ℕ) : Prop where
  /-- There is a first channel, and it starts at zero. -/
  first : ∃ c, cs[0]? = some c ∧ c.offset = 0
  /-- Each next channel starts where the one before it ends. -/
  next : ∀ j c d, cs[j]? = some c → cs[j + 1]? = some d → d.offset = c.offset + c.bins
  /-- Each channel has a bin. -/
  bins_pos : ∀ c ∈ cs, 0 < c.bins
  /-- There is a last channel, and it ends at the number of bins. -/
  last : ∃ c, cs.getLast? = some c ∧ c.offset + c.bins = bins

/-- Consecutive blocks from zero on tile the bins that they have together, if there is a block
and none is empty. -/
theorem tiles_of_blockStarts {cs : List ChannelLayout} (hne : cs ≠ [])
    (hpos : ∀ c ∈ cs, 0 < c.bins)
    (h : cs.map (·.offset) = blockStarts 0 (cs.map (·.bins))) :
    Tiles cs (blockTotal (cs.map (·.bins))) := by
  have hoffset : ∀ j c, cs[j]? = some c →
      c.offset = blockTotal ((cs.take j).map (·.bins)) := by
    intro j c hj
    have hlt : j < (cs.map (·.bins)).length := by
      rw [List.length_map]
      exact (List.getElem?_eq_some_iff.mp hj).1
    have hstart := getElem?_blockStarts 0 (cs.map (·.bins)) j hlt
    rw [← h, List.getElem?_map, hj, Option.map_some, Option.some.injEq] at hstart
    rw [hstart, Nat.zero_add, List.map_take]
  have hend : ∀ j c, cs[j]? = some c →
      blockTotal ((cs.take (j + 1)).map (·.bins)) = c.offset + c.bins := by
    intro j c hj
    rw [hoffset j c hj, List.take_add_one, hj, blockTotal_eq_sum, blockTotal_eq_sum]
    simp only [Option.toList_some, List.map_append, List.map_cons, List.map_nil,
      List.sum_append, List.sum_cons, List.sum_nil, Nat.add_zero]
  have hlength : 0 < cs.length := List.length_pos_of_ne_nil hne
  refine ⟨⟨cs[0], List.getElem?_eq_getElem hlength, ?_⟩, fun j c d hj hnext => ?_, hpos,
    ⟨cs.getLast hne, List.getLast?_eq_some_getLast hne, ?_⟩⟩
  · rw [hoffset 0 cs[0] (List.getElem?_eq_getElem hlength)]
    rfl
  · rw [hoffset (j + 1) d hnext, hend j c hj]
  · have hlast : cs[cs.length - 1]? = some (cs.getLast hne) := by
      rw [← List.getLast?_eq_getElem?, List.getLast?_eq_some_getLast hne]
    rw [← hend _ _ hlast, Nat.sub_add_cancel hlength, List.take_length]

section Observations

variable {K : Type}

/-- The observation that counts for a name: the first one of this name. -/
def Workspace.observation? (ws : Workspace K) (name : String) : Option (Observation K) :=
  ws.observations.find? fun x => x.name == name

/-- The observed counts of a channel are the data of the observation for its name, which has
to have its number of bins. -/
theorem Model.observedIn_eq_ok_iff {ws : Workspace K} {c : ChannelLayout} {data : List K} :
    Model.observedIn ws c = .ok data ↔
      ∃ x, ws.observation? c.name = some x ∧ x.data.length = c.bins ∧ x.data = data := by
  unfold observedIn
  rw [← Workspace.observation?]
  cases hx : ws.observation? c.name with
  | none => simp
  | some x =>
    dsimp only
    by_cases hlength : x.data.length = c.bins
    · rw [if_neg (not_not.mpr hlength)]
      simp [hlength]
    · rw [if_pos hlength]
      simp [hlength]

/-- The observation for a name depends on the observations of this name alone. -/
theorem Workspace.observation?_congr {ws ws' : Workspace K} {name : String}
    (h : (ws.observations.filter fun x => x.name == name) =
      ws'.observations.filter fun x => x.name == name) :
    ws.observation? name = ws'.observation? name := by
  rw [observation?, observation?, ← List.head?_filter, ← List.head?_filter, h]

/-- Observations with distinct names may stand in any order. -/
theorem Workspace.observation?_eq_of_perm {ws ws' : Workspace K}
    (hperm : ws'.observations.Perm ws.observations)
    (hnames : (ws.observations.map (·.name)).Nodup) (name : String) :
    ws'.observation? name = ws.observation? name := by
  have hnames' : (ws'.observations.map (·.name)).Nodup :=
    (hperm.map (·.name)).nodup_iff.mpr hnames
  cases hx : ws.observation? name with
  | none =>
    have hnone := List.find?_eq_none.mp hx
    exact List.find?_eq_none.mpr fun x hx' => hnone x (hperm.mem_iff.mp hx')
  | some x =>
    obtain rfl : x.name = name := by simpa using List.find?_some hx
    exact find?_eq_some_of_mem hnames' (hperm.mem_iff.mpr (List.mem_of_find?_eq_some hx))

/-- The observed counts for a model depend on the observations that count for the names of
its channels alone. -/
theorem Model.observed_congr {m : Model K} {ws ws' : Workspace K}
    (h : ∀ c ∈ m.channels, ws.observation? c.name = ws'.observation? c.name) :
    m.observed ws = m.observed ws' := by
  have hdata : m.channels.mapM (Model.observedIn ws) =
      m.channels.mapM (Model.observedIn ws') := by
    refine mapM_congr fun c hc => ?_
    have hlookup := h c hc
    rw [Workspace.observation?, Workspace.observation?] at hlookup
    rw [observedIn, observedIn, hlookup]
  rw [observed, observed, hdata]

/-- A workspace has observed counts for a model exactly if every channel has an observation
of its size. -/
theorem Model.exists_observed_iff {m : Model K} {ws : Workspace K} :
    (∃ observed, m.observed ws = .ok observed) ↔
      ∀ c ∈ m.channels, ∃ x, ws.observation? c.name = some x ∧ x.data.length = c.bins := by
  have hparts : (∃ parts, m.channels.mapM (Model.observedIn ws) = .ok parts) ↔
      ∀ c ∈ m.channels, ∃ data, Model.observedIn ws c = .ok data := exists_mapM_eq_ok_iff
  constructor
  · intro hobserved c hc
    obtain ⟨observed, hobserved⟩ := hobserved
    obtain ⟨parts, hdata, -⟩ := map_eq_ok_iff.mp hobserved
    obtain ⟨data, hc⟩ := hparts.mp ⟨parts, hdata⟩ c hc
    obtain ⟨x, hx, hlength, -⟩ := observedIn_eq_ok_iff.mp hc
    exact ⟨x, hx, hlength⟩
  · intro hobservations
    obtain ⟨parts, hdata⟩ := hparts.mpr fun c hc => by
      obtain ⟨x, hx, hlength⟩ := hobservations c hc
      exact ⟨x.data, observedIn_eq_ok_iff.mpr ⟨x, hx, hlength, rfl⟩⟩
    exact ⟨parts.flatten, map_eq_ok_iff.mpr ⟨parts, hdata, rfl⟩⟩

end Observations

variable {K : Type} [Scalar K]

namespace Model.Built

variable {ws : Workspace K} {o : Options K} {config : Option (MeasurementConfig K)}
  {plans : List (ChannelPlan K)} {t : ParameterTable K} {m : Model K}

/-- The channels of a model stand in the order of the workspace, with their samples and
their bins. -/
theorem layouts_match (h : Model.Built ws o config plans t m) :
    List.Forall₂ (fun c l => l.name = c.name ∧ l.samples = c.samples.map (·.name) ∧
      l.bins = c.bins) ws.channels m.channels := by
  rw [h.layouts_eq, List.forall₂_map_right_iff]
  refine h.reads.imp fun c p hread => ⟨hread.name, ?_, hread.bins⟩
  exact (map_eq_map_of_forall₂ (hread.samples.imp fun _ _ hs => hs.name.symm)).symm

/-- The channels of a model are consecutive blocks from zero on. -/
theorem offsets_eq (h : Model.Built ws o config plans t m) :
    m.channels.map (·.offset) = blockStarts 0 (m.channels.map (·.bins)) := by
  rw [h.layouts_eq, List.map_map, List.map_map]
  exact h.offsets

/-- The bins of a model are those of its channels together. -/
theorem bins_eq_blockTotal (h : Model.Built ws o config plans t m) :
    m.bins = blockTotal (m.channels.map (·.bins)) := by
  rw [h.layouts_eq, h.model, List.map_map]
  rfl

/-- The channels of a model tile its bins. -/
theorem tiles (h : Model.Built ws o config plans t m) : Tiles m.channels m.bins := by
  have hne : m.channels ≠ [] := by
    intro hnil
    have hlength := h.layouts_match.length_eq
    rw [hnil] at hlength
    exact h.channels (List.length_eq_zero_iff.mp hlength)
  have hpos : ∀ l ∈ m.channels, 0 < l.bins := by
    intro l hl
    rw [h.layouts_eq] at hl
    obtain ⟨p, hp, rfl⟩ := List.mem_map.mp hl
    obtain ⟨c, -, hread⟩ := exists_mem_of_forall₂_right h.reads hp
    have hbins : p.layout.bins = c.bins := hread.bins
    rw [hbins]
    exact hread.regular.bins_pos
  rw [h.bins_eq_blockTotal]
  exact tiles_of_blockStarts hne hpos h.offsets_eq

/-- The slices of a vector over all bins concatenate back to the vector. -/
theorem flatMap_slice_eq (h : Model.Built ws o config plans t m) {values : List α}
    (hlength : values.length = m.bins) :
    (m.channels.flatMap fun c => c.slice values) = values := by
  have htotal : values.length = 0 + blockTotal (m.channels.map (·.bins)) := by
    rw [hlength, h.bins_eq_blockTotal, Nat.zero_add]
  exact flatMap_slice h.offsets_eq htotal

/-- What is put together channel by channel is found again in the slices of the channels. -/
theorem map_slice_eq (h : Model.Built ws o config plans t m) {parts : List (List α)}
    (hlengths : parts.map List.length = m.channels.map (·.bins)) :
    (m.channels.map fun c => c.slice parts.flatten) = parts :=
  map_slice_flatten h.offsets_eq hlengths rfl

/-- The expected counts of a model have one entry per bin, and the slice of a channel has the
yields of this channel. -/
theorem slice_yields (h : Model.Built ws o config plans t m) {params values : List K}
    (heval : m.yields.eval params = .ok values) :
    values.length = m.bins ∧ (m.channels.map fun c => c.slice values) =
      m.yields.channels.map fun y => y.yields m.yields.additive fun i => params.getD i 0 := by
  unfold YieldFunction.eval at heval
  split at heval
  · cases heval
  rw [Except.ok.injEq] at heval
  have hbins : m.yields.channels.map (·.bins) = m.channels.map (·.bins) := by
    rw [h.bins_eq]
    exact map_eq_map_of_forall₂ (h.layouts_match.imp fun _ _ hl => hl.2.2.symm)
  have hlengths : (m.yields.channels.map fun y =>
      y.yields m.yields.additive fun i => params.getD i 0).map List.length =
        m.channels.map (·.bins) := by
    rw [← hbins, List.map_map]
    exact List.map_congr_left fun y _ => y.length_yields _ _
  rw [← heval, List.flatMap_def]
  refine ⟨?_, h.map_slice_eq hlengths⟩
  rw [List.length_flatten, hlengths, h.bins_eq_blockTotal, blockTotal_eq_sum]

/-- The observed counts for a model hold the data of each channel's observation in the slice
of the channel. -/
theorem slice_observed (h : Model.Built ws o config plans t m) {w : Workspace K}
    {observed : List K} (hobserved : m.observed w = .ok observed) {c : ChannelLayout}
    (hc : c ∈ m.channels) :
    ∃ x, w.observation? c.name = some x ∧ c.slice observed = x.data := by
  obtain ⟨parts, hparts, rfl⟩ := map_eq_ok_iff.mp hobserved
  have hdata := mapM_eq_ok_iff.mp hparts
  have hlengths : parts.map List.length = m.channels.map (·.bins) :=
    (map_eq_map_of_forall₂ (hdata.imp fun _ _ hx => (length_of_observedIn hx).symm)).symm
  have hslices := h.map_slice_eq hlengths
  rw [← hslices, List.forall₂_map_right_iff, List.forall₂_same] at hdata
  obtain ⟨x, hx, -, hslice⟩ := observedIn_eq_ok_iff.mp (hdata c hc)
  exact ⟨x, hx, hslice.symm⟩

end Model.Built

/-- The channels of a built model are those of its workspace in their order, and they tile its
bins, so that the slices of any vector over all bins concatenate back to it; expected counts
are such a vector, with the yields of each channel in its slice. Any workspace has observed
counts for the model exactly if the first observation for the name of each channel exists and
has its number of bins. Then the observed counts are such a vector too, with the data of
this observation in the slice of the channel. They are the same for every workspace that has,
for each channel, the same observations of its name, and for the same observations in
another order if their names are distinct. -/
theorem Model.channels_aligned {ws : Workspace K} {o : Options K} {m : Model K}
    (hbuild : Model.build ws o = .ok m) :
    List.Forall₂ (fun c l => l.name = c.name ∧ l.samples = c.samples.map (·.name) ∧
      l.bins = c.bins) ws.channels m.channels ∧
    Tiles m.channels m.bins ∧
    (∀ (α : Type) (values : List α), values.length = m.bins →
      (m.channels.flatMap fun c => c.slice values) = values) ∧
    (∀ params values : List K, m.yields.eval params = .ok values →
      values.length = m.bins ∧ (m.channels.map fun c => c.slice values) =
        m.yields.channels.map fun y => y.yields m.yields.additive fun i => params.getD i 0) ∧
    ∀ w : Workspace K,
      ((∃ observed, m.observed w = .ok observed) ↔
        ∀ c ∈ m.channels, ∃ x, w.observation? c.name = some x ∧ x.data.length = c.bins) ∧
      (∀ observed, m.observed w = .ok observed → observed.length = m.bins ∧
        ∀ c ∈ m.channels, ∃ x, w.observation? c.name = some x ∧ c.slice observed = x.data) ∧
      (∀ w' : Workspace K, (∀ c ∈ m.channels,
        (w'.observations.filter fun x => x.name == c.name) =
          w.observations.filter fun x => x.name == c.name) → m.observed w' = m.observed w) ∧
      ∀ w' : Workspace K, w'.observations.Perm w.observations →
        (w.observations.map (·.name)).Nodup → m.observed w' = m.observed w := by
  obtain ⟨config, plans, t, h⟩ := Model.build_eq_ok_iff.mp hbuild
  refine ⟨h.layouts_match, h.tiles, fun α values hlength => h.flatMap_slice_eq hlength,
    fun params values heval => h.slice_yields heval, fun w => ⟨Model.exists_observed_iff,
      fun observed hobserved => ?_, fun w' hsame => ?_, fun w' hperm hnames => ?_⟩⟩
  · exact ⟨h.length_observed hobserved, fun c hc => h.slice_observed hobserved hc⟩
  · exact Model.observed_congr fun c hc => Workspace.observation?_congr (hsame c hc)
  · exact Model.observed_congr fun c _ => Workspace.observation?_eq_of_perm hperm hnames c.name

/-- The observed regions have a model whose channels tile three bins. Its slices of three values
concatenate back to them, and there are three observed counts, the same ones if the
observations come in the opposite order. -/
theorem Model.aligned_observedRegions :
    ∃ m, Model.build Workspace.observedRegions Options.standard = .ok m ∧
      Tiles m.channels 3 ∧ (m.channels.flatMap fun c => c.slice ['a', 'b', 'c']) = ['a', 'b', 'c'] ∧
      ∃ observed, m.observed Workspace.observedRegions = .ok observed ∧ observed.length = 3 ∧
        m.observed { Workspace.observedRegions with
          observations := Workspace.observedRegions.observations.reverse } = .ok observed := by
  have hcount : ((Model.build Workspace.observedRegions Options.standard).toOption.bind fun m =>
      (m.observed Workspace.observedRegions).toOption.map fun _ => m.bins) = some 3 := by
    decide +kernel
  obtain ⟨m, hm, hobserved⟩ := Option.bind_eq_some_iff.mp hcount
  obtain ⟨observed, hobserved, hbins⟩ := Option.map_eq_some_iff.mp hobserved
  have hbuild := toOption_eq_some_iff.mp hm
  have hdata := toOption_eq_some_iff.mp hobserved
  obtain ⟨-, htiles, hslices, -, hw⟩ := Model.channels_aligned hbuild
  obtain ⟨-, hlength, -, hperm⟩ := hw Workspace.observedRegions
  have hreverse := hperm { Workspace.observedRegions with
    observations := Workspace.observedRegions.observations.reverse }
    (List.reverse_perm Workspace.observedRegions.observations) (by decide)
  rw [hbins] at htiles hslices hlength
  exact ⟨m, hbuild, htiles, hslices Char _ rfl, observed, hdata, (hlength observed hdata).1,
    hreverse.trans hdata⟩

/-- The document of an analysis of expected counts lists them by channel, as many as each
channel has bins, and the lists of the channels one after the other are the list of all
expected counts. -/
theorem CommandLine.Analysis.channels_of_expected {ws ws' : Workspace Float} {o : Options Float}
    {m : Model Float} (hbuild : Model.build ws o = .ok m) {params : Option (List Float)}
    {document : Json Float}
    (hdocument : (Analysis.expected params).document ws' m = .ok document) :
    ∃ parts : List (List Float), parts.map List.length = ws.channels.map Channel.bins ∧
      document = .object [("parameter_names", .ofList .string m.names),
        ("parameters", .ofScalars (params.getD m.inits)),
        ("expected", .ofScalars parts.flatten),
        ("channels", .array (List.zipWith (fun c part =>
          .object [("name", .string c.name), ("expected", .ofScalars part)])
          m.channels parts))] := by
  obtain ⟨config, plans, t, h⟩ := Model.build_eq_ok_iff.mp hbuild
  obtain ⟨values, heval, hreport⟩ := bind_eq_ok_iff.mp hdocument
  obtain ⟨hlength, hslices⟩ := h.slice_yields heval
  have hflatten : (m.channels.map fun c => c.slice values).flatten = values := by
    rw [← List.flatMap_def]
    exact h.flatMap_slice_eq hlength
  refine ⟨m.channels.map fun c => c.slice values, ?_, ?_⟩
  · rw [hslices, List.map_map, ← h.bins_eq]
    exact List.map_congr_left fun y _ => y.length_yields _ _
  · rw [hflatten, List.zipWith_map_right, List.zipWith_self]
    exact (Except.ok.inj hreport).symm

end BinnedModel
