import Mathlib
import BinnedModel.Model.Basic
import BinnedModel.Proofs.Registry.Grouping
import BinnedModel.Proofs.Sequence

/-!
# Reading channels

Reading a channel checks its form, reads the declarations of its samples, and enters what
they say. Only the last part depends on what was read before. The reading succeeds
exactly if the form is regular, every declaration says something, and all registrations
are admitted in the order of the declarations; the registry is then the one before with
these registrations.
-/

namespace BinnedModel

variable {K : Type}

namespace Channel

/-- Number of bins of a channel, which is that of its first sample. -/
def bins (c : Channel K) : ℕ :=
  (c.samples.head?.map (·.data.length)).getD 0

/-- The form of a channel: samples with distinct names over one number of bins, of which
there are some. -/
structure Regular (c : Channel K) : Prop where
  /-- There is a sample. -/
  samples : c.samples ≠ []
  /-- The samples have distinct names. -/
  names : (c.samples.map (·.name)).Nodup
  /-- There is a bin. -/
  bins_pos : 0 < c.bins
  /-- The samples have one number of bins. -/
  bins_eq : ∀ s ∈ c.samples, s.data.length = c.bins

end Channel

/-- The registrations of a sample of a channel whose first bin is at the given index. -/
def SamplePlan.registrations (p : SamplePlan K) (offset : ℕ) : List (Registration K) :=
  p.modifiers.map fun m => ⟨m, p.nominal, offset⟩

/-- The registrations of the samples of a channel. -/
def ChannelPlan.registrations (c : ChannelPlan K) : List (Registration K) :=
  c.samples.flatMap fun s => s.2.registrations c.offset

/-- Plans that are laid out one behind the other end before the later ones start. -/
theorem pairwise_of_blockStarts {plans : List (ChannelPlan K)} {start : ℕ}
    (h : plans.map (·.offset) = blockStarts start (plans.map (·.bins))) :
    plans.Pairwise fun p q => p.offset + p.bins ≤ q.offset := by
  induction plans generalizing start with
  | nil => exact .nil
  | cons p plans ih =>
    rw [List.map_cons, List.map_cons, blockStarts, List.cons.injEq] at h
    obtain ⟨hstart, hrest⟩ := h
    refine List.pairwise_cons.mpr ⟨fun q hq => ?_, ih hrest⟩
    have hmem : q.offset ∈ plans.map (·.offset) := List.mem_map_of_mem hq
    rw [hrest] at hmem
    have hle := le_of_mem_blockStarts hmem
    omega

variable [Scalar K]

/-- A plan of a sample has its name, its yields, and what its declarations say. -/
structure Sample.Reads (config : Option (MeasurementConfig K)) (s : Sample K)
    (p : String × SamplePlan K) : Prop where
  /-- The plan is kept under the name of the sample. -/
  name : p.1 = s.name
  /-- The yields are those of the sample. -/
  nominal : p.2.nominal = s.data
  /-- The modifiers are what the declarations say, in their order. -/
  modifiers : List.Forall₂ (Declaration.Says config s.data.length) s.modifiers p.2.modifiers

/-- A plan of a channel has its name, its number of bins and plans of its samples. -/
structure Channel.Reads (config : Option (MeasurementConfig K)) (c : Channel K)
    (p : ChannelPlan K) : Prop where
  /-- The channel has a regular form. -/
  regular : c.Regular
  /-- The plan has the name of the channel. -/
  name : p.name = c.name
  /-- The plan has the number of bins of the channel. -/
  bins : p.bins = c.bins
  /-- The samples are read in their order. -/
  samples : List.Forall₂ (Sample.Reads config) c.samples p.samples

namespace Sample

/-- Declarations are entered exactly if the first one is and the others are after it. -/
theorem registerAll_cons_eq_ok_iff {s : Sample K} {channel : String} {offset : ℕ}
    {d : Declaration K} {ds : List (Declaration K)} {r r' : Registry K} {ms : List (Modifier K)} :
    s.registerAll channel offset (d :: ds) r = (r', .ok ms) ↔
      ∃ m r₁ rest, r.register d s.data offset channel s.name = .ok (m, r₁) ∧
        s.registerAll channel offset ds r₁ = (r', .ok rest) ∧ ms = m :: rest := by
  rw [registerAll]
  cases r.register d s.data offset channel s.name with
  | error f => simp
  | ok mr =>
    obtain ⟨m, r₁⟩ := mr
    dsimp only
    rw [Prod.mk.injEq, map_eq_ok_iff]
    constructor
    · rintro ⟨hr, rest, hrest, rfl⟩
      exact ⟨m, r₁, rest, rfl, Prod.ext hr hrest, rfl⟩
    · rintro ⟨m', r₂, rest, hfirst, hrest, rfl⟩
      cases hfirst
      rw [hrest]
      exact ⟨rfl, rest, rfl, rfl⟩

/-- Declarations are entered one after the other exactly if each one says something and
what they say is admitted. -/
theorem registerAll_eq_ok_iff {s : Sample K} {channel : String} {offset : ℕ}
    {ds : List (Declaration K)} {r r' : Registry K} {ms : List (Modifier K)} :
    s.registerAll channel offset ds r = (r', .ok ms) ↔
      List.Forall₂ (Declaration.Says r.config s.data.length) ds ms ∧
        r.AdmitsAll (SamplePlan.registrations ⟨s.data, ms⟩ offset) ∧
          r' = r.enterAll (SamplePlan.registrations ⟨s.data, ms⟩ offset) := by
  induction ds generalizing r ms with
  | nil =>
    rw [List.forall₂_nil_left_iff, registerAll, Prod.mk.injEq, Except.ok.injEq]
    constructor
    · rintro ⟨rfl, rfl⟩
      exact ⟨rfl, trivial, rfl⟩
    · rintro ⟨rfl, -, rfl⟩
      exact ⟨rfl, rfl⟩
  | cons d ds ih =>
    rw [registerAll_cons_eq_ok_iff, List.forall₂_cons_left_iff]
    constructor
    · rintro ⟨m, r₁, rest, hfirst, hrest, rfl⟩
      obtain ⟨hstated, hadmits, rfl⟩ := Registry.register_eq_ok_iff.mp hfirst
      obtain ⟨hds, hall, he⟩ := ih.mp hrest
      exact ⟨⟨m, rest, hstated, hds, rfl⟩, ⟨hadmits, hall⟩, he⟩
    · rintro ⟨⟨m, rest, hstated, hds, rfl⟩, ⟨hadmits, hall⟩, he⟩
      exact ⟨m, _, rest, Registry.register_eq_ok_iff.mpr ⟨hstated, hadmits, rfl⟩,
        ih.mpr ⟨hds, hall, he⟩, rfl⟩

/-- A sample is read exactly if its declarations are entered. -/
theorem plan_eq_ok_iff {s : Sample K} {channel : String} {offset : ℕ} {r r' : Registry K}
    {p : SamplePlan K} : s.plan channel offset r = (r', .ok p) ↔
      s.Reads r.config (s.name, p) ∧ r.AdmitsAll (p.registrations offset) ∧
        r' = r.enterAll (p.registrations offset) := by
  unfold plan
  dsimp only
  rw [Prod.mk.injEq, map_eq_ok_iff]
  constructor
  · rintro ⟨hr, ms, hms, rfl⟩
    obtain ⟨hstated, hall, he⟩ := registerAll_eq_ok_iff.mp (Prod.ext hr hms)
    exact ⟨⟨rfl, rfl, hstated⟩, hall, he⟩
  · rintro ⟨⟨-, hnominal, hstated⟩, hall, he⟩
    obtain ⟨nominal, ms⟩ := p
    obtain rfl : nominal = s.data := hnominal
    rw [registerAll_eq_ok_iff.mpr ⟨hstated, hall, he⟩]
    exact ⟨rfl, ms, rfl, rfl⟩

end Sample

namespace Channel

/-- Samples are read exactly if the first one has a new name and the given number of bins and is
read, and the others are read after it. -/
theorem planSamples_cons_eq_ok_iff {c : Channel K} {bins offset : ℕ} {seen : List String}
    {s : Sample K} {ss : List (Sample K)} {r r' : Registry K}
    {ps : List (String × SamplePlan K)} :
    c.planSamples bins offset seen (s :: ss) r = (r', .ok ps) ↔
      s.name ∉ seen ∧ s.data.length = bins ∧ ∃ p r₁ rest,
        s.plan c.name offset r = (r₁, .ok p) ∧
          c.planSamples bins offset (s.name :: seen) ss r₁ = (r', .ok rest) ∧
            ps = (s.name, p) :: rest := by
  rw [planSamples]
  by_cases hseen : s.name ∈ seen
  · simp [hseen]
  rw [if_neg (by simpa using hseen)]
  by_cases hbins : s.data.length = bins
  swap
  · simp [hbins]
  rw [if_neg (not_not.mpr hbins), and_iff_right hseen, and_iff_right hbins]
  cases s.plan c.name offset r with
  | mk r₁ outcome =>
    cases outcome with
    | error f => simp
    | ok p =>
      dsimp only
      rw [Prod.mk.injEq, map_eq_ok_iff]
      constructor
      · rintro ⟨hr, rest, hrest, rfl⟩
        exact ⟨p, r₁, rest, rfl, Prod.ext hr hrest, rfl⟩
      · rintro ⟨p', r₂, rest, hfirst, hrest, rfl⟩
        cases hfirst
        rw [hrest]
        exact ⟨rfl, rest, rfl, rfl⟩

/-- Samples are read one after the other exactly if their names are new, their numbers of
bins are as given, and their declarations are entered. -/
theorem planSamples_eq_ok_iff {c : Channel K} {bins offset : ℕ} {seen : List String}
    {ss : List (Sample K)} {r r' : Registry K} {ps : List (String × SamplePlan K)} :
    c.planSamples bins offset seen ss r = (r', .ok ps) ↔
      Fresh seen (ss.map (·.name)) ∧ (∀ s ∈ ss, s.data.length = bins) ∧
        List.Forall₂ (Sample.Reads r.config) ss ps ∧
          r.AdmitsAll (ps.flatMap fun s => s.2.registrations offset) ∧
            r' = r.enterAll (ps.flatMap fun s => s.2.registrations offset) := by
  induction ss generalizing r seen ps with
  | nil =>
    rw [List.forall₂_nil_left_iff, planSamples, Prod.mk.injEq, Except.ok.injEq]
    constructor
    · rintro ⟨rfl, rfl⟩
      exact ⟨by simp [Fresh], by simp, rfl, trivial, rfl⟩
    · rintro ⟨-, -, rfl, -, rfl⟩
      exact ⟨rfl, rfl⟩
  | cons s ss ih =>
    rw [planSamples_cons_eq_ok_iff, List.forall₂_cons_left_iff, List.map_cons, fresh_cons_iff,
      List.forall_mem_cons]
    constructor
    · rintro ⟨hseen, hbins, p, r₁, rest, hfirst, hrest, rfl⟩
      obtain ⟨hreads, hadmits, rfl⟩ := Sample.plan_eq_ok_iff.mp hfirst
      obtain ⟨hfresh, hlen, hss, hall, he⟩ := ih.mp hrest
      rw [Registry.enterAll_config] at hss
      rw [List.flatMap_cons, Registry.admitsAll_append, Registry.enterAll_append]
      exact ⟨⟨hseen, hfresh⟩, ⟨hbins, hlen⟩, ⟨_, rest, hreads, hss, rfl⟩, ⟨hadmits, hall⟩, he⟩
    · rintro ⟨⟨hseen, hfresh⟩, ⟨hbins, hlen⟩, ⟨⟨name, p⟩, rest, hreads, hss, rfl⟩, hall, he⟩
      rw [List.flatMap_cons, Registry.admitsAll_append] at hall
      rw [List.flatMap_cons, Registry.enterAll_append] at he
      obtain rfl : name = s.name := hreads.name
      refine ⟨hseen, hbins, p, _, rest, Sample.plan_eq_ok_iff.mpr ⟨hreads, hall.1, rfl⟩,
        ih.mpr ⟨hfresh, hlen, ?_, hall.2, he⟩, rfl⟩
      rwa [Registry.enterAll_config]

/-- A channel is read exactly if its form is regular and its declarations are entered. -/
theorem plan_eq_ok_iff {c : Channel K} {offset : ℕ} {r r' : Registry K} {p : ChannelPlan K} :
    c.plan offset r = (r', .ok p) ↔
      c.Reads r.config p ∧ p.offset = offset ∧ r.AdmitsAll p.registrations ∧
        r' = r.enterAll p.registrations := by
  unfold plan
  cases hs : c.samples with
  | nil =>
    simp only [Prod.mk.injEq, reduceCtorEq, and_false, false_iff]
    rintro ⟨hreads, -⟩
    exact hreads.regular.samples hs
  | cons first rest =>
    have hbins : c.bins = first.data.length := by simp [bins, hs]
    by_cases hempty : first.data = []
    · simp only [hempty, List.isEmpty_nil, if_true, Prod.mk.injEq, reduceCtorEq, and_false,
        false_iff]
      rintro ⟨hreads, -⟩
      have hpos := hreads.regular.bins_pos
      rw [hbins, hempty] at hpos
      simp at hpos
    dsimp only
    rw [if_neg (by simpa using hempty), Prod.mk.injEq, map_eq_ok_iff]
    have hpos : 0 < c.bins := by
      rw [hbins]
      exact List.length_pos_of_ne_nil hempty
    constructor
    · rintro ⟨hr, ps, hok, rfl⟩
      obtain ⟨hfresh, hlen, hss, hall, he⟩ := planSamples_eq_ok_iff.mp (Prod.ext hr hok)
      rw [← hs] at hfresh hlen hss
      have hregular : c.Regular :=
        ⟨by simp [hs], fresh_nil_iff.mp hfresh, hpos, hbins ▸ hlen⟩
      exact ⟨⟨hregular, rfl, hbins.symm, hss⟩, rfl, hall, he⟩
    · rintro ⟨⟨hregular, hname, hpbins, hss⟩, rfl, hall, he⟩
      have hfresh := fresh_nil_iff.mpr hregular.names
      have hlen := hregular.bins_eq
      rw [hs] at hss hlen hfresh
      rw [planSamples_eq_ok_iff.mpr ⟨hfresh, hbins ▸ hlen, hss, hall, he⟩]
      refine ⟨rfl, p.samples, rfl, ?_⟩
      rw [← hname, ← hbins, ← hpbins]

end Channel

/-- Channels are read exactly if the first one has a new name and is read, and the others are read
after it, from the bin behind its last one on. -/
theorem planChannels_cons_eq_ok_iff {offset : ℕ} {seen : List String} {c : Channel K}
    {cs : List (Channel K)} {r r' : Registry K} {ps : List (ChannelPlan K)} :
    planChannels offset seen (c :: cs) r = .ok (r', ps) ↔
      c.name ∉ seen ∧ ∃ p r₁ rest, c.plan offset r = (r₁, .ok p) ∧
        planChannels (offset + p.bins) (c.name :: seen) cs r₁ = .ok (r', rest) ∧
          ps = p :: rest := by
  rw [planChannels]
  by_cases hseen : c.name ∈ seen
  · simp [hseen]
  rw [if_neg (by simpa using hseen), and_iff_right hseen]
  cases c.plan offset r with
  | mk r₁ outcome =>
    cases outcome with
    | error f => simp
    | ok p =>
      dsimp only
      rw [map_eq_ok_iff]
      constructor
      · rintro ⟨⟨r₂, rest⟩, hrest, he⟩
        obtain ⟨rfl, rfl⟩ := Prod.mk.inj he
        exact ⟨p, r₁, rest, rfl, hrest, rfl⟩
      · rintro ⟨p', r₂, rest, hfirst, hrest, rfl⟩
        cases hfirst
        exact ⟨(r', rest), hrest, rfl⟩

/-- Channels are read one after the other exactly if their names are new, each has a
regular form, and all declarations are entered. -/
theorem planChannels_eq_ok_iff {offset : ℕ} {seen : List String} {cs : List (Channel K)}
    {r r' : Registry K} {ps : List (ChannelPlan K)} :
    planChannels offset seen cs r = .ok (r', ps) ↔
      Fresh seen (cs.map (·.name)) ∧ List.Forall₂ (Channel.Reads r.config) cs ps ∧
        ps.map (·.offset) = blockStarts offset (ps.map (·.bins)) ∧
          r.AdmitsAll (ps.flatMap (·.registrations)) ∧
            r' = r.enterAll (ps.flatMap (·.registrations)) := by
  induction cs generalizing offset r seen ps with
  | nil =>
    rw [List.forall₂_nil_left_iff, planChannels, Except.ok.injEq, Prod.mk.injEq]
    constructor
    · rintro ⟨rfl, rfl⟩
      exact ⟨by simp [Fresh], rfl, rfl, trivial, rfl⟩
    · rintro ⟨-, rfl, -, -, rfl⟩
      exact ⟨rfl, rfl⟩
  | cons c cs ih =>
    rw [planChannels_cons_eq_ok_iff, List.forall₂_cons_left_iff, List.map_cons, fresh_cons_iff]
    constructor
    · rintro ⟨hseen, p, r₁, rest, hfirst, hrest, rfl⟩
      obtain ⟨hreads, rfl, hadmits, rfl⟩ := Channel.plan_eq_ok_iff.mp hfirst
      obtain ⟨hfresh, hcs, hoffsets, hall, he⟩ := ih.mp hrest
      rw [Registry.enterAll_config] at hcs
      rw [List.flatMap_cons, Registry.admitsAll_append, Registry.enterAll_append]
      refine ⟨⟨hseen, hfresh⟩, ⟨p, rest, hreads, hcs, rfl⟩, ?_, ⟨hadmits, hall⟩, he⟩
      simp only [List.map_cons, blockStarts, hoffsets]
    · rintro ⟨⟨hseen, hfresh⟩, ⟨p, rest, hreads, hcs, rfl⟩, hoffsets, hall, he⟩
      rw [List.flatMap_cons, Registry.admitsAll_append] at hall
      rw [List.flatMap_cons, Registry.enterAll_append] at he
      simp only [List.map_cons, blockStarts, List.cons.injEq] at hoffsets
      refine ⟨hseen, p, _, rest,
        Channel.plan_eq_ok_iff.mpr ⟨hreads, hoffsets.1, hall.1, rfl⟩,
        ih.mpr ⟨hfresh, ?_, hoffsets.2, hall.2, he⟩, rfl⟩
      rwa [Registry.enterAll_config]

end BinnedModel
