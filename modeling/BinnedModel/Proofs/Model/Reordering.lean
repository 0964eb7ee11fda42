import Mathlib
import BinnedModel.Proofs.Model.WellFormed

/-!
# Workspaces in another order

The order in which a workspace lists its channels, the samples of a channel and the modifiers
of a sample is read from front to back by the build: the first sample settles the number of
bins, the first modifier of a name makes the entry that later ones join. Whether the build
succeeds does not depend on this order. Every condition on the way to a model is one on single
channels, samples and declarations, or on pairs of declarations, so it passes to each workspace
that has the same ones.
-/

namespace BinnedModel

variable {K : Type}

/-- Two samples differ in the order of their modifiers at most. -/
structure Sample.Reordered (s s' : Sample K) : Prop where
  /-- The samples have one name. -/
  name : s'.name = s.name
  /-- The samples have the same nominal yields. -/
  data : s'.data = s.data
  /-- The modifiers are the same up to order. -/
  modifiers : s.modifiers.Perm s'.modifiers

/-- Two channels differ in the order of their samples and of the modifiers in each sample at
most. -/
structure Channel.Reordered (c c' : Channel K) : Prop where
  /-- The channels have one name. -/
  name : c'.name = c.name
  /-- The samples are reordered, and so are their modifiers. -/
  samples : Permuted Sample.Reordered c.samples c'.samples

/-- Two workspaces differ in the order of their channels, of the samples in each channel and of
the modifiers in each sample at most. -/
structure Workspace.Reordered (ws ws' : Workspace K) : Prop where
  /-- The channels are reordered, and so are their samples and modifiers. -/
  channels : Permuted Channel.Reordered ws.channels ws'.channels
  /-- The observed counts are the same. -/
  observations : ws'.observations = ws.observations
  /-- The measurements are the same. -/
  measurements : ws'.measurements = ws.measurements
  /-- The version is the same. -/
  version : ws'.version = ws.version

/-- Reordered samples are reordered both ways. -/
theorem Sample.Reordered.symm {s s' : Sample K} (h : s.Reordered s') : s'.Reordered s :=
  ⟨h.name.symm, h.data.symm, h.modifiers.symm⟩

/-- Reordered channels are reordered both ways. -/
theorem Channel.Reordered.symm {c c' : Channel K} (h : c.Reordered c') : c'.Reordered c :=
  ⟨h.name.symm, h.samples.symm.imp fun _ _ hs => hs.symm⟩

/-- Reordered workspaces are reordered both ways. -/
theorem Workspace.Reordered.symm {ws ws' : Workspace K} (h : ws.Reordered ws') :
    ws'.Reordered ws :=
  ⟨h.channels.symm.imp fun _ _ hc => hc.symm, h.observations.symm, h.measurements.symm,
    h.version.symm⟩

/-- A channel of regular form keeps its form and its number of bins: the samples have one
number of bins, so it does not matter which one comes first. -/
theorem Channel.Reordered.regular {c c' : Channel K} (h : c.Reordered c') (hc : c.Regular) :
    c'.Regular ∧ c'.bins = c.bins := by
  have hlength : ∀ s' ∈ c'.samples, s'.data.length = c.bins := by
    intro s' hs'
    obtain ⟨s, hs, hre⟩ := h.samples.exists_left hs'
    rw [hre.data]
    exact hc.bins_eq s hs
  have hnames : (c.samples.map (·.name)).Perm (c'.samples.map (·.name)) :=
    h.samples.perm_map fun s s' hs => hs.name.symm
  obtain ⟨first, hfirst⟩ := List.exists_mem_of_ne_nil _ hc.samples
  obtain ⟨first', hfirst', -⟩ := h.samples.symm.exists_left hfirst
  obtain ⟨head, tail, hcons⟩ := List.exists_cons_of_ne_nil (List.ne_nil_of_mem hfirst')
  have hbins : c'.bins = c.bins := by
    have hhead := hlength head (by rw [hcons]; exact List.mem_cons_self)
    rw [← hhead, bins, hcons]
    rfl
  refine ⟨⟨List.ne_nil_of_mem hfirst', hnames.nodup_iff.mp hc.names, ?_, ?_⟩, hbins⟩
  · rw [hbins]
    exact hc.bins_pos
  · rw [hbins]
    exact hlength

namespace Workspace.Reordered

variable {ws ws' : Workspace K}

/-- Reordered workspaces have the same channel names up to order. -/
theorem perm_names (h : ws.Reordered ws') :
    (ws.channels.map (·.name)).Perm (ws'.channels.map (·.name)) :=
  h.channels.perm_map fun _ _ hc => hc.name.symm

/-- Reordered workspaces have the same declarations, in samples of the same yields. -/
theorem exists_declares (h : ws.Reordered ws') {s' : Sample K} {d : Declaration K}
    (hd : ws'.Declares s' d) : ∃ s, ws.Declares s d ∧ s.data = s'.data := by
  obtain ⟨c', hc', hs', hd⟩ := hd
  obtain ⟨c, hc, hchannel⟩ := h.channels.exists_left hc'
  obtain ⟨s, hs, hsample⟩ := hchannel.samples.exists_left hs'
  exact ⟨s, ⟨c, hc, hs, hsample.modifiers.mem_iff.mpr hd⟩, hsample.data.symm⟩

/-- Reordered workspaces have the same settings. -/
theorem settings_eq (h : ws.Reordered ws') (o : Options K) : ws'.settings o = ws.settings o := by
  have hmeasurement : ws'.measurement? = ws.measurement? := by
    funext name
    unfold measurement?
    rw [h.measurements]
  unfold settings
  rw [hmeasurement]

end Workspace.Reordered

variable [Scalar K]

/-- A model is built once the channels are read and the settings admit each parameter of each
entry. -/
theorem Model.exists_build_of_plans [Scalar.OrdersFinite K] {ws : Workspace K} {o : Options K}
    {config : Option (MeasurementConfig K)} {r : Registry K} {plans : List (ChannelPlan K)}
    (hoptions : o.check = .ok ()) (hchannels : ws.channels ≠ [])
    (hsettings : ws.settings o = .ok config)
    (hplans : planChannels 0 [] ws.channels (Registry.empty config) = .ok (r, plans))
    (hadmissible : ∀ e ∈ r.entries, ∀ k < e.slots,
      e.kind.Admissible (r.settings? e.name) o k) : ∃ m, Model.build ws o = .ok m := by
  obtain ⟨hfresh, hreads, hoffsets, hadmits, rfl⟩ := planChannels_eq_ok_iff.mp hplans
  have hagree := Registry.admitsAll_empty_iff.mp hadmits
  obtain ⟨t, ht⟩ := Registry.exists_table_iff.mpr fun e he k hk =>
    Entry.exists_parameter_iff.mpr (hadmissible e he k hk)
  exact ⟨_, Model.build_eq_ok_iff.mpr ⟨config, plans, t, hoptions, hchannels, hsettings,
    fresh_nil_iff.mp hfresh, hreads, hoffsets, hagree, ht, rfl⟩⟩

/-- From a reordered workspace a model is built as well, with the same settings. -/
theorem Model.Built.exists_reordered [Scalar.OrdersFinite K] {ws ws' : Workspace K}
    {o : Options K} {config : Option (MeasurementConfig K)} {plans : List (ChannelPlan K)}
    {t : ParameterTable K} {m : Model K} (h : Model.Built ws o config plans t m)
    (hre : ws.Reordered ws') :
    ∃ plans' t' m', Model.Built ws' o config plans' t' m' := by
  have hchannels : ws'.channels ≠ [] := by
    obtain ⟨c, hc⟩ := List.exists_mem_of_ne_nil _ h.channels
    obtain ⟨c', hc', -⟩ := hre.channels.symm.exists_left hc
    exact List.ne_nil_of_mem hc'
  have hplan : ∀ c' ∈ ws'.channels, ∀ offset, ∃ p, c'.Reads config p ∧ p.offset = offset := by
    intro c' hc'
    obtain ⟨c, hc, hchannel⟩ := hre.channels.exists_left hc'
    obtain ⟨p, -, hread⟩ := exists_mem_of_forall₂_left h.reads hc
    refine Channel.exists_reads (hchannel.regular hread.regular).1 fun s' hs' d hd => ?_
    obtain ⟨s, hdeclared, hdata⟩ := hre.exists_declares ⟨c', hc', hs', hd⟩
    obtain ⟨x, -, hstated, -⟩ := hdeclared.exists_registration h.reads
    rw [← hdata]
    exact Declaration.exists_says_iff.mp ⟨_, hstated⟩
  obtain ⟨plans', hreads, hoffsets⟩ := exists_plans hplan 0
  have hagree := (agrees_iff hreads).mpr fun s d s' d' kind kind' hd hd' hname hkind hkind' => by
    obtain ⟨u, hu, hdata⟩ := hre.exists_declares hd
    obtain ⟨u', hu', hdata'⟩ := hre.exists_declares hd'
    rw [← hdata, ← hdata']
    exact (agrees_iff h.reads).mp h.agree u d u' d' kind kind' hu hu' hname hkind hkind'
  have hadmitted := (exists_table_iff h.reads h.agree).mp ⟨t, h.table⟩
  obtain ⟨t', ht'⟩ := (exists_table_iff (o := o) hreads hagree).mpr
    fun s d kind hd hkind k hk => by
      obtain ⟨u, hu, hdata⟩ := hre.exists_declares hd
      exact hadmitted u d kind hu hkind k (by rw [hdata]; exact hk)
  exact ⟨plans', t', _, h.options, hchannels, (hre.settings_eq o).trans h.settings,
    hre.perm_names.nodup_iff.mp h.names, hreads, hoffsets, hagree, ht', rfl⟩

end BinnedModel
