import Mathlib
import BinnedModel.Proofs.Likelihood.WellSized
import BinnedModel.Proofs.Model.WellFormed

/-!
# Starting values within bounds

A parameter starts at the value that the settings give to it, or else at the neutral value of
its kind. Its bounds are the ends of its prior, which come from elsewhere: from the intervals
of the settings, from the options, or from a constraint. The two meet in two places only. A
parameter that the settings pin has its starting value as both of its bounds, and where the
prior is a single point, the parameter is moved there. Everywhere else the starting value is
taken as it is, and nothing compares it with the interval of a free parameter. This module
says exactly which parameters start within their bounds.
-/

namespace BinnedModel

variable {K : Type} [Scalar K]

namespace Edge

/-- A lower end is not above a scalar; the lowest end is below all scalars but undefined
ones. -/
def IsBelow (x : K) : Edge K → Prop
  | bottom => x ≤ x
  | point a => a ≤ x
  | top => False

/-- An upper end is not below a scalar; the highest end is above all scalars but undefined
ones. -/
def IsAbove (x : K) : Edge K → Prop
  | bottom => False
  | point b => x ≤ b
  | top => x ≤ x

/-- A scalar lies in the closed interval between two ends. -/
def Encloses (lo hi : Edge K) (x : K) : Prop :=
  lo.IsBelow x ∧ hi.IsAbove x

end Edge

namespace Prior

/-- A prior leaves a single point. -/
def IsPoint : Prior K → Prop
  | flat a b => Scalar.Agrees a b
  | _ => False

/-- A flat prior is made of an interval, and keeps its ends. -/
theorem mkFlat_eq_ok_iff [Scalar.OrdersFinite K] {a b : K} {p : Prior K} :
    mkFlat a b = .ok p ↔ Scalar.Interval a b ∧ p = flat a b := by
  rw [Scalar.interval_iff, mkFlat]
  split
  · next hbad => simp [hbad]
  · next hgood =>
    rw [Except.ok.injEq]
    exact ⟨fun h => ⟨hgood, h.symm⟩, fun h => h.2.symm⟩

/-- A Gaussian prior keeps its centre and its width. -/
theorem eq_normal_of_mkNormal {mu sigma : K} {p : Prior K} (h : mkNormal mu sigma = .ok p) :
    p = normal mu sigma := by
  unfold mkNormal at h
  split at h
  · cases h
  · split at h
    · cases h
    · cases h
      rfl

/-- A flat prior keeps its ends. -/
theorem eq_flat_of_mkFlat {a b : K} {p : Prior K} (h : mkFlat a b = .ok p) : p = flat a b := by
  unfold mkFlat at h
  split at h
  · cases h
  · cases h
    rfl

end Prior

variable [Scalar.OrdersFinite K]

/-- A finite scalar is not above itself. -/
theorem Scalar.le_self {x : K} (h : Scalar.isFinite x = true) : x ≤ x :=
  (Scalar.interval_self_iff.mpr h).2.2

/-- A neutral value is finite. -/
theorem ModifierKind.finite_neutral (kind : ModifierKind) :
    Scalar.isFinite (kind.neutral : K) = true := by
  cases kind <;> first
    | exact Scalar.OrdersFinite.finite_one
    | exact Scalar.OrdersFinite.finite_zero

/-- A value that a prior has settled lies between the ends of the prior if it did before, or if
there is only one point for it. -/
theorem Prior.encloses_settle_iff {p : Prior K} (hp : p.Checked) (x : K) :
    Edge.Encloses p.minimum p.maximum (p.settle x) ↔
      p.IsPoint ∨ Edge.Encloses p.minimum p.maximum x := by
  cases p with
  | normal mu sigma => exact (or_iff_right not_false).symm
  | poisson rate => exact (or_iff_right not_false).symm
  | flat a b =>
    have hinterval : Scalar.Interval a b := by
      rcases hp with ⟨mu, sigma, hnormal⟩ | ⟨a', b', hflat⟩
      · cases Prior.eq_normal_of_mkNormal hnormal
      · obtain ⟨hinterval, heq⟩ := Prior.mkFlat_eq_ok_iff.mp hflat
        cases heq
        exact hinterval
    have hsettle : settle (flat a b) x = if Scalar.Agrees a b then a else x := rfl
    by_cases hpoint : Scalar.Agrees a b
    · have hinside : Edge.Encloses (flat a b).minimum (flat a b).maximum a :=
        ⟨Scalar.le_self hinterval.1, hpoint.1⟩
      rw [hsettle, if_pos hpoint]
      exact iff_of_true hinside (.inl hpoint)
    · rw [hsettle, if_neg hpoint]
      exact (or_iff_right hpoint).symm

section Settings

variable {settings : Option (ParameterConfig K)} {o : Options K} {k : ℕ}

/-- The starting value of the `k`-th parameter of a kind: that of the settings, else the
neutral one. -/
def ModifierKind.start (settings : Option (ParameterConfig K)) (k : ℕ) (kind : ModifierKind) :
    K :=
  (settings.bind fun s => settingFor? s.inits k).getD kind.neutral

/-- The interval of the `k`-th parameter of a kind, if it is free: that of the settings, else
that of the options. A luminosity is free if the settings give it no width. -/
def ModifierKind.freeEnds? (settings : Option (ParameterConfig K)) (o : Options K) (k : ℕ) :
    ModifierKind → Option (K × K)
  | normfactor | shapefactor =>
    some ((settings.bind fun s => settingFor? s.bounds k).getD o.freeInterval)
  | lumi =>
    match settings.bind fun s => settingFor? s.sigmas 0 with
    | none => some ((settings.bind fun s => settingFor? s.bounds k).getD o.freeInterval)
    | some _ => none
  | normsys | histosys | shapesys | staterror => none

/-- The ends of a prior fit a parameter: a free one has its interval, a constrained one has no
ends or is left a single point. -/
def Prior.Spans (p : Prior K) : Option (K × K) → Prop
  | some ends => p.minimum = .point ends.1 ∧ p.maximum = .point ends.2
  | none => p.IsPoint ∨ p.minimum = .bottom ∧ p.maximum = .top

omit [Scalar.OrdersFinite K] in
/-- A prior of an entry is flat over its interval if the kind is free under the settings; else it
is Gaussian or, for a factor, flat on one. -/
theorem Entry.prior_cases {e : Entry K} {p : Prior K} (h : e.prior settings o k = .ok p) :
    (∃ ends, e.kind.freeEnds? settings o k = some ends ∧ Prior.mkFlat ends.1 ends.2 = .ok p) ∨
      e.kind.freeEnds? settings o k = none ∧ ((∃ mu sigma, Prior.mkNormal mu sigma = .ok p) ∨
        (e.kind.neutral : K) = 1 ∧ Prior.mkFlat 1 1 = .ok p) := by
  have hfactor : (if 0 < e.relativeWidth k ∧ Scalar.isFinite (e.relativeWidth k) = true
      then Prior.mkNormal 1 (e.relativeWidth k) else Prior.mkFlat 1 1) = .ok p →
        (∃ mu sigma, Prior.mkNormal mu sigma = .ok p) ∨ Prior.mkFlat 1 1 = .ok p := by
    intro h
    split at h
    · exact .inl ⟨_, _, h⟩
    · exact .inr h
  unfold prior at h
  unfold ModifierKind.freeEnds?
  cases hkind : e.kind with
  | normfactor =>
    rw [hkind] at h
    exact .inl ⟨_, rfl, h⟩
  | shapefactor =>
    rw [hkind] at h
    exact .inl ⟨_, rfl, h⟩
  | normsys =>
    rw [hkind] at h
    exact .inr ⟨rfl, .inl ⟨_, _, h⟩⟩
  | histosys =>
    rw [hkind] at h
    exact .inr ⟨rfl, .inl ⟨_, _, h⟩⟩
  | shapesys =>
    rw [hkind] at h
    exact .inr ⟨rfl, (hfactor h).imp_right fun hone => ⟨rfl, hone⟩⟩
  | staterror =>
    rw [hkind] at h
    exact .inr ⟨rfl, (hfactor h).imp_right fun hone => ⟨rfl, hone⟩⟩
  | lumi =>
    rw [hkind] at h
    dsimp only at h ⊢
    cases hwidth : settings.bind fun s => settingFor? s.sigmas 0 with
    | none =>
      rw [hwidth] at h
      exact .inl ⟨_, rfl, h⟩
    | some sigma =>
      rw [hwidth] at h
      exact .inr ⟨rfl, .inl ⟨_, _, h⟩⟩

/-- The prior of an entry has the ends that its kind and the settings ask for. -/
theorem Entry.prior_spans {e : Entry K} {p : Prior K} (h : e.prior settings o k = .ok p) :
    p.Spans (e.kind.freeEnds? settings o k) := by
  rcases prior_cases h with ⟨ends, hends, hflat⟩ | ⟨hends, ⟨mu, sigma, hnormal⟩ | ⟨-, hone⟩⟩
  · rw [hends, Prior.eq_flat_of_mkFlat hflat]
    exact ⟨rfl, rfl⟩
  · rw [hends, Prior.eq_normal_of_mkNormal hnormal]
    exact .inr ⟨rfl, rfl⟩
  · obtain ⟨hinterval, rfl⟩ := Prior.mkFlat_eq_ok_iff.mp hone
    rw [hends]
    exact .inl ⟨hinterval.2.2, hinterval.2.2⟩

/-- The prior of a parameter that is not pinned has the ends that its kind and the settings ask
for. -/
theorem Entry.parameter_spans {e : Entry K} {p : Parameter K}
    (h : e.parameter settings o k = .ok p) (hfree : pinnedBy settings = false) :
    p.prior.Spans (e.kind.freeEnds? settings o k) := by
  obtain ⟨prior, hprior, ⟨hpin, -⟩ | ⟨-, rfl⟩⟩ := parameter_eq_ok_iff.mp h
  · rw [hfree] at hpin
    cases hpin
  · exact prior_spans hprior

omit [Scalar.OrdersFinite K] in
/-- A free kind has one as its neutral value and, without an interval of its own, the interval of
the options. -/
theorem ModifierKind.eq_of_freeEnds? {kind : ModifierKind} {ends : K × K}
    (hbounds : settings.bind (fun s => settingFor? s.bounds k) = none)
    (hends : kind.freeEnds? settings o k = some ends) :
    (kind.neutral : K) = 1 ∧ ends = o.freeInterval := by
  unfold freeEnds? at hends
  rw [hbounds] at hends
  cases kind with
  | normfactor => exact ⟨rfl, (Option.some.inj hends).symm⟩
  | shapefactor => exact ⟨rfl, (Option.some.inj hends).symm⟩
  | lumi =>
    dsimp only at hends
    split at hends
    · exact ⟨rfl, (Option.some.inj hends).symm⟩
    · cases hends
  | normsys => cases hends
  | histosys => cases hends
  | shapesys => cases hends
  | staterror => cases hends

/-- Without a starting value and an interval of its own, a parameter starts at the neutral value
of its kind, which lies between its ends if one lies in the interval of the options. -/
theorem ModifierKind.encloses_neutral {p : Prior K} (kind : ModifierKind)
    (hinits : settings.bind (fun s => settingFor? s.inits k) = none)
    (hbounds : settings.bind (fun s => settingFor? s.bounds k) = none)
    (hlow : o.freeInterval.1 ≤ 1) (hhigh : 1 ≤ o.freeInterval.2)
    (h : p.Spans (kind.freeEnds? settings o k)) :
    p.IsPoint ∨ Edge.Encloses p.minimum p.maximum (kind.start settings k) := by
  have hstart : kind.start settings k = kind.neutral := by
    rw [start, hinits, Option.getD_none]
  rw [hstart]
  cases hends : kind.freeEnds? settings o k with
  | none =>
    rw [hends] at h
    rcases h with hpoint | ⟨hmin, hmax⟩
    · exact .inl hpoint
    · rw [hmin, hmax]
      have hself := Scalar.le_self (kind.finite_neutral (K := K))
      exact .inr ⟨hself, hself⟩
  | some ends =>
    obtain ⟨hneutral, rfl⟩ := eq_of_freeEnds? hbounds hends
    rw [hends] at h
    rw [h.1, h.2, hneutral]
    exact .inr ⟨hlow, hhigh⟩

/-- A parameter of an entry starts within its bounds exactly if it is pinned, if its prior is a
single point, or if the starting value of its kind lies there. -/
theorem Entry.encloses_init_iff {e : Entry K} {p : Parameter K}
    (h : e.parameter settings o k = .ok p) :
    Edge.Encloses p.prior.minimum p.prior.maximum p.init ↔ pinnedBy settings = true ∨
      p.prior.IsPoint ∨
        Edge.Encloses p.prior.minimum p.prior.maximum (e.kind.start settings k) := by
  obtain ⟨prior, hprior, hcase⟩ := parameter_eq_ok_iff.mp h
  rcases hcase with ⟨hpin, pinned, hpinned, rfl⟩ | ⟨hfree, rfl⟩
  · obtain ⟨hstart, rfl⟩ := Prior.mkFlat_eq_ok_iff.mp hpinned
    exact iff_of_true ⟨hstart.2.2, hstart.2.2⟩ (.inl hpin)
  · have hsettled := Prior.encloses_settle_iff (prior_checked hprior) (e.startingValue settings k)
    rw [hfree, or_iff_right Bool.false_ne_true]
    exact hsettled

end Settings

/-- The parameter at an index starts within its bounds. -/
def Model.StartsInBounds (m : Model K) (i : ℕ) : Prop :=
  ∃ x lo hi, m.inits[i]? = some x ∧ m.bounds[i]? = some (lo, hi) ∧ Edge.Encloses lo hi x

omit [Scalar.OrdersFinite K] in
/-- Starting value and bounds of a parameter are those of its record. -/
theorem Model.startsInBounds_iff {m : Model K} {i : ℕ} {p : Parameter K}
    (hp : m.parameters[i]? = some p) :
    m.StartsInBounds i ↔ Edge.Encloses p.prior.minimum p.prior.maximum p.init := by
  have hinit : m.inits[i]? = some p.init := by
    rw [Model.inits, List.getElem?_map, hp, Option.map_some]
  have hbounds : m.bounds[i]? = some (p.prior.minimum, p.prior.maximum) := by
    rw [Model.bounds, List.getElem?_map, hp, Option.map_some]
  constructor
  · intro h
    obtain ⟨x, lo, hi, hx, hends, hinside⟩ := h
    rw [hinit, Option.some.injEq] at hx
    rw [hbounds, Option.some.injEq, Prod.mk.injEq] at hends
    rw [hx, hends.1, hends.2]
    exact hinside
  · intro h
    exact ⟨_, _, _, hinit, hbounds, h⟩

omit [Scalar.OrdersFinite K] in
/-- A parameter is made from the settings that the workspace has for its modifier. -/
theorem Model.Built.exists_made {ws : Workspace K} {o : Options K}
    {config : Option (MeasurementConfig K)} {plans : List (ChannelPlan K)}
    {t : ParameterTable K} {m : Model K} (h : Model.Built ws o config plans t m) {i : ℕ}
    {p : Parameter K} (hp : m.parameters[i]? = some p) :
    ∃ (e : Entry K) (k : ℕ), i = m.slotOf p.modifier + k ∧ e.kind = p.kind ∧
      e.parameter (ws.parameterConfig? o p.modifier) o k = .ok p := by
  obtain ⟨e, k, -, -, -, hi, hparameter⟩ := h.exists_parameter hp
  obtain ⟨-, -, hkind, -⟩ := Entry.parameter_label hparameter
  rw [h.parameterConfig?_eq] at hparameter
  exact ⟨e, k, hi, hkind.symm, hparameter⟩

/-- A parameter of a model that has been built starts within its bounds exactly if the settings
pin it, if its prior is a single point, or if the starting value of its kind lies there. If it
is not pinned, the bounds of a free parameter are its interval, and a constrained parameter has
none unless its prior is a single point. So a parameter whose settings state neither a starting
value nor an interval starts within its bounds if the interval of the options contains one. -/
theorem Model.start_in_bounds_iff {ws : Workspace K} {o : Options K} {m : Model K}
    (h : Model.build ws o = .ok m) {i : ℕ} {p : Parameter K}
    (hp : m.parameters[i]? = some p) :
    ∃ settings k, settings = ws.parameterConfig? o p.modifier ∧
      i = m.slotOf p.modifier + k ∧
      (m.StartsInBounds i ↔ pinnedBy settings = true ∨ p.prior.IsPoint ∨
        Edge.Encloses p.prior.minimum p.prior.maximum (p.kind.start settings k)) ∧
      (pinnedBy settings = false → p.prior.Spans (p.kind.freeEnds? settings o k)) ∧
      (settings.bind (fun s => settingFor? s.inits k) = none →
        settings.bind (fun s => settingFor? s.bounds k) = none →
          o.freeInterval.1 ≤ 1 → 1 ≤ o.freeInterval.2 → m.StartsInBounds i) := by
  obtain ⟨config, plans, t, hbuilt⟩ := Model.build_eq_ok_iff.mp h
  obtain ⟨e, k, hi, hkind, hparameter⟩ := hbuilt.exists_made hp
  have hstart := Entry.encloses_init_iff hparameter
  rw [hkind, ← Model.startsInBounds_iff hp] at hstart
  have hspans : pinnedBy (ws.parameterConfig? o p.modifier) = false →
      p.prior.Spans (p.kind.freeEnds? (ws.parameterConfig? o p.modifier) o k) := by
    intro hfree
    rw [← hkind]
    exact Entry.parameter_spans hparameter hfree
  refine ⟨_, k, rfl, hi, hstart, hspans, fun hinits hbounds hlow hhigh => hstart.mpr ?_⟩
  cases hpin : pinnedBy (ws.parameterConfig? o p.modifier) with
  | true => exact .inl rfl
  | false =>
    have hneutral := p.kind.encloses_neutral hinits hbounds hlow hhigh (hspans hpin)
    exact .inr hneutral

/-- Of the two regions, the signal strength has no settings and the shape of the control region
is pinned; both start within their bounds. -/
theorem Model.start_twoRegions :
    ∃ m, Model.build Workspace.twoRegions Options.standard = .ok m ∧ m.StartsInBounds 0 ∧
      m.StartsInBounds 6 := by
  have hnames : ((Model.build Workspace.twoRegions Options.standard).toOption.map
      fun m => m.parameters.map (·.modifier)) = some ["mu", "luminosity", "counts", "counts",
        "scale", "rate", "shape", "uncorrelated"] := by decide +kernel
  obtain ⟨m, hm, hmodifiers⟩ := Option.map_eq_some_iff.mp hnames
  have hbuild := toOption_eq_some_iff.mp hm
  have hat : ∀ (i : ℕ) (name : String), (["mu", "luminosity", "counts", "counts", "scale",
      "rate", "shape", "uncorrelated"] : List String)[i]? = some name →
        ∃ p : Parameter Float, m.parameters[i]? = some p ∧ p.modifier = name := by
    intro i name hname
    rw [← hmodifiers, List.getElem?_map, Option.map_eq_some_iff] at hname
    exact hname
  obtain ⟨mu, hmu, hmuName⟩ := hat 0 "mu" rfl
  obtain ⟨shape, hshape, hshapeName⟩ := hat 6 "shape" rfl
  obtain ⟨_, k, rfl, -, -, -, hplain⟩ := Model.start_in_bounds_iff hbuild hmu
  obtain ⟨_, l, rfl, -, hiff, -⟩ := Model.start_in_bounds_iff hbuild hshape
  rw [hmuName] at hplain
  rw [hshapeName] at hiff
  exact ⟨m, hbuild, hplain rfl rfl (by decide) (by decide), hiff.mpr (.inl rfl)⟩

/-- Two free factors: the settings start the first one above the standard interval, and state
for the second one an interval above its neutral value. -/
def Workspace.startsOutside : Workspace Float :=
  { channels := [⟨"c", [⟨"s", [1], [.normfactor "strong", .normfactor "weak"]⟩]⟩]
    observations := []
    measurements :=
      [⟨"m", "", [⟨"strong", [20], [], false, [], []⟩, ⟨"weak", [], [(2, 5)], false, [], []⟩]⟩]
    version := none }

/-- A model is built although neither of its parameters starts within its bounds: the first one
starts above them, the second one below. -/
theorem Model.start_outside_bounds :
    ∃ m, Model.build Workspace.startsOutside Options.standard = .ok m ∧ m.inits = [20, 1] ∧
      m.bounds = [(.point 0, .point 10), (.point 2, .point 5)] ∧
      ¬ ∀ i < m.parameters.length, m.StartsInBounds i := by
  have hvalues : ((Model.build Workspace.startsOutside Options.standard).toOption.map
      fun m => (m.inits, m.bounds)) =
        some ([20, 1], [(.point 0, .point 10), (.point 2, .point 5)]) := by decide +kernel
  obtain ⟨m, hm, hpair⟩ := Option.map_eq_some_iff.mp hvalues
  obtain ⟨hinits, hbounds⟩ := Prod.mk.inj hpair
  refine ⟨m, toOption_eq_some_iff.mp hm, hinits, hbounds, fun hall => ?_⟩
  have hlength : m.inits.length = m.parameters.length := List.length_map _
  have htwo : 0 < m.parameters.length := by
    rw [← hlength, hinits]
    decide
  obtain ⟨x, lo, hi, hx, hends, -, hbelow⟩ := hall 0 htwo
  rw [hinits] at hx
  rw [hbounds] at hends
  cases hx
  cases hends
  revert hbelow
  change ¬ (20 : Float) ≤ 10
  decide

end BinnedModel
