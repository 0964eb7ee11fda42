import Mathlib
import BinnedModel.Proofs.Model.StartingPoint

/-!
# Priors and pins

A parameter can be left a single value in several ways: the settings pin it, an interval of its
own or the one of the options has equal ends, or its registrations add up to no uncertainty. In
each case its prior is flat on this value, and then the parameter starts there. This module shows
that the prior of a parameter is one that its own check lets through, that a pinned parameter has
the value which the settings state for it, and that the starting value follows the prior wherever
the prior leaves no choice.
-/

namespace BinnedModel

variable {K : Type}

/-- The entry of a list of settings for a parameter: the only one, or the one at its index. -/
theorem settingFor?_eq {α : Type} (values : List α) (k : ℕ) :
    settingFor? values k = if values.length = 1 then values[0]? else values[k]? := by
  unfold settingFor?
  split
  · rfl
  · next hmany =>
    have hlength : values.length ≠ 1 := by
      intro hone
      obtain ⟨value, hvalue⟩ := List.length_eq_one_iff.mp hone
      exact hmany value hvalue
    rw [if_neg hlength]

variable [Scalar K]

namespace Prior

/-- A prior that constrains or frees one parameter of a model: a Gaussian of finite centre and of
finite positive width, or a flat one on a finite interval. -/
def Valid : Prior K → Prop
  | normal mu sigma => Scalar.Gaussian mu sigma
  | poisson _ => False
  | flat a b => Scalar.Interval a b

/-- A prior made anew from its numbers, with the check of its kind. -/
def remade : Prior K → Except (Fault K) (Prior K)
  | normal mu sigma => mkNormal mu sigma
  | poisson rate => mkPoisson rate
  | flat a b => mkFlat a b

/-- A prior that has passed a check passes the check of its kind again. -/
theorem Checked.remade_eq {p : Prior K} (h : p.Checked) : p.remade = .ok p := by
  rcases h with ⟨mu, sigma, hnormal⟩ | ⟨a, b, hflat⟩
  · have hp : p = normal mu sigma := eq_normal_of_mkNormal hnormal
    rw [hp] at hnormal ⊢
    exact hnormal
  · have hp : p = flat a b := eq_flat_of_mkFlat hflat
    rw [hp] at hflat ⊢
    exact hflat

/-- A prior that has passed a check is valid. -/
theorem Checked.valid [Scalar.OrdersFinite K] {p : Prior K} (h : p.Checked) : p.Valid := by
  rcases h with ⟨mu, sigma, hnormal⟩ | ⟨a, b, hflat⟩
  · have hgaussian : Scalar.Gaussian mu sigma := exists_mkNormal_iff.mp ⟨p, hnormal⟩
    rw [eq_normal_of_mkNormal hnormal]
    exact hgaussian
  · have hinterval : Scalar.Interval a b := exists_mkFlat_iff.mp ⟨p, hflat⟩
    rw [eq_flat_of_mkFlat hflat]
    exact hinterval

end Prior

namespace Entry

variable {e : Entry K} {settings : Option (ParameterConfig K)} {o : Options K} {k : ℕ}
  {p : Parameter K}

/-- A parameter that the settings pin has the starting value that they state for it, or else the
neutral one, as its only value. -/
theorem prior_of_fixed (h : e.parameter settings o k = .ok p) {c : ParameterConfig K}
    (hc : settings = some c) (hfixed : c.fixed = true) :
    p.prior = .flat (e.startingValue settings k) (e.startingValue settings k) := by
  have hpin : pinnedBy settings = true := by
    rw [hc]
    exact hfixed
  obtain ⟨prior, -, ⟨-, pinned, hflat, rfl⟩ | ⟨hfree, -⟩⟩ := parameter_eq_ok_iff.mp h
  · exact Prior.eq_flat_of_mkFlat hflat
  · rw [hpin] at hfree
    cases hfree

/-- A parameter whose prior leaves a single point starts there, whether the settings pin it or
the prior of its kind has equal ends. -/
theorem init_of_point (h : e.parameter settings o k = .ok p) {a b : K}
    (hprior : p.prior = .flat a b) (hpoint : Scalar.Agrees a b) : p.init = a := by
  obtain ⟨prior, -, ⟨-, pinned, hflat, rfl⟩ | ⟨-, rfl⟩⟩ := parameter_eq_ok_iff.mp h
  · have hpinned : Prior.flat (e.startingValue settings k) (e.startingValue settings k) =
        .flat a b := (Prior.eq_flat_of_mkFlat hflat).symm.trans hprior
    exact (Prior.flat.inj hpinned).1
  · have hsettled : Prior.settle (.flat a b) (e.startingValue settings k) = a := if_pos hpoint
    have hkind : prior = .flat a b := hprior
    rw [← hkind] at hsettled
    exact hsettled

end Entry

/-- The prior of a parameter of a model that has been built is valid and passes its own check
again. If the settings of its modifier pin it, its only value is the starting value that they
state for it, or else the neutral one. Whenever the prior leaves a single value, the parameter
starts there, also where its two ends are one value without being the same scalar. -/
theorem Model.priors_valid_and_pinned [Scalar.OrdersFinite K] {ws : Workspace K} {o : Options K}
    {m : Model K} (h : Model.build ws o = .ok m) {i : ℕ} {p : Parameter K}
    (hp : m.parameters[i]? = some p) :
    p.prior.Valid ∧ p.prior.remade = .ok p.prior ∧
    (∃ k, i = m.slotOf p.modifier + k ∧
      ∀ c, ws.parameterConfig? o p.modifier = some c → c.fixed = true →
        ∃ v, v = (if c.inits.length = 1 then c.inits[0]? else c.inits[k]?).getD p.kind.neutral ∧
          p.prior = .flat v v) ∧
    (∀ v, p.prior = .flat v v → p.init = v) ∧
    ∀ a b, p.prior = .flat a b → Scalar.Agrees a b → p.init = a := by
  obtain ⟨config, plans, t, hbuilt⟩ := Model.build_eq_ok_iff.mp h
  obtain ⟨e, k, hi, hkind, hparameter⟩ := hbuilt.exists_made hp
  have hchecked : p.prior.Checked := Entry.parameter_checked hparameter
  have hvalid : p.prior.Valid := hchecked.valid
  refine ⟨hvalid, hchecked.remade_eq, ⟨k, hi, fun c hc hfixed => ?_⟩, fun v hv => ?_,
    fun a b => Entry.init_of_point hparameter⟩
  · have hstart : e.startingValue (ws.parameterConfig? o p.modifier) k =
        (if c.inits.length = 1 then c.inits[0]? else c.inits[k]?).getD p.kind.neutral := by
      rw [Entry.startingValue, hc, Option.bind_some, settingFor?_eq, hkind]
    rw [← hstart]
    exact ⟨_, rfl, Entry.prior_of_fixed hparameter hc hfixed⟩
  · have hself : Scalar.Agrees v v := by
      rw [hv] at hvalid
      exact ⟨hvalid.2.2, hvalid.2.2⟩
    exact Entry.init_of_point hparameter hv hself

/-- In the model of the two regions the shape of the control region, which the settings pin, has
one as its only value and starts there. -/
theorem Model.pinned_twoRegions :
    ∃ m p, Model.build Workspace.twoRegions Options.standard = .ok m ∧
      m.parameters[6]? = some p ∧ p.prior.Valid ∧ p.prior.remade = .ok p.prior ∧
      p.prior = .flat 1 1 ∧ p.init = 1 := by
  have hname : ((Model.build Workspace.twoRegions Options.standard).toOption.bind fun m =>
      m.parameters[6]?.map (·.modifier)) = some "shape" := by decide +kernel
  obtain ⟨m, hm, hp⟩ := Option.bind_eq_some_iff.mp hname
  obtain ⟨p, hp, hshape⟩ := Option.map_eq_some_iff.mp hp
  have hbuild := toOption_eq_some_iff.mp hm
  obtain ⟨hvalid, hremade, ⟨k, -, hfixed⟩, hinit, -⟩ := Model.priors_valid_and_pinned hbuild hp
  rw [hshape] at hfixed
  obtain ⟨v, hv, hprior⟩ := hfixed ⟨"shape", [1], [], true, [], []⟩ rfl rfl
  have hone : v = 1 := hv
  rw [hone] at hprior
  exact ⟨m, p, hbuild, hp, hvalid, hremade, hprior, hinit 1 hprior⟩

end BinnedModel
