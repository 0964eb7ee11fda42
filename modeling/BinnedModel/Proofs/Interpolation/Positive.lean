import Mathlib
import BinnedModel.Proofs.Interpolation.Monotone
import BinnedModel.Proofs.Sequence
import BinnedModel.Model.Yields

/-!
# Positive factors

Over the real numbers a power of a positive variation is positive, and a factor between variations
on different sides of one lies between powers. The polynomial between two variations on one side of
one is not tested before it is used. It is a fixed positive part, plus the pull of the variation on
the near side of zero, minus the pull of the one on the far side, each with a positive weight; the
pull of a variation grows with it. Below one the fixed part outweighs the far pull, so the
polynomial is positive. Above one it is positive until the far variation reaches a limit, which
depends on the near variation and on the parameter, and which is always above 41; 42 can be too
much.
-/

namespace BinnedModel

namespace Quintic

/-- The polynomial in `α` that the pull of a variation with logarithm `l` has per unit of the
variation. -/
def share (l α : ℝ) : ℝ :=
  let n (k : ℕ) : ℝ := (k : ℝ)
  n 15 - n 21 * α + n 8 * α ^ 2 - l * (1 - α) * (n 7 - n 5 * α) + l ^ 2 * (1 - α) ^ 2

/-- The pull of a variation `v` at `α`. -/
noncomputable def pull (v α : ℝ) : ℝ :=
  v * share (Real.log v) α

/-- The polynomial between two variations, by what each of them contributes. -/
theorem meeting_eq_pulls (lo hi α : ℝ) :
    1 + (meeting lo hi).horner α * α = (1 - α ^ 2) ^ 3 +
      (α * (1 + α) ^ 3 * pull hi α - α * (1 - α) ^ 3 * pull lo (-α)) / 16 := by
  have hlog (v : ℝ) : Scalar.log v = Real.log v := rfl
  simp only [meeting, sixteenths, horner, Scalar.ratio, pull, share, hlog]
  push_cast
  ring

/-- The pull per unit is at least one. -/
theorem one_le_share (l α : ℝ) : 1 ≤ share l α := by
  have hsquares : 4 * share l α =
      (2 * l * (1 - α) - (7 - 5 * α)) ^ 2 + 7 * (1 - α) ^ 2 + 4 := by
    simp only [share]
    push_cast
    ring
  have hleft := sq_nonneg (2 * l * (1 - α) - (7 - 5 * α))
  have hright := sq_nonneg (1 - α)
  linarith

/-- The pull of a variation of one. -/
theorem pull_one (α : ℝ) : pull 1 α = 15 - 21 * α + 8 * α ^ 2 := by
  simp only [pull, share, Real.log_one]
  push_cast
  ring

/-- The pull of a positive variation is at least the variation. -/
theorem le_pull {v : ℝ} (hv : 0 < v) (α : ℝ) : v ≤ pull v α :=
  le_mul_of_one_le_right hv.le (one_le_share _ _)

/-- The slope of a pull in the variation. -/
theorem hasDerivAt_pull {v : ℝ} (hv : 0 < v) (α : ℝ) :
    HasDerivAt (fun v => pull v α)
      (8 - 9 * α + 3 * α ^ 2 - Real.log v * (1 - α) * (5 - 3 * α) +
        Real.log v ^ 2 * (1 - α) ^ 2) v := by
  have hlog := Real.hasDerivAt_log hv.ne'
  have hlinear := (hlog.mul_const (1 - α)).mul_const (7 - 5 * α)
  have hsquare := (hlog.pow 2).mul_const ((1 - α) ^ 2)
  have hshare := (hlinear.const_sub (15 - 21 * α + 8 * α ^ 2)).add hsquare
  have hpull := (hasDerivAt_id' v).mul hshare
  refine (hpull.congr_deriv ?_).congr_of_eventuallyEq (.of_forall fun w => ?_)
  · simp only [Pi.add_apply, Pi.pow_apply]
    field_simp
    push_cast
    ring
  · simp only [pull, share, Pi.mul_apply, Pi.add_apply, Pi.pow_apply]
    push_cast
    ring

/-- Greater variations pull more, because four times the slope is a sum of squares and a positive
number. -/
theorem strictMonoOn_pull (α : ℝ) : StrictMonoOn (fun v => pull v α) (Set.Ioi 0) := by
  refine strictMonoOn_of_deriv_pos (convex_Ioi 0) (fun v hv => ?_) fun v hv => ?_
  · exact (hasDerivAt_pull hv α).continuousAt.continuousWithinAt
  · rw [interior_Ioi] at hv
    rw [(hasDerivAt_pull hv α).deriv]
    have hleft := sq_nonneg (2 * Real.log v * (1 - α) - (5 - 3 * α))
    have hright := sq_nonneg (1 - α)
    nlinarith

/-- Greater variations pull at least as much. -/
theorem pull_le_pull {v w : ℝ} (hv : 0 < v) (h : v ≤ w) (α : ℝ) : pull v α ≤ pull w α :=
  (strictMonoOn_pull α).monotoneOn hv (hv.trans_le h) h

/-- The value of the polynomial at the distance `x` from zero, on the side of the variation
`near`. -/
noncomputable def beside (near far x : ℝ) : ℝ :=
  let n (k : ℕ) : ℝ := (k : ℝ)
  (1 - x ^ 2) ^ 3 + x * ((1 + x) ^ 3 * pull near x - (1 - x) ^ 3 * pull far (-x)) / n 16

/-- On the right of zero the up variation is the near one. -/
theorem meeting_right (lo hi α : ℝ) : 1 + (meeting lo hi).horner α * α = beside hi lo α := by
  rw [meeting_eq_pulls, beside]
  push_cast
  ring

/-- On the left of zero the down variation is the near one. -/
theorem meeting_left (lo hi α : ℝ) :
    1 + (meeting lo hi).horner α * α = beside lo hi (-α) := by
  rw [meeting_eq_pulls, beside, neg_neg]
  push_cast
  ring

/-- A greater far variation lowers the polynomial. -/
theorem beside_strictAntiOn (near : ℝ) {x : ℝ} (hx : 0 < x) (hx' : x < 1) :
    StrictAntiOn (fun far => beside near far x) (Set.Ioi 0) := by
  intro v hv w hw hvw
  have hpull := strictMonoOn_pull (-x) hv hw hvw
  have hweight : 0 < x * (1 - x) ^ 3 := mul_pos hx (pow_pos (sub_pos.mpr hx') 3)
  have hstep := mul_lt_mul_of_pos_left hpull hweight
  simp only [beside]
  push_cast
  linarith

/-- Against a far variation of at most one the polynomial is positive. -/
theorem beside_pos_of_far_le_one {near far : ℝ} (hnear : 0 < near) (hfar : 0 < far)
    (hone : far ≤ 1) {x : ℝ} (hx : 0 ≤ x) (hx' : x < 1) : 0 < beside near far x := by
  have hleft : 0 ≤ x * ((1 + x) ^ 3 * pull near x) := by
    have hpull := hnear.trans_le (le_pull hnear x)
    positivity
  have hcube : 0 < (1 - x) ^ 3 := pow_pos (sub_pos.mpr hx') 3
  have hright : x * ((1 - x) ^ 3 * pull far (-x)) ≤
      x * ((1 - x) ^ 3 * (15 + 21 * x + 8 * x ^ 2)) := by
    have hpull := pull_le_pull hfar hone (-x)
    rw [pull_one] at hpull
    have hbound : pull far (-x) ≤ 15 + 21 * x + 8 * x ^ 2 := by linarith
    gcongr
  have hrest : 0 < (1 - x) ^ 3 * (16 + 33 * x + 27 * x ^ 2 + 8 * x ^ 3) := by positivity
  simp only [beside]
  push_cast
  linarith

/-- A power of two above a power of a number bounds the logarithm of the number. -/
theorem log_le_of_pow_le {v : ℝ} {a b : ℕ} (hv : 0 < v) (h : v ^ a ≤ 2 ^ b) :
    a * Real.log v ≤ b * Real.log 2 := by
  rw [← Real.log_pow, ← Real.log_pow]
  exact Real.log_le_log (pow_pos hv a) h

/-- A power of two below a power of a number bounds the logarithm of the number. -/
theorem le_log_of_le_pow {v : ℝ} {a b : ℕ} (h : 2 ^ b ≤ v ^ a) :
    b * Real.log 2 ≤ a * Real.log v := by
  rw [← Real.log_pow, ← Real.log_pow]
  exact Real.log_le_log (by positivity) h

/-- The pull of 41 on the far side is bounded by a polynomial. -/
theorem pull_41_le {x : ℝ} (hx : 0 ≤ x) :
    pull 41 (-x) ≤ 114.67 + 165.04 * x + 132.38 * x ^ 2 := by
  have htwo := Real.log_two_lt_d9
  have htwo' := Real.log_two_gt_d9
  have hupper : ((25 : ℕ) : ℝ) * Real.log 41 ≤ (134 : ℕ) * Real.log 2 :=
    log_le_of_pow_le (by norm_num) (by norm_num)
  have hlower : ((5 : ℕ) : ℝ) * Real.log 2 ≤ (1 : ℕ) * Real.log 41 :=
    le_log_of_le_pow (by norm_num)
  push_cast at hupper hlower
  have hgap : 0 ≤ 3.716 - Real.log 41 := by linarith
  have hgrows : 0 ≤ (3.716 + Real.log 41) * (1 + x) - (7 + 5 * x) := by nlinarith
  have hone : 0 ≤ 1 + x := by linarith
  have hproduct := mul_nonneg (mul_nonneg hgap hgrows) hone
  have hsquare := sq_nonneg x
  simp only [pull, share]
  push_cast
  linarith

/-- Between variations of at least one, of which the far one is at most 41, the polynomial is
positive. The difference is least near 0.328, where it is about 0.04; the quotient by the square of
the distance from there is positive. -/
theorem beside_pos_of_far_le {near far : ℝ} (hnear : 1 ≤ near) (hfar : 0 < far) (hle : far ≤ 41)
    {x : ℝ} (hx : 0 < x) (hx' : x < 1) : 0 < beside near far x := by
  have hcube : 0 < (1 - x) ^ 3 := pow_pos (sub_pos.mpr hx') 3
  have hleft : x * ((1 + x) ^ 3 * (15 - 21 * x + 8 * x ^ 2)) ≤
      x * ((1 + x) ^ 3 * pull near x) := by
    have hpull := pull_le_pull zero_lt_one hnear x
    rw [pull_one] at hpull
    gcongr
  have hright : x * ((1 - x) ^ 3 * pull far (-x)) ≤
      x * ((1 - x) ^ 3 * (114.67 + 165.04 * x + 132.38 * x ^ 2)) := by
    have hpull := (pull_le_pull hfar hle (-x)).trans (pull_41_le hx.le)
    gcongr
  have hquotient : 0 ≤ 148.6 - 21 * x - 69.5 * x ^ 2 - 147.5 * x ^ 3 + 124.3 * x ^ 4 := by
    have hinside := mul_pos hx (sub_pos.mpr hx')
    have hsquare := sq_nonneg (x ^ 2 - x)
    nlinarith [pow_pos hx 3]
  have hproduct := mul_nonneg (sq_nonneg (x - 0.328)) hquotient
  have hrest : 0 < 16 * (1 - x ^ 2) ^ 3 + x * ((1 + x) ^ 3 * (15 - 21 * x + 8 * x ^ 2)) -
      x * ((1 - x) ^ 3 * (114.67 + 165.04 * x + 132.38 * x ^ 2)) := by
    nlinarith [pow_pos hx 2, pow_pos hx 3]
  simp only [beside]
  push_cast
  linarith

/-- The polynomial depends continuously on a positive far variation. -/
theorem continuousOn_beside (near x : ℝ) :
    ContinuousOn (fun far => beside near far x) (Set.Ioi 0) := by
  have hpull : ContinuousOn (fun far => pull far (-x)) (Set.Ioi 0) := fun far hfar =>
    (hasDerivAt_pull hfar (-x)).continuousAt.continuousWithinAt
  unfold beside
  fun_prop

/-- A far variation that is great enough makes the polynomial negative. -/
theorem exists_beside_nonpos (near : ℝ) {x : ℝ} (hx : 0 < x) (hx' : x < 1) :
    ∃ far, 41 ≤ far ∧ beside near far x ≤ 0 := by
  have hcube : 0 < (1 - x) ^ 3 := pow_pos (sub_pos.mpr hx') 3
  have hweight : 0 < x * (1 - x) ^ 3 := mul_pos hx hcube
  let bound := (16 * (1 - x ^ 2) ^ 3 + x * ((1 + x) ^ 3 * pull near x)) / (x * (1 - x) ^ 3)
  have hgreat : 41 ≤ max 41 bound := le_max_left _ _
  refine ⟨max 41 bound, hgreat, ?_⟩
  have hpull : bound ≤ pull (max 41 bound) (-x) :=
    (le_max_right _ _).trans (le_pull (by linarith) (-x))
  have hscaled := mul_le_mul_of_nonneg_left hpull hweight.le
  rw [mul_div_cancel₀ _ hweight.ne'] at hscaled
  simp only [beside]
  push_cast
  linarith

/-- Beside a variation of at least one the far variation has a limit above 41, below which the
polynomial is positive, and only there. -/
theorem exists_limit {near x : ℝ} (hnear : 1 ≤ near) (hx : 0 < x) (hx' : x < 1) :
    ∃ limit, 41 < limit ∧ ∀ far, 0 < far → (0 < beside near far x ↔ far < limit) := by
  obtain ⟨great, hgreat, hnonpos⟩ := exists_beside_nonpos near hx hx'
  have hstart : 0 < beside near 41 x :=
    beside_pos_of_far_le hnear (by norm_num) le_rfl hx hx'
  have hcontinuous : ContinuousOn (fun far => beside near far x) (Set.Icc 41 great) :=
    (continuousOn_beside near x).mono fun far hfar =>
      lt_of_lt_of_le (by norm_num) hfar.1
  obtain ⟨limit, hlimit, hzero⟩ :=
    intermediate_value_Icc' hgreat hcontinuous ⟨hnonpos, hstart.le⟩
  have hpos : 0 < limit := lt_of_lt_of_le (by norm_num) hlimit.1
  have hne : limit ≠ 41 := fun h => by
    rw [h] at hzero
    exact hstart.ne' hzero
  refine ⟨limit, lt_of_le_of_ne hlimit.1 hne.symm, fun far hfar => ?_⟩
  rw [← (beside_strictAntiOn near hx hx').lt_iff_gt hpos hfar]
  simp only [hzero]

end Quintic

namespace MultiplicativeCode

variable {lo hi : ℝ}

/-- Powers of positive variations are positive. -/
theorem exponential_pos (hlo : 0 < lo) (hhi : 0 < hi) (α : ℝ) : 0 < exponential lo hi α := by
  rcases le_total 0 α with h | h
  · rw [exponential_of_nonneg h]
    exact Real.rpow_pos_of_pos hhi α
  · rw [exponential_of_nonpos h]
    exact Real.rpow_pos_of_pos hlo (-α)

/-- Positive variations are not blended: their factor is a power or the polynomial. -/
theorem interpolate_of_pos (code : MultiplicativeCode) (hlo : 0 < lo) (hhi : 0 < hi) (α : ℝ) :
    code.interpolate lo hi α =
      if code.effective lo hi = code1 then exponential lo hi α else polynomial lo hi α := by
  have hsign : ¬ (hi ≤ 0 ∨ lo ≤ 0) := not_or.mpr ⟨not_le.mpr hhi, not_le.mpr hlo⟩
  rw [interpolate]
  cases code.effective lo hi with
  | code1 => rw [factor, if_neg hsign, if_pos rfl]
  | code4 => rw [factor, if_neg hsign, if_neg (by decide)]

/-- Outside of the variations the factor is a power, under each code. -/
theorem interpolate_outside (code : MultiplicativeCode) (hlo : 0 < lo) (hhi : 0 < hi) {α : ℝ}
    (h : 1 ≤ |α|) : code.interpolate lo hi α = exponential lo hi α := by
  rw [interpolate_of_pos code hlo hhi, polynomial_of_one_le_abs h, ite_self]

/-- Between rising variations the factor stays above its values far to the left, which are
powers. -/
theorem interpolate_pos_of_rising (code : MultiplicativeCode) (hpos : 0 < lo) (hlo : lo < 1)
    (hhi : 1 < hi) (α : ℝ) : 0 < code.interpolate lo hi α := by
  have hleft : min α (-1) ≤ -1 := min_le_right α (-1)
  have houtside : 1 ≤ |min α (-1)| := le_abs.mpr (.inr (by linarith))
  calc 0 < exponential lo hi (min α (-1)) := exponential_pos hpos (zero_lt_one.trans hhi) _
    _ = code.interpolate lo hi (min α (-1)) :=
      (interpolate_outside code hpos (zero_lt_one.trans hhi) houtside).symm
    _ ≤ code.interpolate lo hi α := monotone_interpolate code hlo hhi (min_le_left α (-1))

/-- Between variations of at most one the polynomial is positive. -/
theorem polynomial_pos_of_le_one (hlo : 0 < lo) (hhi : 0 < hi) (hlo' : lo ≤ 1) (hhi' : hi ≤ 1)
    {α : ℝ} (h : |α| < 1) : 0 < polynomial lo hi α := by
  rw [polynomial_of_abs_le_one h.le]
  rcases le_total 0 α with hα | hα
  · rw [abs_of_nonneg hα] at h
    rw [Quintic.meeting_right]
    exact Quintic.beside_pos_of_far_le_one hhi hlo hlo' hα h
  · rw [abs_of_nonpos hα] at h
    rw [Quintic.meeting_left]
    exact Quintic.beside_pos_of_far_le_one hlo hhi hhi' (neg_nonneg.mpr hα) h

/-- The factor is positive unless the polynomial code is requested, both variations are at least
one and the parameter lies strictly between the knots. -/
theorem interpolate_pos {code : MultiplicativeCode} (hlo : 0 < lo) (hhi : 0 < hi) {α : ℝ}
    (h : ¬ (code = code4 ∧ 1 ≤ lo ∧ 1 ≤ hi ∧ |α| < 1)) : 0 < code.interpolate lo hi α := by
  rcases le_or_gt 1 |α| with houtside | hinside
  · rw [interpolate_outside code hlo hhi houtside]
    exact exponential_pos hlo hhi α
  by_cases hrising : lo < 1 ∧ 1 < hi
  · exact interpolate_pos_of_rising code hlo hrising.1 hrising.2 α
  by_cases hfalling : hi < 1 ∧ 1 < lo
  · rw [← interpolate_swap]
    exact interpolate_pos_of_rising code hhi hfalling.1 hfalling.2 (-α)
  rw [interpolate_of_pos code hlo hhi]
  split
  · exact exponential_pos hlo hhi α
  · next heffective =>
    have hcode : code = code4 := by
      cases code with
      | code1 => exact absurd rfl heffective
      | code4 => rfl
    have hbelow : lo ≤ 1 ∧ hi ≤ 1 := by grind
    exact polynomial_pos_of_le_one hlo hhi hbelow.1 hbelow.2 hinside

/-- Between variations of at least one the polynomial code uses the polynomial. -/
theorem interpolate_above_one (hlo : 1 ≤ lo) (hhi : 1 ≤ hi) {α : ℝ} (h : |α| ≤ 1) :
    code4.interpolate lo hi α = 1 + (Quintic.meeting lo hi).horner α * α := by
  have hpos : 0 < lo ∧ 0 < hi := ⟨zero_lt_one.trans_le hlo, zero_lt_one.trans_le hhi⟩
  have heffective : code4.effective lo hi = code4 := by
    have hkeeps : keepsPolynomial lo hi = true := by
      rw [keepsPolynomial, if_neg fun h => not_lt.mpr hlo h.1, if_neg fun h => not_lt.mpr hhi h.1]
    rw [effective, if_pos hpos, if_pos hkeeps]
  rw [interpolate_of_pos code4 hpos.1 hpos.2, heffective, if_neg (by decide),
    polynomial_of_abs_le_one h]

/-- Whether the polynomial sinks to zero or below at a parameter: the polynomial code is requested,
both variations are at least one, and the one on the far side of zero has reached the limit beside
the near one at this distance from zero. -/
def Sinks (limit : ℝ → ℝ → ℝ) (code : MultiplicativeCode) (lo hi α : ℝ) : Prop :=
  code = code4 ∧ 1 ≤ lo ∧ 1 ≤ hi ∧
    (-1 < α ∧ α < 0 ∧ limit lo (-α) ≤ hi ∨ 0 < α ∧ α < 1 ∧ limit hi α ≤ lo)

/-- If the limits are those of the polynomial, the factor of positive variations is positive
exactly where it does not sink. -/
theorem interpolate_pos_iff_not_sinks {limit : ℝ → ℝ → ℝ}
    (hlimit : ∀ near x, 1 ≤ near → 0 < x → x < 1 → ∀ far, 0 < far →
      (0 < Quintic.beside near far x ↔ far < limit near x))
    (code : MultiplicativeCode) (hlo : 0 < lo) (hhi : 0 < hi) (α : ℝ) :
    0 < code.interpolate lo hi α ↔ ¬ Sinks limit code lo hi α := by
  by_cases habove : code = code4 ∧ 1 ≤ lo ∧ 1 ≤ hi ∧ |α| < 1
  · obtain ⟨rfl, hlo', hhi', hinside⟩ := habove
    rw [interpolate_above_one hlo' hhi' hinside.le]
    obtain ⟨hleft, hright⟩ := abs_lt.mp hinside
    rcases lt_trichotomy α 0 with hα | rfl | hα
    · rw [Quintic.meeting_left, hlimit lo (-α) hlo' (by linarith) (by linarith) hi hhi, ← not_le]
      refine not_congr ⟨fun h => ⟨rfl, hlo', hhi', .inl ⟨hleft, hα, h⟩⟩, fun h => ?_⟩
      rcases h.2.2.2 with h | h
      · exact h.2.2
      · exact absurd h.1 (not_lt.mpr hα.le)
    · refine iff_of_true (by norm_num) fun h => ?_
      rcases h.2.2.2 with h | h
      · exact lt_irrefl 0 h.2.1
      · exact lt_irrefl 0 h.1
    · rw [Quintic.meeting_right, hlimit hi α hhi' hα hright lo hlo, ← not_le]
      refine not_congr ⟨fun h => ⟨rfl, hlo', hhi', .inr ⟨hα, hright, h⟩⟩, fun h => ?_⟩
      rcases h.2.2.2 with h | h
      · exact absurd h.2.1 (not_lt.mpr hα.le)
      · exact h.2.2
  · refine iff_of_true (interpolate_pos hlo hhi habove) fun h => habove ?_
    obtain ⟨hcode, hlo', hhi', hside⟩ := h
    refine ⟨hcode, hlo', hhi', abs_lt.mpr ?_⟩
    rcases hside with hside | hside
    · exact ⟨hside.1, hside.2.1.trans zero_lt_one⟩
    · exact ⟨by linarith [hside.1], hside.2.1⟩

end MultiplicativeCode

section Samples

variable {K : Type} [Scalar K]

/-- A modifier adds one effect to those of the other modifiers of a sample. -/
theorem SamplePlan.exists_compile_without {t : ParameterTable K} {o : Options K}
    {nominal : List K} {before after : List (Modifier K)} {m : Modifier K} {y : SampleYields K}
    (h : SamplePlan.compile ⟨nominal, before ++ m :: after⟩ t o = .ok y) :
    ∃ effect left right, m.effect t o = .ok effect ∧ y = ⟨nominal, left ++ effect :: right⟩ ∧
      SamplePlan.compile ⟨nominal, before ++ after⟩ t o = .ok ⟨nominal, left ++ right⟩ := by
  obtain ⟨effects, heffects, rfl⟩ := map_eq_ok_iff.mp h
  rw [List.mapM_append, bind_eq_ok_iff] at heffects
  obtain ⟨left, hleft, hrest⟩ := heffects
  obtain ⟨rest, hmodifiers, hjoin⟩ := bind_eq_ok_iff.mp hrest
  cases hjoin
  rw [List.mapM_cons, bind_eq_ok_iff] at hmodifiers
  obtain ⟨effect, heffect, hmodifiers⟩ := hmodifiers
  obtain ⟨right, hright, hjoin⟩ := bind_eq_ok_iff.mp hmodifiers
  cases hjoin
  refine ⟨effect, left, right, heffect, rfl, ?_⟩
  rw [SamplePlan.compile, List.mapM_append, hleft]
  dsimp only
  rw [hright]
  rfl

/-- A factor between two variations multiplies the yield of a sample in each bin. -/
theorem SampleYields.yieldAt_insert_vary [Scalar.Exact K] (nominal : List K)
    (left right : List (Effect K)) (slot : ℕ) (lo hi : K) (settled : MultiplicativeCode)
    (code : AdditiveCode) (p : ℕ → K) (bin : ℕ) :
    SampleYields.yieldAt ⟨nominal, left ++ .vary slot lo hi settled :: right⟩ code p bin =
      SampleYields.yieldAt ⟨nominal, left ++ right⟩ code p bin * settled.factor lo hi (p slot) := by
  have hlast (xs : List K) (x : K) : Scalar.product (xs ++ [x]) = Scalar.product xs * x := by
    rw [Scalar.product, List.foldl_append]
    rfl
  have hperm (xs ys : List K) (x : K) :
      Scalar.product (xs ++ x :: ys) = Scalar.product (xs ++ ys) * x := by
    rw [← hlast]
    exact Scalar.product_perm (List.perm_middle.trans (List.perm_append_singleton _ _).symm)
  unfold yieldAt
  dsimp only
  rw [List.filterMap_append, List.filterMap_append, List.filterMap_cons, List.filterMap_cons,
    List.filterMap_append, List.filterMap_append]
  simp only [Effect.shiftAt?, Effect.factorAt?]
  rw [hperm, Scalar.Exact.mul_assoc]

end Samples

/-- The factor of a normsys modifier with positive variations is positive exactly where the
polynomial does not sink, which takes variations of at least one under the polynomial code, of
which the far one has reached a limit above 41. A sample with a positive yield keeps it positive
under the modifier exactly there. -/
theorem normsys_positive_iff_not_sinks :
    ∃ limit : ℝ → ℝ → ℝ, (∀ near x, 1 ≤ near → 0 < x → x < 1 → 41 < limit near x) ∧
      (∀ (code : MultiplicativeCode) (lo hi : ℝ), 0 < lo → 0 < hi → ∀ α,
        (0 < code.interpolate lo hi α ↔ ¬ code.Sinks limit lo hi α)) ∧
      ∀ (t : ParameterTable ℝ) (o : Options ℝ) (nominal : List ℝ)
        (before after : List (Modifier ℝ)) (name : String) (lo hi : ℝ) (y : SampleYields ℝ),
        0 < lo → 0 < hi →
        SamplePlan.compile ⟨nominal, before ++ ⟨name, .normsys lo hi⟩ :: after⟩ t o = .ok y →
        ∃ slot y₀, t.firstSlot? name = some slot ∧
          SamplePlan.compile ⟨nominal, before ++ after⟩ t o = .ok y₀ ∧
          ∀ p bin, 0 < y₀.yieldAt o.additive p bin →
            (0 < y.yieldAt o.additive p bin ↔
              ¬ o.multiplicative.Sinks limit lo hi (p slot)) := by
  have hlimits : ∀ near x : ℝ, ∃ limit : ℝ, 1 ≤ near → 0 < x → x < 1 →
      41 < limit ∧ ∀ far, 0 < far → (0 < Quintic.beside near far x ↔ far < limit) := by
    intro near x
    by_cases hrange : 1 ≤ near ∧ 0 < x ∧ x < 1
    · obtain ⟨limit, hlimit⟩ := Quintic.exists_limit hrange.1 hrange.2.1 hrange.2.2
      exact ⟨limit, fun _ _ _ => hlimit⟩
    · exact ⟨0, fun hnear hx hx' => absurd ⟨hnear, hx, hx'⟩ hrange⟩
  choose limit hlimit using hlimits
  have hfactor : ∀ (code : MultiplicativeCode) (lo hi : ℝ), 0 < lo → 0 < hi → ∀ α,
      (0 < code.interpolate lo hi α ↔ ¬ code.Sinks limit lo hi α) := fun code lo hi hlo hhi =>
    MultiplicativeCode.interpolate_pos_iff_not_sinks
      (fun near x hnear hx hx' => (hlimit near x hnear hx hx').2) code hlo hhi
  refine ⟨limit, fun near x hnear hx hx' => (hlimit near x hnear hx hx').1, hfactor, ?_⟩
  intro t o nominal before after name lo hi y hlo hhi hy
  obtain ⟨effect, left, right, heffect, rfl, hwithout⟩ := SamplePlan.exists_compile_without hy
  unfold Modifier.effect at heffect
  cases hslot : t.firstSlot? name with
  | none =>
    rw [hslot] at heffect
    cases heffect
  | some slot =>
    rw [hslot] at heffect
    cases heffect
    refine ⟨slot, _, rfl, hwithout, fun p bin hpos => ?_⟩
    rw [SampleYields.yieldAt_insert_vary, mul_pos_iff_of_pos_left hpos]
    exact hfactor o.multiplicative lo hi hlo hhi (p slot)

/-- Beside a down variation of 2 an up variation of 41 has a positive factor under the polynomial
code, and a sample of a yield of 3 keeps it positive under them; beside a down variation of 1 an up
variation of 42 has a positive factor under the exponential code. -/
theorem positive_two_fortyOne :
    0 < MultiplicativeCode.code4.interpolate (2 : ℝ) 41 (-(1 / 10)) ∧
      0 < MultiplicativeCode.code1.interpolate (1 : ℝ) 42 (-(5 / 16)) ∧
      ∃ y, SamplePlan.compile ⟨[3], [⟨"rate", .normsys 2 41⟩]⟩ ⟨[], [("rate", 0)]⟩
          (Options.standard : Options ℝ) = .ok y ∧
        0 < y.yieldAt .code4p (fun _ => -(1 / 10)) 0 := by
  obtain ⟨limit, habove, hfactor, hyield⟩ := normsys_positive_iff_not_sinks
  have hsinks : ¬ MultiplicativeCode.code4.Sinks limit 2 41 (-(1 / 10)) := by
    intro h
    rcases h.2.2.2 with h | h
    · exact absurd h.2.2 (not_le.mpr (habove 2 _ (by norm_num) (by norm_num) (by norm_num)))
    · norm_num at h
  refine ⟨(hfactor .code4 2 41 (by norm_num) (by norm_num) _).mpr hsinks,
    (hfactor .code1 1 42 (by norm_num) (by norm_num) _).mpr fun h => ?_, _, rfl, ?_⟩
  · cases h.1
  · obtain ⟨slot, y₀, hslot, hcompile, hpositive⟩ := hyield ⟨[], [("rate", 0)]⟩ Options.standard
      [3] [] [] "rate" 2 41 _ (by norm_num) (by norm_num) rfl
    refine (hpositive (fun _ => -(1 / 10)) 0 ?_).mpr hsinks
    cases hcompile
    change (0 : ℝ) < (3 + 0) * 1
    norm_num

/-- Beside a down variation of one, an up variation of 42 sinks the factor below zero on the left of
zero, although both variations are positive. -/
theorem sinks_one_fortyTwo :
    (0 : ℝ) < 1 ∧ (0 : ℝ) < 42 ∧
      MultiplicativeCode.code4.interpolate (1 : ℝ) 42 (-(5 / 16)) < 0 := by
  refine ⟨by norm_num, by norm_num, ?_⟩
  have htwo := Real.log_two_gt_d9
  have hlower : ((97 : ℕ) : ℝ) * Real.log 2 ≤ (18 : ℕ) * Real.log 42 :=
    Quintic.le_log_of_le_pow (by norm_num)
  push_cast at hlower
  have hlog : 3.73 ≤ Real.log 42 := by linarith
  rw [MultiplicativeCode.interpolate_above_one le_rfl (by norm_num)
    (abs_le.mpr ⟨by norm_num, by norm_num⟩), Quintic.meeting_left, neg_neg, Quintic.beside,
    Quintic.pull_one, Quintic.pull, Quintic.share]
  push_cast
  nlinarith

end BinnedModel
