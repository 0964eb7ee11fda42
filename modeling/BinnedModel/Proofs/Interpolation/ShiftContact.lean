import Mathlib
import BinnedModel.Proofs.Interpolation.Contact
import BinnedModel.Proofs.Interpolation.ShiftPieces

/-!
# Knots and contact of shifts

Over the real numbers the shift of a bin takes the differences of its two variations from the
nominal yield as its values at `-1` and `1`, and zero at zero. It is continuous, and beyond the two
variations it is a straight line, the same under both codes. The polynomial of the smooth code meets
each of these lines smoothly: value, slope and curvature agree at the knot. If the nominal yield is
in the middle of the variations, the polynomial is a straight line itself. The shifts of a whole
histogram are those of its bins.
-/

namespace BinnedModel

namespace Quintic

/-- The derivative of the polynomial `Σ cₖ α ^ (k + 1)`. -/
theorem hasDerivAt_horner_mul (c : Quintic ℝ) (α : ℝ) :
    HasDerivAt (fun x => c.horner x * x) (c.slope α) α :=
  (hasDerivAt_const_add_iff 1).mp (hasDerivAt_meeting c α)

/-- The polynomial meets a line through the origin smoothly where it has the value and the slope of
this line, and no curvature. -/
theorem meetsSmoothly_line {c : Quintic ℝ} {m x : ℝ} (hvalue : c.horner x * x = x * m)
    (hslope : c.slope x = m) (hcurvature : c.curvature x = 0) :
    MeetsSmoothly (fun α => c.horner α * α) (fun α => α * m) x := by
  refine .of_hasDerivAt (hasDerivAt_horner_mul c) (fun _ => hasDerivAt_mul_const m) hvalue hslope
    (hasDerivAt_slope c x) ?_
  rw [hcurvature]
  exact hasDerivAt_const x m

end Quintic

namespace AdditiveCode

variable {lo nominal hi α : ℝ}

/-- At one the slope of the polynomial is the difference of the up variation, and it has no
curvature. -/
theorem derivatives_bridge_at_one (lo nominal hi : ℝ) :
    (bridge lo nominal hi).slope 1 = hi - nominal ∧ (bridge lo nominal hi).curvature 1 = 0 := by
  constructor
  · simp only [bridge, Quintic.slope, Scalar.ratio]
    push_cast
    ring
  · simp only [bridge, Quintic.curvature, Scalar.ratio]
    push_cast
    ring

/-- At minus one the slope of the polynomial is the difference of the down variation, upwards, and
it has no curvature. -/
theorem derivatives_bridge_at_neg_one (lo nominal hi : ℝ) :
    (bridge lo nominal hi).slope (-1) = nominal - lo ∧
      (bridge lo nominal hi).curvature (-1) = 0 := by
  constructor
  · simp only [bridge, Quintic.slope, Scalar.ratio]
    push_cast
    ring
  · simp only [bridge, Quintic.curvature, Scalar.ratio]
    push_cast
    ring

/-- The polynomial meets the line of the up variation smoothly at one. -/
theorem bridge_meets_at_one (lo nominal hi : ℝ) :
    MeetsSmoothly (fun α => (bridge lo nominal hi).horner α * α)
      (fun α => α * (hi - nominal)) 1 := by
  obtain ⟨hslope, hcurvature⟩ := derivatives_bridge_at_one lo nominal hi
  refine Quintic.meetsSmoothly_line ?_ hslope hcurvature
  rw [bridge_at_one, one_mul]

/-- The polynomial meets the line of the down variation smoothly at minus one. -/
theorem bridge_meets_at_neg_one (lo nominal hi : ℝ) :
    MeetsSmoothly (fun α => (bridge lo nominal hi).horner α * α)
      (fun α => α * (nominal - lo)) (-1) := by
  obtain ⟨hslope, hcurvature⟩ := derivatives_bridge_at_neg_one lo nominal hi
  refine Quintic.meetsSmoothly_line ?_ hslope hcurvature
  rw [bridge_at_neg_one, neg_one_mul, neg_sub]

/-- Outside of the variations the shift is a straight line under each code. -/
theorem shift_of_one_le_abs (code : AdditiveCode) (h : 1 ≤ |α|) :
    code.shift lo nominal hi α = linear lo nominal hi α := by
  cases code with
  | code0 => rfl
  | code4p => exact smooth_of_one_le_abs h

/-- If the nominal yield is in the middle of the variations, the smooth code is a straight line
everywhere. -/
theorem smooth_of_symmetric (h : hi - nominal = nominal - lo) :
    smooth lo nominal hi = linear lo nominal hi := by
  funext α
  rcases le_total 1 |α| with hα | hα
  · exact smooth_of_one_le_abs hα
  · have hline : linear lo nominal hi α = α * (nominal - lo) := by
      rcases le_total 0 α with hsign | hsign
      · rw [linear_of_nonneg hsign, h]
      · exact linear_of_nonpos hsign
    rw [smooth_of_abs_le_one hα, hline]
    simp only [bridge, h, Quintic.horner, Scalar.ratio]
    push_cast
    ring

/-- Straight lines through the knots are continuous. -/
theorem continuous_linear (lo nominal hi : ℝ) : Continuous (linear lo nominal hi) := by
  refine Continuous.if_le (by fun_prop) (by fun_prop) continuous_const continuous_id ?_
  intro α hα
  simp [← hα]

/-- The polynomial and the straight lines outside are continuous, also where they are joined. -/
theorem continuous_smooth (lo nominal hi : ℝ) : Continuous (smooth lo nominal hi) := by
  have hinner : Continuous fun α => (bridge lo nominal hi).horner α * α :=
    continuous_iff_continuousAt.mpr fun α => (Quintic.hasDerivAt_horner_mul _ α).continuousAt
  exact continuous_of_pieces (continuous_linear lo nominal hi) hinner
    (fun α hα => smooth_of_one_le_abs hα) fun α hα => smooth_of_abs_le_one hα

/-- A shift is continuous under each code. -/
theorem continuous_shift (code : AdditiveCode) (lo nominal hi : ℝ) :
    Continuous (code.shift lo nominal hi) := by
  cases code with
  | code0 => exact continuous_linear lo nominal hi
  | code4p => exact continuous_smooth lo nominal hi

/-- A curve leads from one variation of a nominal yield to the other: it takes the differences from
the nominal yield as its values at the knots, is continuous, and goes on beyond the outer knots
along the lines from the origin through them. -/
structure Connects (f : ℝ → ℝ) (lo nominal hi : ℝ) : Prop where
  /-- The value at minus one leads to the down variation. -/
  down : f (-1) = lo - nominal
  /-- The value at zero leaves the nominal yield. -/
  neutral : f 0 = 0
  /-- The value at one leads to the up variation. -/
  up : f 1 = hi - nominal
  /-- There are no jumps. -/
  continuous : Continuous f
  /-- Beyond the up variation the curve is a line. -/
  right : ∀ α, 1 ≤ α → f α = α * (hi - nominal)
  /-- Beyond the down variation the curve is a line. -/
  left : ∀ α, α ≤ -1 → f α = α * (nominal - lo)

/-- The shift of a bin connects its two variations. -/
theorem shift_connects (code : AdditiveCode) (lo nominal hi : ℝ) :
    Connects (code.shift lo nominal hi) lo nominal hi := by
  have hright : ∀ α, 1 ≤ α → code.shift lo nominal hi α = α * (hi - nominal) := by
    intro α hα
    rw [shift_of_one_le_abs code (le_abs.mpr (.inl hα)), linear_of_nonneg (zero_le_one.trans hα)]
  have hleft : ∀ α, α ≤ -1 → code.shift lo nominal hi α = α * (nominal - lo) := by
    intro α hα
    rw [shift_of_one_le_abs code (le_abs.mpr (.inr (le_neg_of_le_neg hα))),
      linear_of_nonpos (by linarith)]
  refine ⟨?_, code.shift_zero lo nominal hi, ?_, code.continuous_shift lo nominal hi, hright, hleft⟩
  · rw [hleft (-1) le_rfl, neg_one_mul, neg_sub]
  · rw [hright 1 le_rfl, one_mul]

/-- The shift of a bin is made from the yields of this bin. -/
theorem getElem?_shifts (code : AdditiveCode) {los nominals his : List ℝ} {k : ℕ}
    (hlo : los[k]? = some lo) (hnominal : nominals[k]? = some nominal) (hhi : his[k]? = some hi)
    (α : ℝ) : (code.shifts los nominals his α)[k]? = some (code.shift lo nominal hi α) := by
  have hpair : (los.zip his)[k]? = some (lo, hi) := List.getElem?_zip_eq_some.mpr ⟨hlo, hhi⟩
  rw [shifts, List.getElem?_zipWith, hnominal, hpair]

/-- Three histograms of one length have one shift per bin, under each code. In each bin the shift
connects the two variations, the polynomial of the smooth code is the shift between them, and this
polynomial meets the lines outside smoothly at both knots. The two codes have the same shifts
outside of the variations, and the same shift at every parameter in a bin whose nominal yield is in
the middle of its variations. -/
theorem shifts_knots_and_contact (code : AdditiveCode) {los nominals his : List ℝ}
    (hlos : los.length = nominals.length) (hhis : his.length = nominals.length) :
    (∀ α, (code.shifts los nominals his α).length = nominals.length) ∧
    (∀ α, 1 ≤ |α| → code0.shifts los nominals his α = code4p.shifts los nominals his α) ∧
    ∀ (k : ℕ) (hk : k < nominals.length),
      (∀ α, (code.shifts los nominals his α)[k]? =
        some (code.shift los[k] nominals[k] his[k] α)) ∧
      Connects (code.shift los[k] nominals[k] his[k]) los[k] nominals[k] his[k] ∧
      (∀ α, |α| ≤ 1 → code4p.shift los[k] nominals[k] his[k] α =
        (bridge los[k] nominals[k] his[k]).horner α * α) ∧
      MeetsSmoothly (fun α => (bridge los[k] nominals[k] his[k]).horner α * α)
        (fun α => α * (his[k] - nominals[k])) 1 ∧
      MeetsSmoothly (fun α => (bridge los[k] nominals[k] his[k]).horner α * α)
        (fun α => α * (nominals[k] - los[k])) (-1) ∧
      (his[k] - nominals[k] = nominals[k] - los[k] → ∀ α,
        code0.shift los[k] nominals[k] his[k] α = code4p.shift los[k] nominals[k] his[k] α) := by
  refine ⟨fun α => ?_, fun α hα => ?_, fun k hk => ⟨fun α => ?_, shift_connects code _ _ _,
    fun α hα => smooth_of_abs_le_one hα, bridge_meets_at_one _ _ _, bridge_meets_at_neg_one _ _ _,
    fun hmiddle α => ?_⟩⟩
  · rw [shifts, List.length_zipWith, List.length_zip, hlos, hhis, min_self, min_self]
  · have hsame : ∀ lo nominal hi : ℝ, code0.shift lo nominal hi α = code4p.shift lo nominal hi α :=
      fun lo nominal hi => by rw [shift_of_one_le_abs code0 hα, shift_of_one_le_abs code4p hα]
    simp only [shifts, hsame]
  · exact code.getElem?_shifts (List.getElem?_eq_getElem (hlos.symm ▸ hk))
      (List.getElem?_eq_getElem hk) (List.getElem?_eq_getElem (hhis.symm ▸ hk)) α
  · exact (congrFun (smooth_of_symmetric hmiddle) α).symm

/-- Two bins of ten and seven, between eight and thirteen and between five and nine: at parameter
two the first one is shifted along its upper line, which its polynomial meets smoothly, and in the
second one, whose nominal yield is in the middle, both codes agree everywhere. -/
theorem connects_twoBins :
    (code4p.shifts [8, 5] [10, 7] [13, 9] (2 : ℝ)).length = 2 ∧
      (code4p.shifts [8, 5] [10, 7] [13, 9] (2 : ℝ))[0]? = some 6 ∧
      MeetsSmoothly (fun α => (bridge 8 10 13).horner α * α) (fun α => α * (13 - 10)) 1 ∧
      ∀ α : ℝ, code0.shift 5 7 9 α = code4p.shift 5 7 9 α := by
  have hlos : ([8, 5] : List ℝ).length = ([10, 7] : List ℝ).length := rfl
  have hhis : ([13, 9] : List ℝ).length = ([10, 7] : List ℝ).length := rfl
  obtain ⟨hlength, -, hbins⟩ := shifts_knots_and_contact code4p hlos hhis
  obtain ⟨hfirst, hconnects, -, hsmooth, -⟩ := hbins 0 (by decide)
  obtain ⟨-, -, -, -, -, hmiddle⟩ := hbins 1 (by decide)
  refine ⟨hlength 2, ?_, hsmooth, hmiddle (by norm_num)⟩
  rw [hfirst 2, hconnects.right 2 (by norm_num)]
  norm_num

end AdditiveCode

end BinnedModel
