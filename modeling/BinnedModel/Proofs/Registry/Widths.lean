import Mathlib
import BinnedModel.Proofs.Model.OrderInvariance
import BinnedModel.Proofs.Model.StartingPoint
import BinnedModel.Proofs.Registry.Replay
import BinnedModel.Proofs.Registry.Sums

/-!
# Widths from the history of a registry

The width of the Gaussian of a factor per bin is made from two sums of an entry, which grow
during the whole life of the registry. They start when the first registration of the name comes,
and in between other names are registered, from other channels. This module ties the prior of a
bin to the calls that have been made: over the real numbers it depends on nothing but the sum of
the nominal yields and the sum of the squared uncertainties that the calls of this name have
given for this bin.
-/

namespace BinnedModel

/-- Two lists of one length are added item by item, also where both have ended. -/
theorem getD_zipWith_add {s l : List ℝ} (h : s.length = l.length) (k : ℕ) :
    (List.zipWith (· + ·) s l).getD k 0 = s.getD k 0 + l.getD k 0 := by
  induction s generalizing l k with
  | nil =>
    obtain rfl : l = [] := List.length_eq_zero_iff.mp h.symm
    simp
  | cons x s ih =>
    cases l with
    | nil => cases h
    | cons y l =>
      cases k with
      | zero => rfl
      | succ k => exact ih (Nat.succ.inj h) k

namespace Entry

/-- The sums that an entry starts with count as zeros in every bin, so in each bin the summand is
added to what was there. -/
theorem getD_addTo {s l : List ℝ} (h : s = [] ∨ s.length = l.length) (k : ℕ) :
    (addTo s l).getD k 0 = s.getD k 0 + l.getD k 0 := by
  rcases h with rfl | h
  · have hzeros : (l.map fun _ => (0 : ℝ)).getD k 0 = 0 :=
      List.getD_map (l := l) (d := 0) fun _ => 0
    have hlength : (l.map fun _ => (0 : ℝ)).length = l.length := List.length_map _
    have hadd := getD_zipWith_add hlength k
    rw [hzeros] at hadd
    exact hadd
  · unfold addTo
    cases s with
    | nil =>
      obtain rfl : l = [] := List.length_eq_zero_iff.mp h.symm
      simp
    | cons x s => exact getD_zipWith_add h k

/-- Sums have the length of their summands from the first one on. -/
theorem length_addTo {K : Type} [Scalar K] {s l : List K} (h : s = [] ∨ s.length = l.length) :
    (addTo s l).length = l.length := by
  unfold addTo
  rw [List.length_zipWith]
  split
  · rw [List.length_map, min_self]
  · next hne =>
    rcases h with rfl | h
    · exact absurd rfl hne
    · rw [h, min_self]

/-- Summands of one length are added up in each bin. -/
theorem getD_foldl_addTo {ls : List (List ℝ)} {n : ℕ} (hls : ∀ l ∈ ls, l.length = n)
    {s : List ℝ} (hs : s = [] ∨ s.length = n) (k : ℕ) :
    (ls.foldl addTo s).getD k 0 = s.getD k 0 + (ls.map fun l => l.getD k 0).sum := by
  induction ls generalizing s with
  | nil => simp
  | cons l ls ih =>
    have hl : l.length = n := hls l List.mem_cons_self
    have hsl : s = [] ∨ s.length = l.length := hl.symm ▸ hs
    have hnext : (addTo s l).length = n := (length_addTo hsl).trans hl
    rw [List.foldl_cons, ih (fun l' hl' => hls l' (List.mem_cons_of_mem l hl')) (.inr hnext),
      getD_addTo hsl, List.map_cons, List.sum_cons, add_assoc]

/-- Both sums grow side by side. -/
theorem foldl_addBoth {K : Type} [Scalar K] (ss : List (List K × List K))
    (sums : List K × List K) :
    ss.foldl addBoth sums =
      ((ss.map Prod.fst).foldl addTo sums.1, (ss.map Prod.snd).foldl addTo sums.2) := by
  induction ss generalizing sums with
  | nil => rfl
  | cons s ss ih => exact ih (addBoth sums s)

/-- In each bin the sums of the entry of a group are those of the summands of the group. -/
theorem getD_sums_of_ofGroup {xs : List (Registration ℝ)} {e : Entry ℝ}
    (he : ofGroup xs = some e) {n : ℕ}
    (hlength : ∀ s ∈ xs.filterMap Registration.summands?, s.1.length = n ∧ s.2.length = n)
    (k : ℕ) :
    e.nominal.getD k 0 =
        ((xs.filterMap Registration.summands?).map fun s => s.1.getD k 0).sum ∧
      e.variance.getD k 0 =
        ((xs.filterMap Registration.summands?).map fun s => s.2.getD k 0).sum := by
  have hsums := sums_of_ofGroup he
  rw [foldl_addBoth] at hsums
  obtain ⟨hnominal, hvariance⟩ := Prod.mk.inj hsums
  rw [hnominal, hvariance]
  constructor
  · rw [getD_foldl_addTo (List.forall_mem_map.mpr fun s hs => (hlength s hs).1) (.inl rfl),
      List.map_map, List.getD_nil, zero_add]
    rfl
  · rw [getD_foldl_addTo (List.forall_mem_map.mpr fun s hs => (hlength s hs).2) (.inl rfl),
      List.map_map, List.getD_nil, zero_add]
    rfl

end Entry

namespace Entry

variable {e : Entry ℝ} {k : ℕ}

/-- A factor has a width where both of its sums are positive, and there it is the root of the one
over the other. -/
theorem relativeWidth_pos_iff :
    0 < e.relativeWidth k ↔ 0 < e.nominal.getD k 0 ∧ 0 < e.variance.getD k 0 := by
  unfold relativeWidth
  dsimp only
  by_cases hnominal : 0 < e.nominal.getD k 0
  · rw [if_pos hnominal]
    calc 0 < Real.sqrt (e.variance.getD k 0) / e.nominal.getD k 0
        ↔ 0 < Real.sqrt (e.variance.getD k 0) := div_pos_iff_of_pos_right hnominal
      _ ↔ 0 < e.variance.getD k 0 := Real.sqrt_pos
      _ ↔ 0 < e.nominal.getD k 0 ∧ 0 < e.variance.getD k 0 := (and_iff_right hnominal).symm
  · rw [if_neg hnominal]
    exact iff_of_false (lt_irrefl (0 : ℝ)) fun h => hnominal h.1

/-- A factor per bin that the settings do not pin has a parameter. Its prior is Gaussian around one
where both sums are positive, and a single point elsewhere. -/
theorem exists_factor (hkind : e.kind = .shapesys ∨ e.kind = .staterror)
    {settings : Option (ParameterConfig ℝ)} (hfree : ∀ s, settings = some s → s.fixed = false)
    (o : Options ℝ) (k : ℕ) :
    ∃ p, e.parameter settings o k = .ok p ∧
      (0 < e.nominal.getD k 0 ∧ 0 < e.variance.getD k 0 →
        p.prior = .normal 1 (Real.sqrt (e.variance.getD k 0) / e.nominal.getD k 0)) ∧
      (¬ (0 < e.nominal.getD k 0 ∧ 0 < e.variance.getD k 0) → p.prior = .flat 1 1) := by
  have hunpinned : pinnedBy settings = false := by
    cases settings with
    | none => rfl
    | some s => exact hfree s rfl
  obtain ⟨prior, hprior⟩ := exists_factorPrior (e.relativeWidth k)
  have hfactor : e.prior settings o k = .ok prior := by
    unfold Entry.prior
    rcases hkind with hkind | hkind
    · rw [hkind]
      exact hprior
    · rw [hkind]
      exact hprior
  refine ⟨_, parameter_eq_ok_iff.mpr ⟨prior, hfactor, .inr ⟨hunpinned, rfl⟩⟩, fun hpos => ?_,
    fun hnot => ?_⟩
  · have hwidth : e.relativeWidth k =
        Real.sqrt (e.variance.getD k 0) / e.nominal.getD k 0 := if_pos hpos.1
    rw [if_pos ⟨relativeWidth_pos_iff.mpr hpos, rfl⟩, hwidth] at hprior
    exact Prior.eq_normal_of_mkNormal hprior
  · rw [if_neg fun hwidth => hnot (relativeWidth_pos_iff.mp hwidth.1)] at hprior
    exact Prior.eq_flat_of_mkFlat hprior

end Entry

section Calls

variable {K : Type} [Scalar K] {config : Option (MeasurementConfig K)}

/-- What a call enters under the given settings: what its declaration says, with its nominal
yields. -/
structure Call.Enters (config : Option (MeasurementConfig K)) (c : Call K)
    (x : Registration K) : Prop where
  /-- The modifier is what the declaration says. -/
  stated : c.declaration.Says config c.nominal.length x.modifier
  /-- The nominal yields are those of the call. -/
  nominal : x.nominal = c.nominal

/-- The calls that have been accepted, given the outcomes of all calls. -/
def Call.accepted (calls : List (Call K)) (outcomes : List (Except (Fault K) Unit)) :
    List (Call K) :=
  ((calls.zip outcomes).filter fun x => x.2.isOk).map (·.1)

/-- Calls enter one registration for each of them that is accepted, which is admitted after those
before it; a refused call leaves no trace. -/
theorem Request.exists_registrations_of_accepted {calls : List (Call K)} {r r' : Registry K}
    {outcomes : List (Except (Fault K) Unit)}
    (h : enterAll (calls.map .register) r = (outcomes, r')) :
    ∃ xs, List.Forall₂ (Call.Enters r.config) (Call.accepted calls outcomes) xs ∧
      r.AdmitsAll xs ∧ r' = r.enterAll xs := by
  induction calls generalizing r outcomes with
  | nil =>
    obtain ⟨rfl, rfl⟩ := Prod.mk.inj h
    exact ⟨[], .nil, trivial, rfl⟩
  | cons c calls ih =>
    rw [List.map_cons, enterAll, enter] at h
    cases hcall : r.register c.declaration c.nominal c.offset c.channel c.sample with
    | error f =>
      rw [hcall] at h
      obtain ⟨rfl, hrest⟩ := Prod.mk.inj h
      exact ih (Prod.ext rfl hrest)
    | ok mr =>
      obtain ⟨m, r₁⟩ := mr
      obtain ⟨hstated, hadmits, rfl⟩ := Registry.register_eq_ok_iff.mp hcall
      rw [hcall] at h
      obtain ⟨rfl, hrest⟩ := Prod.mk.inj h
      obtain ⟨xs, hxs, hall, rfl⟩ := ih (Prod.ext rfl hrest)
      exact ⟨⟨m, c.nominal, c.offset⟩ :: xs, .cons ⟨hstated, rfl⟩ hxs, ⟨hadmits, hall⟩, rfl⟩

omit [Scalar K] in
/-- If all calls succeed, all of them are accepted. -/
theorem Call.accepted_replicate (calls : List (Call K)) :
    accepted calls (List.replicate calls.length (.ok ())) = calls := by
  induction calls with
  | nil => rfl
  | cons c calls ih => exact congrArg (c :: ·) ih

/-- Calls that all succeed enter one registration each, each of which is admitted after those
before it. -/
theorem Request.exists_registrations {calls : List (Call K)} {r r' : Registry K}
    (h : enterAll (calls.map .register) r = (List.replicate calls.length (.ok ()), r')) :
    ∃ xs, List.Forall₂ (Call.Enters r.config) calls xs ∧ r.AdmitsAll xs ∧
      r' = r.enterAll xs := by
  obtain ⟨xs, hxs, hadmits, hentered⟩ := exists_registrations_of_accepted h
  rw [Call.accepted_replicate] at hxs
  exact ⟨xs, hxs, hadmits, hentered⟩

/-- The calls of one name among others. -/
def Call.named (n : String) (calls : List (Call K)) : List (Call K) :=
  calls.filter fun c => c.declaration.name == n

omit [Scalar K] in
/-- The calls of a name are those of the others that have it. -/
theorem Call.mem_named_iff {n : String} {calls : List (Call K)} {c : Call K} :
    c ∈ named n calls ↔ c ∈ calls ∧ c.declaration.name = n := by
  rw [named, List.mem_filter, beq_iff_eq]

/-- The calls of a name enter the registrations of this name. -/
theorem Call.forall₂_named {calls : List (Call K)} {xs : List (Registration K)}
    (h : List.Forall₂ (Call.Enters config) calls xs) (n : String) :
    List.Forall₂ (Call.Enters config) (named n calls) (Registration.named n xs) := by
  refine List.rel_filter (fun c x hx => ?_) h
  dsimp only
  rw [hx.stated.name]

/-- The uncertainties that a call declares, if its data is a list of numbers. -/
def Call.uncertainties? (c : Call K) : Option (List K) :=
  c.declaration.data.scalars?

/-- A call for a factor per bin declares one uncertainty for each bin of its sample, and adds its
nominal yields and the squares of these uncertainties. -/
theorem Call.Enters.summands {c : Call K} {x : Registration K} (h : c.Enters config x)
    (hkind : x.modifier.kind = .shapesys ∨ x.modifier.kind = .staterror) :
    ∃ delta, c.uncertainties? = some delta ∧ delta.length = c.nominal.length ∧
      x.summands? = some (c.nominal, delta.map fun d => d * d) := by
  obtain ⟨m, hread, hfits, hm⟩ := h.stated
  obtain ⟨-, kind, -, hpayload⟩ := Modifier.ofDeclaration_eq_ok_iff.mp hread
  have hmkind : kind = x.modifier.kind := by
    rw [hm, Modifier.withWidth_kind]
    exact (Payload.kind_of_ofJson? hpayload).symm
  have hdata : ∃ delta, c.uncertainties? = some delta ∧
      m.payload.uncertainties? = some delta := by
    rw [hmkind] at hpayload
    rcases hkind with hkind | hkind
    · rw [hkind] at hpayload
      obtain ⟨delta, hdelta, hm⟩ := Option.map_eq_some_iff.mp hpayload
      exact ⟨delta, hdelta, by rw [← hm]; rfl⟩
    · rw [hkind] at hpayload
      obtain ⟨delta, hdelta, hm⟩ := Option.map_eq_some_iff.mp hpayload
      exact ⟨delta, hdelta, by rw [← hm]; rfl⟩
  obtain ⟨delta, hdelta, hpayload'⟩ := hdata
  have hmem := (Payload.mem_histograms_of_uncertainties? hpayload').1
  refine ⟨delta, hdelta, hfits delta hmem, ?_⟩
  rw [Registration.summands?, hm, Modifier.withWidth_uncertainties?, hpayload', h.nominal]
  rfl

end Calls

namespace Call

/-- The uncertainty that a call declares for a bin. -/
noncomputable def uncertainty (c : Call ℝ) (k : ℕ) : ℝ :=
  (c.uncertainties?.getD []).getD k 0

/-- The nominal yields that the calls of a name give for a bin, summed up. -/
noncomputable def nominalSum (n : String) (k : ℕ) (calls : List (Call ℝ)) : ℝ :=
  ((named n calls).map fun c => c.nominal.getD k 0).sum

/-- The squared uncertainties that the calls of a name declare for a bin, summed up. -/
noncomputable def varianceSum (n : String) (k : ℕ) (calls : List (Call ℝ)) : ℝ :=
  ((named n calls).map fun c => c.uncertainty k ^ 2).sum

end Call

/-- The summands of registrations that are entered by calls for factors per bin add up to the sums
of the calls. -/
theorem Call.sum_summands {calls : List (Call ℝ)} {xs : List (Registration ℝ)}
    (h : List.Forall₂ (fun c x => ∃ delta, c.uncertainties? = some delta ∧
      x.summands? = some (c.nominal, delta.map fun d => d * d)) calls xs) (k : ℕ) :
    ((xs.filterMap Registration.summands?).map fun s => s.1.getD k 0).sum =
        (calls.map fun c => c.nominal.getD k 0).sum ∧
      ((xs.filterMap Registration.summands?).map fun s => s.2.getD k 0).sum =
        (calls.map fun c => c.uncertainty k ^ 2).sum := by
  induction h with
  | nil => exact ⟨rfl, rfl⟩
  | @cons c x calls xs hcx _ ih =>
    obtain ⟨delta, hdelta, hsummands⟩ := hcx
    have hsquare : (delta.map fun d => d * d).getD k 0 = c.uncertainty k ^ 2 := by
      have hzero := List.getD_map (l := delta) (d := (0 : ℝ)) (n := k) fun d => d * d
      rw [zero_mul] at hzero
      rw [hzero, uncertainty, hdelta, Option.getD_some, sq]
    rw [List.filterMap_cons_some hsummands]
    simp only [List.map_cons, List.sum_cons, hsquare, ih]
    exact ⟨trivial, trivial⟩

/-- Factors with uncertainties have a parameter per bin. -/
theorem Registration.isPerBin_of_factor {K : Type} {x : Registration K}
    (h : x.modifier.kind = .shapesys ∨ x.modifier.kind = .staterror) :
    x.modifier.kind.isPerBin = true := by
  rcases h with h | h <;> rw [h] <;> rfl

/-- The calls of a name declare an uncertainty for each bin, and the sums of the entry of this name
are those of the calls. -/
theorem Entry.sums_of_history {config : Option (MeasurementConfig ℝ)} {calls : List (Call ℝ)}
    {xs : List (Registration ℝ)} (hcalls : List.Forall₂ (Call.Enters config) calls xs)
    (hagree : ∀ x ∈ xs, ∀ y ∈ xs, x.Agrees y) {x : Registration ℝ} (hx : x ∈ xs)
    (hkind : x.modifier.kind = .shapesys ∨ x.modifier.kind = .staterror) {e : Entry ℝ}
    (he : Entry.ofGroup (Registration.named x.modifier.name xs) = some e) :
    (∀ c ∈ Call.named x.modifier.name calls, ∃ delta, c.uncertainties? = some delta ∧
        delta.length = x.nominal.length ∧ c.nominal.length = x.nominal.length) ∧
      ∀ k, e.nominal.getD k 0 = Call.nominalSum x.modifier.name k calls ∧
        e.variance.getD k 0 = Call.varianceSum x.modifier.name k calls := by
  have hper := Registration.isPerBin_of_factor hkind
  have hgroup : List.Forall₂ (fun (c : Call ℝ) (y : Registration ℝ) =>
      ∃ delta, c.uncertainties? = some delta ∧ delta.length = x.nominal.length ∧
        c.nominal.length = x.nominal.length ∧
        y.summands? = some (c.nominal, delta.map fun d => d * d))
      (Call.named x.modifier.name calls) (Registration.named x.modifier.name xs) := by
    have hnamed := Call.forall₂_named hcalls x.modifier.name
    refine (forall₂_imp_of_mem hnamed.flip fun y hy c hcy => ?_).flip
    obtain ⟨hyxs, hname⟩ := Registration.mem_named_iff.mp hy
    obtain ⟨hsame, hbins⟩ := hagree y hyxs x hx hname
    have hlength : c.nominal.length = x.nominal.length :=
      hcy.nominal ▸ hbins (hsame.symm ▸ hper)
    obtain ⟨delta, hdelta, hwidth, hsummands⟩ := hcy.summands (hsame.symm ▸ hkind)
    exact ⟨delta, hdelta, hwidth.trans hlength, hlength, hsummands⟩
  have hfits : ∀ y ∈ xs, y.modifier.Fits y.nominal.length := by
    intro y hy
    obtain ⟨c, -, hcy⟩ := exists_mem_of_forall₂_right hcalls hy
    rw [hcy.nominal]
    exact hcy.stated.fits
  constructor
  · intro c hc
    obtain ⟨y, -, delta, hdelta, hwidth, hlength, -⟩ := exists_mem_of_forall₂_left hgroup hc
    exact ⟨delta, hdelta, hwidth, hlength⟩
  · intro k
    have hsums := Entry.getD_sums_of_ofGroup he
      (fun s hs => Entry.length_of_mem_summands hagree hfits hx hs) k
    obtain ⟨hnominal, hvariance⟩ := Call.sum_summands (hgroup.imp fun c y hcy => by
      obtain ⟨delta, hdelta, -, -, hsummands⟩ := hcy
      exact ⟨delta, hdelta, hsummands⟩) k
    exact ⟨hsums.1.trans hnominal, hsums.2.trans hvariance⟩

/-- Whatever calls have been made of a registry that starts without entries, if all of them have
succeeded, a factor per bin that the settings do not pin has a parameter for each of its bins under
all options, and each table of the registry holds it behind the first slot of the name. The prior of
the parameter is Gaussian around one, with the root of the summed squares of the uncertainties over
the sum of the nominal yields as its width, if both sums are positive, and it is the single point
one otherwise. Both sums are over all calls of exactly this name, each of which gives a nominal
yield and an uncertainty for each bin. -/
theorem Registry.prior_of_history {config : Option (MeasurementConfig ℝ)}
    {calls : List (Call ℝ)} {r : Registry ℝ}
    (hcalls : Request.enterAll (calls.map .register) (empty config) =
      (List.replicate calls.length (.ok ()), r))
    {n : String} {c : Call ℝ} (hc : c ∈ Call.named n calls)
    (htype : c.declaration.type = "shapesys" ∨ c.declaration.type = "staterror")
    (hfree : ∀ s, (config.bind fun m => m.parameter? n) = some s → s.fixed = false)
    {k : ℕ} (hk : k < c.nominal.length) (o : Options ℝ) :
    (∀ c' ∈ Call.named n calls, ∃ delta, c'.uncertainties? = some delta ∧
        delta.length = c.nominal.length ∧ c'.nominal.length = c.nominal.length) ∧
      ∃ e p, entry? r n = some e ∧ e.parameter (r.settings? n) o k = .ok p ∧
        (∀ t, r.table o = .ok t → ∃ start, t.firstSlot? n = some start ∧
          t.parameters[start + k]? = some p) ∧
        p.modifier = n ∧ p.name = n ++ "[" ++ toString k ++ "]" ∧
        (0 < Call.nominalSum n k calls ∧ 0 < Call.varianceSum n k calls →
          p.prior =
            .normal 1 (Real.sqrt (Call.varianceSum n k calls) / Call.nominalSum n k calls)) ∧
        (¬ (0 < Call.nominalSum n k calls ∧ 0 < Call.varianceSum n k calls) →
          p.prior = .flat 1 1) := by
  obtain ⟨hmem, hname⟩ := Call.mem_named_iff.mp hc
  obtain ⟨xs, hxs, hadmits, rfl⟩ := Request.exists_registrations hcalls
  have hagree := Registry.admitsAll_empty_iff.mp hadmits
  obtain ⟨x, hx, hcx⟩ := exists_mem_of_forall₂_left hxs hmem
  obtain rfl : x.modifier.name = n := hcx.stated.name.trans hname
  have hkind : x.modifier.kind = .shapesys ∨ x.modifier.kind = .staterror := by
    have hstated := hcx.stated.kind
    rcases htype with htype | htype
    · rw [htype] at hstated
      exact .inl (Option.some.inj hstated).symm
    · rw [htype] at hstated
      exact .inr (Option.some.inj hstated).symm
  have hper := Registration.isPerBin_of_factor hkind
  obtain ⟨e, he⟩ := Entry.exists_ofGroup hx
  obtain ⟨hename, hekind, heslots⟩ := Entry.spec_of_ofGroup hagree hx he
  obtain ⟨hdeclared, hsums⟩ := Entry.sums_of_history hxs hagree hx hkind he
  obtain ⟨hnominal, hvariance⟩ := hsums k
  have hentry : entry? ((empty config).enterAll xs) x.modifier.name = some e := by
    rw [entry?_enterAll_empty]
    exact he
  have hslot : k < e.slots := by
    rw [heslots, Registration.slots, if_pos hper, hcx.nominal]
    exact hk
  have hsettings : ((empty config).enterAll xs).settings? x.modifier.name =
      config.bind fun m => m.parameter? x.modifier.name := by
    rw [settings?, enterAll_config]
    rfl
  obtain ⟨p, hparameter, hpositive, hpoint⟩ :=
    Entry.exists_factor (hekind ▸ hkind) (hsettings ▸ hfree) o k
  obtain ⟨hlabel, hmodifier, -, -⟩ := Entry.parameter_label hparameter
  rw [← hnominal, ← hvariance, ← hcx.nominal]
  refine ⟨hdeclared, e, p, hentry, hparameter, fun t htable => ?_, hmodifier.trans hename, ?_,
    hpositive, hpoint⟩
  · have hnodup := nodup_names_enterAll (r := empty config) List.nodup_nil xs
    obtain ⟨before, block, after, hsplits⟩ :=
      exists_splits hnodup htable (List.mem_of_find?_eq_some hentry)
    have hlt : before.length + k < t.parameters.length := by
      have hle := hsplits.start_add_slots_le
      omega
    have hp := List.getElem?_eq_getElem hlt
    have hsame := hsplits.parameter_eq hslot hp
    rw [hename, hparameter, Except.ok.injEq] at hsame
    exact ⟨before.length, hename ▸ hsplits.start, hsame ▸ hp⟩
  · rw [hlabel, Entry.slotName, hekind, if_pos hper, hename]

/-- Statistical factors that a sample of each of two regions has, with a free factor between
them. -/
noncomputable def Call.sharedCounts : List (Call ℝ) :=
  let reals (xs : List ℕ) : List ℝ := xs.map Nat.cast
  [⟨.staterror "counts" (reals [1, 3]), reals [3, 5], 0, "signal region", "signal"⟩,
    ⟨.normfactor "mu", reals [40, 50], 0, "signal region", "background"⟩,
    ⟨.staterror "counts" (reals [4, 5]), reals [40, 50], 2, "control region", "background"⟩]

/-- In the second bin the shared factor has a width from both of its samples. -/
theorem Registry.width_of_sharedCounts :
    ∃ (r : Registry ℝ) (t : ParameterTable ℝ) (start : ℕ) (p : Parameter ℝ),
      Request.enterAll (Call.sharedCounts.map .register) (empty none) =
        (List.replicate 3 (.ok ()), r) ∧
      r.table Options.standard = .ok t ∧ t.firstSlot? "counts" = some start ∧
      t.parameters[start + 1]? = some p ∧ p.name = "counts" ++ "[" ++ toString 1 ++ "]" ∧
      p.prior = .normal 1 (Real.sqrt 34 / 55) := by
  have hcalls : Request.enterAll (Call.sharedCounts.map .register) (empty none) =
      (List.replicate Call.sharedCounts.length (.ok ()),
        (Request.enterAll (Call.sharedCounts.map .register) (empty none)).2) := rfl
  generalize (Request.enterAll (Call.sharedCounts.map .register) (empty none)).2 = r at hcalls
  have hunset : ∀ name, r.settings? name = none := by
    obtain ⟨xs, -, -, rfl⟩ := Request.exists_registrations hcalls
    intro name
    rw [settings?, enterAll_config]
    rfl
  obtain ⟨t, htable⟩ : ∃ t, r.table Options.standard = .ok t := by
    refine exists_table_iff.mpr fun e _ k _ => Entry.exists_parameter_iff.mpr ?_
    rw [hunset]
    exact ModifierKind.admissible_standard e.kind k
  have hnominal : Call.nominalSum "counts" 1 Call.sharedCounts = 55 := by
    change ([5, 50].map (Nat.cast : ℕ → ℝ)).sum = 55
    norm_num
  have hvariance : Call.varianceSum "counts" 1 Call.sharedCounts = 34 := by
    change ([3, 5].map fun d : ℕ => (d : ℝ) ^ 2).sum = 34
    norm_num
  have hfirst : _ ∈ Call.named "counts" Call.sharedCounts :=
    Call.mem_named_iff.mpr ⟨List.mem_cons_self, rfl⟩
  obtain ⟨-, e, p, -, -, hslot, -, hname, hwidth, -⟩ :=
    prior_of_history hcalls hfirst (.inr rfl) (fun s hs => by cases hs) Nat.one_lt_two
      Options.standard
  obtain ⟨start, hstart, hp⟩ := hslot t htable
  have hpositive := hwidth ⟨by rw [hnominal]; norm_num, by rw [hvariance]; norm_num⟩
  rw [hnominal, hvariance] at hpositive
  exact ⟨r, t, start, p, hcalls, htable, hstart, hp, hname, hpositive⟩

end BinnedModel
