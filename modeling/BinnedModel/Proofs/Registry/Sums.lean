import Mathlib
import BinnedModel.Proofs.Registry.Grouping
import BinnedModel.Proofs.Registry.Table
import BinnedModel.Proofs.Scalar.Exact

/-!
# The sums of an entry

The entry of a name sums up the nominal yields and the squared uncertainties of the
registrations of this name; the widths of its priors are made from these sums. Over exact
scalars the sums, and with them the parameters, do not depend on the order in which the
registrations come, nor on the bins on which they act.
-/

namespace BinnedModel

variable {K : Type}

/-- Uncertainties are data per bin, of a kind with a parameter per bin. -/
theorem Payload.mem_histograms_of_uncertainties? {payload : Payload K} {delta : List K}
    (h : payload.uncertainties? = some delta) :
    delta ∈ payload.histograms ∧ payload.kind.isPerBin = true := by
  cases payload with
  | shapesys d =>
    obtain rfl := Option.some.inj h
    exact ⟨List.mem_singleton.mpr rfl, rfl⟩
  | staterror d =>
    obtain rfl := Option.some.inj h
    exact ⟨List.mem_singleton.mpr rfl, rfl⟩
  | _ => cases h

namespace Registration

/-- A registration without the place of its channel. -/
def unplaced (x : Registration K) : Registration K :=
  { x with offset := 0 }

/-- Without its place a registration still has its modifier and its nominal yields. -/
theorem unplaced_inj {x y : Registration K} (h : x.unplaced = y.unplaced) :
    x.modifier = y.modifier ∧ x.nominal = y.nominal := by
  unfold unplaced at h
  rw [Registration.mk.injEq] at h
  exact ⟨h.1, h.2.1⟩

variable [Scalar K]

/-- What a registration adds to the sums of its entry, if it adds anything: its nominal
yields and its squared uncertainties. -/
def summands? (x : Registration K) : Option (List K × List K) :=
  x.modifier.payload.uncertainties?.map fun delta => (x.nominal, delta.map fun d => d * d)

/-- A registration that adds to the sums has a parameter per bin, and adds one entry per bin
to each sum. -/
theorem length_of_summands? {x : Registration K} {s : List K × List K}
    (hfits : x.modifier.Fits x.nominal.length) (h : x.summands? = some s) :
    x.modifier.kind.isPerBin = true ∧ s.1.length = x.nominal.length ∧
      s.2.length = x.nominal.length := by
  obtain ⟨delta, hdelta, rfl⟩ := Option.map_eq_some_iff.mp h
  have hdata := Payload.mem_histograms_of_uncertainties? hdelta
  refine ⟨hdata.2, rfl, ?_⟩
  rw [List.length_map]
  exact hfits delta hdata.1

/-- The summands of the registrations of a name do not depend on their places, and come in
the order of the registrations. -/
theorem perm_summands {xs ys : List (Registration K)} (n : String)
    (h : (xs.map unplaced).Perm (ys.map unplaced)) :
    ((named n xs).filterMap summands?).Perm ((named n ys).filterMap summands?) := by
  have hplace : ∀ zs : List (Registration K),
      ((zs.map unplaced).filter fun x => x.modifier.name == n).filterMap summands? =
        (named n zs).filterMap summands? := by
    intro zs
    rw [List.filter_map, List.filterMap_map]
    rfl
  rw [← hplace xs, ← hplace ys]
  exact (h.filter _).filterMap _

end Registration

variable [Scalar K]

namespace Entry

/-- Both sums of an entry. -/
def sums (e : Entry K) : List K × List K :=
  (e.nominal, e.variance)

/-- Both sums with one more summand each. -/
def addBoth (sums summands : List K × List K) : List K × List K :=
  (addTo sums.1 summands.1, addTo sums.2 summands.2)

/-- A registration adds its summands, if it has any. -/
theorem sums_join (e : Entry K) (x : Registration K) :
    (e.join x).sums = (x.summands?.map (addBoth e.sums)).getD e.sums := by
  unfold join absorb Registration.summands?
  cases x.modifier.payload.uncertainties? with
  | none =>
    unfold actOn
    dsimp only
    split <;> rfl
  | some delta =>
    unfold actOn
    dsimp only
    split <;> rfl

/-- Registrations add their summands one after the other. -/
theorem sums_foldl_join (e : Entry K) (xs : List (Registration K)) :
    (xs.foldl join e).sums = (xs.filterMap Registration.summands?).foldl addBoth e.sums := by
  induction xs generalizing e with
  | nil => rfl
  | cons x xs ih =>
    rw [List.foldl_cons, ih, sums_join, List.filterMap_cons]
    cases x.summands? <;> rfl

/-- The entry of a group has the summands of the group, added up. -/
theorem sums_of_ofGroup {xs : List (Registration K)} {e : Entry K} (he : ofGroup xs = some e) :
    e.sums = (xs.filterMap Registration.summands?).foldl addBoth ([], []) := by
  obtain ⟨x, ys, rfl, rfl⟩ := ofGroup_eq_some_iff.mp he
  exact sums_foldl_join x.start (x :: ys)

section Exact

variable [Scalar.Exact K]

/-- Two lists may be added item by item in any order. -/
theorem zipWith_add_right_comm (s u v : List K) :
    List.zipWith (· + ·) (List.zipWith (· + ·) s u) v =
      List.zipWith (· + ·) (List.zipWith (· + ·) s v) u := by
  induction s generalizing u v with
  | nil => rfl
  | cons x s ih =>
    cases u with
    | nil => cases v <;> rfl
    | cons y u =>
      cases v with
      | nil => rfl
      | cons z v =>
        simp only [List.zipWith_cons_cons, ih u v]
        rw [Scalar.add_right_comm]

/-- Two summands of one length may be added in any order. -/
theorem addTo_right_comm (s : List K) {u v : List K} (h : u.length = v.length) :
    addTo (addTo s u) v = addTo (addTo s v) u := by
  have hzeros : (u.map fun _ => (0 : K)) = v.map fun _ => 0 := by
    rw [List.map_const', List.map_const', h]
  have hstart : ∀ {a b : List K}, a.length = b.length →
      addTo (addTo s a) b = List.zipWith (· + ·)
        (List.zipWith (· + ·) (if s.isEmpty then a.map fun _ => 0 else s) a) b := by
    intro a b hab
    cases a with
    | nil =>
      obtain rfl : b = [] := List.length_eq_zero_iff.mp hab.symm
      simp [addTo]
    | cons x a => cases s <;> simp [addTo]
  rw [hstart h, hstart h.symm, hzeros]
  exact zipWith_add_right_comm _ u v

/-- Summands of one length add up to the same sums in any order. -/
theorem foldl_addBoth_perm {xs ys : List (List K × List K)} (h : xs.Perm ys) {n : ℕ}
    (hlength : ∀ s ∈ xs, s.1.length = n ∧ s.2.length = n) (sums : List K × List K) :
    xs.foldl addBoth sums = ys.foldl addBoth sums := by
  refine h.foldl_eq' (fun u hu v hv s => ?_) sums
  obtain ⟨hu₁, hu₂⟩ := hlength u hu
  obtain ⟨hv₁, hv₂⟩ := hlength v hv
  have hfirst := addTo_right_comm s.1 (hu₁.trans hv₁.symm)
  have hsecond := addTo_right_comm s.2 (hu₂.trans hv₂.symm)
  exact Prod.ext hfirst hsecond

end Exact

/-- The parameters of an entry depend on its name, its kind and its sums, except for the bins
on which they act. -/
theorem parameter_of_sums {e e' : Entry K} (hname : e'.name = e.name) (hkind : e'.kind = e.kind)
    (hsums : e'.sums = e.sums) (settings : Option (ParameterConfig K)) (o : Options K) (k : ℕ) :
    e'.parameter settings o k =
      (e.parameter settings o k).map fun p => { p with bins := e'.bins.getD k [] } := by
  have hnominal : e'.nominal = e.nominal := congrArg Prod.fst hsums
  have hvariance : e'.variance = e.variance := congrArg Prod.snd hsums
  have hprior : e'.prior settings o k = e.prior settings o k := by
    unfold prior relativeWidth
    rw [hkind, hnominal, hvariance]
  have hslot : e'.slotName k = e.slotName k := by
    unfold slotName
    rw [hkind, hname]
  unfold parameter
  dsimp only
  rw [hprior, hkind, hname, hslot]
  cases e.prior settings o k with
  | error f => rfl
  | ok prior =>
    dsimp only
    split
    · cases Prior.mkFlat (K := K) _ _ <;> rfl
    · split <;> rfl

variable {xs ys : List (Registration K)} {n : String} {e e' : Entry K}

/-- The registrations of one name add one entry per bin of any of them to each sum. -/
theorem length_of_mem_summands {x : Registration K} (hagree : ∀ x ∈ xs, ∀ y ∈ xs, x.Agrees y)
    (hfits : ∀ x ∈ xs, x.modifier.Fits x.nominal.length) (hx : x ∈ xs)
    {s : List K × List K}
    (hs : s ∈ (Registration.named x.modifier.name xs).filterMap Registration.summands?) :
    s.1.length = x.nominal.length ∧ s.2.length = x.nominal.length := by
  obtain ⟨z, hz, hsz⟩ := List.mem_filterMap.mp hs
  obtain ⟨hzmem, hzname⟩ := Registration.mem_named_iff.mp hz
  obtain ⟨hper, hfirst, hsecond⟩ := Registration.length_of_summands? (hfits z hzmem) hsz
  have hbins := (hagree z hzmem x hx hzname).2 hper
  exact ⟨hfirst.trans hbins, hsecond.trans hbins⟩

/-- Registrations that are the same up to order and places make entries of one name, kind and
number of parameters, with the same sums. A registration of the name stands in both lists, and
settles all but the sums. -/
theorem same_of_perm [Scalar.Exact K] (hagree : ∀ x ∈ xs, ∀ y ∈ xs, x.Agrees y)
    (hagree' : ∀ x ∈ ys, ∀ y ∈ ys, x.Agrees y)
    (hfits : ∀ x ∈ xs, x.modifier.Fits x.nominal.length)
    (hperm : (xs.map Registration.unplaced).Perm (ys.map Registration.unplaced))
    (he : ofGroup (Registration.named n xs) = some e)
    (he' : ofGroup (Registration.named n ys) = some e') :
    e'.name = e.name ∧ e'.kind = e.kind ∧ e'.slots = e.slots ∧ e'.sums = e.sums := by
  obtain ⟨x, hx, rfl⟩ := exists_registration he
  have hmem : x.unplaced ∈ ys.map Registration.unplaced :=
    hperm.mem_iff.mp (List.mem_map_of_mem hx)
  obtain ⟨y, hy, hxy⟩ := List.mem_map.mp hmem
  obtain ⟨hmodifier, hnominal⟩ := Registration.unplaced_inj hxy
  have hcount : y.slots = x.slots := by
    unfold Registration.slots
    rw [hmodifier, hnominal]
  have hsums : e'.sums = e.sums := by
    rw [sums_of_ofGroup he, sums_of_ofGroup he']
    exact (foldl_addBoth_perm (Registration.perm_summands _ hperm)
      (fun s hs => length_of_mem_summands hagree hfits hx hs) _).symm
  rw [← hmodifier] at he'
  obtain ⟨hname, hkind, hslots⟩ := spec_of_ofGroup hagree hx he
  obtain ⟨hname', hkind', hslots'⟩ := spec_of_ofGroup hagree' hy he'
  exact ⟨by rw [hname', hname, hmodifier], by rw [hkind', hkind, hmodifier],
    by rw [hslots', hslots, hcount], hsums⟩

end Entry

end BinnedModel
