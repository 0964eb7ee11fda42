import Mathlib
import BinnedModel.Proofs.Registry.Grouping

/-!
# The bins of a parameter

An entry records for each of its parameters the bins on which the registrations of its name
act, in the order of encounter. The record of a parameter consists of exactly these bins. If
the registrations come channel by channel, each channel behind the ones before it, the record
is strictly increasing: a registration either repeats the bins of an earlier one of its
channel or acts on bins behind all earlier ones.
-/

namespace BinnedModel

/-- The bins after several insertions are those before and the inserted ones. -/
theorem mem_foldl_insertBin {bs ls : List ℕ} {g : ℕ} :
    g ∈ ls.foldl insertBin bs ↔ g ∈ bs ∨ g ∈ ls := by
  induction ls generalizing bs with
  | nil => simp
  | cons b ls ih => rw [List.foldl_cons, ih, mem_insertBin, List.mem_cons, or_assoc]

/-- Bins that are there already are not added. -/
theorem foldl_insertBin_of_mem {bs ls : List ℕ} (h : ∀ b ∈ ls, b ∈ bs) :
    ls.foldl insertBin bs = bs := by
  induction ls with
  | nil => rfl
  | cons b ls ih =>
    obtain ⟨hb, hls⟩ := List.forall_mem_cons.mp h
    have hkeep : insertBin bs b = bs := by
      rw [insertBin, if_pos (by simpa using hb)]
    rw [List.foldl_cons, hkeep, ih hls]

/-- Increasing bins behind all that are there are added at the end. -/
theorem foldl_insertBin_of_lt {bs ls : List ℕ} (hls : ls.Pairwise (· < ·))
    (h : ∀ a ∈ bs, ∀ b ∈ ls, a < b) : ls.foldl insertBin bs = bs ++ ls := by
  induction ls generalizing bs with
  | nil => simp
  | cons b ls ih =>
    obtain ⟨hb, hrest⟩ := List.pairwise_cons.mp hls
    have hnew : insertBin bs b = bs ++ [b] := by
      have hnot : b ∉ bs := fun hmem => Nat.lt_irrefl b (h b hmem b List.mem_cons_self)
      rw [insertBin, if_neg (by simpa using hnot)]
    have hbehind : ∀ a ∈ bs ++ [b], ∀ c ∈ ls, a < c := by
      intro a ha c hc
      rcases List.mem_append.mp ha with ha | ha
      · exact h a ha c (List.mem_cons_of_mem _ hc)
      · rw [List.mem_singleton.mp ha]
        exact hb c hc
    rw [List.foldl_cons, hnew, ih hrest hbehind, List.append_assoc, List.singleton_append]

variable {K : Type}

namespace Registration

/-- The bins on which a registration acts through the `k`-th parameter of its kind. -/
def reached (kind : ModifierKind) (k : ℕ) (x : Registration K) : List ℕ :=
  if kind.isPerBin then [x.offset + k] else List.range' x.offset x.nominal.length

/-- A parameter acts on the bins of its channel or, if there is one per bin, on its own. -/
theorem mem_reached_iff {kind : ModifierKind} {k g : ℕ} {x : Registration K}
    (hk : kind.isPerBin = true → k < x.nominal.length) :
    g ∈ x.reached kind k ↔ x.offset ≤ g ∧ g < x.offset + x.nominal.length ∧
      (kind.isPerBin = true → g = x.offset + k) := by
  unfold reached
  by_cases hper : kind.isPerBin = true
  · have hlt := hk hper
    simp only [hper, if_true, List.mem_singleton, forall_const]
    omega
  · simp [hper, List.mem_range'_1]

/-- The bins on which a registration acts are increasing. -/
theorem increasing_reached (kind : ModifierKind) (k : ℕ) (x : Registration K) :
    (x.reached kind k).Pairwise (· < ·) := by
  unfold reached
  split
  · exact List.pairwise_singleton _ _
  · exact List.pairwise_lt_range'

/-- Two registrations are in order: they are of one channel, or the channel of the first one
ends before that of the second one. -/
def Precedes (x y : Registration K) : Prop :=
  (x.offset = y.offset ∧ x.nominal.length = y.nominal.length) ∨
    x.offset + x.nominal.length ≤ y.offset

/-- Registrations in order record increasing bins: each of them is of a channel that was met before,
or lies behind all others. -/
theorem increasing_foldl_reached {kind : ModifierKind} {k : ℕ} {xs : List (Registration K)}
    (h : xs.Pairwise Precedes)
    (hk : kind.isPerBin = true → ∀ x ∈ xs, k < x.nominal.length) :
    ((xs.flatMap (reached kind k)).foldl insertBin []).Pairwise (· < ·) := by
  induction xs using List.reverseRecOn with
  | nil => exact .nil
  | append_singleton xs y ih =>
    rw [List.pairwise_append] at h
    obtain ⟨hxs, -, hbefore⟩ := h
    have hkxs : kind.isPerBin = true → ∀ x ∈ xs, k < x.nominal.length :=
      fun hper x hx => hk hper x (List.mem_append_left _ hx)
    have hky : kind.isPerBin = true → k < y.nominal.length :=
      fun hper => hk hper y (List.mem_append_right _ List.mem_cons_self)
    rw [List.flatMap_append, List.flatMap_singleton, List.foldl_append]
    by_cases hsame : ∃ x ∈ xs, x.offset = y.offset ∧ x.nominal.length = y.nominal.length
    · obtain ⟨x, hx, hoffset, hlength⟩ := hsame
      have hreached : x.reached kind k = y.reached kind k := by
        unfold reached
        rw [hoffset, hlength]
      rw [foldl_insertBin_of_mem fun b hb => ?_]
      · exact ih hxs hkxs
      · exact mem_foldl_insertBin.mpr
          (.inr (List.mem_flatMap.mpr ⟨x, hx, hreached ▸ hb⟩))
    · have hbehind : ∀ a ∈ (xs.flatMap (reached kind k)).foldl insertBin [],
          ∀ b ∈ y.reached kind k, a < b := by
        intro a ha b hb
        rcases mem_foldl_insertBin.mp ha with ha | ha
        · cases ha
        obtain ⟨x, hx, hax⟩ := List.mem_flatMap.mp ha
        have hstart := (mem_reached_iff hky).mp hb
        have hend := (mem_reached_iff fun hper => hkxs hper x hx).mp hax
        rcases hbefore x hx y List.mem_cons_self with hone | hapart
        · exact absurd ⟨x, hx, hone⟩ hsame
        · omega
      rw [foldl_insertBin_of_lt (increasing_reached kind k y) hbehind, List.pairwise_append]
      exact ⟨ih hxs hkxs, increasing_reached kind k y, hbehind⟩

end Registration

variable [Scalar K]

namespace Entry

/-- A registration adds the bins on which it acts to the record of each parameter. -/
theorem getElem?_join_bins (e : Entry K) (x : Registration K) (k : ℕ) :
    (e.join x).bins[k]? =
      e.bins[k]?.map fun bs => (x.reached e.kind k).foldl insertBin bs := by
  have hjoin : (e.join x).bins = (e.actOn x.offset x.nominal.length).bins := by
    unfold join absorb
    split <;> rfl
  rw [hjoin]
  unfold actOn Registration.reached
  by_cases hper : e.kind.isPerBin = true
  · rw [if_pos hper, if_pos hper, List.getElem?_mapIdx]
    rfl
  · rw [if_neg hper, if_neg hper, List.getElem?_map, List.range'_eq_map_range]
    simp only [List.foldl_map]

/-- Registrations add the bins on which they act, one registration after the other. -/
theorem getElem?_foldl_join_bins (e : Entry K) (xs : List (Registration K)) (k : ℕ) :
    (xs.foldl join e).bins[k]? = e.bins[k]?.map fun bs =>
      (xs.flatMap (Registration.reached e.kind k)).foldl insertBin bs := by
  induction xs generalizing e with
  | nil => simp
  | cons x xs ih =>
    rw [List.foldl_cons, ih, getElem?_join_bins, join_kind, Option.map_map]
    simp only [Function.comp_def, List.flatMap_cons, List.foldl_append]

/-- The entry of a group records for each parameter the bins on which the group acts. -/
theorem bins_of_ofGroup {xs : List (Registration K)} {e : Entry K} (he : ofGroup xs = some e)
    {k : ℕ} (hk : k < e.slots) :
    e.bins.getD k [] = (xs.flatMap (Registration.reached e.kind k)).foldl insertBin [] := by
  obtain ⟨x, ys, rfl, rfl⟩ := ofGroup_eq_some_iff.mp he
  rw [foldl_join_slots] at hk
  have hstart : x.start.bins[k]? = some [] := by
    unfold Registration.start fresh at hk ⊢
    exact List.getElem?_replicate_of_lt hk
  rw [List.getD_eq_getElem?_getD, getElem?_foldl_join_bins, hstart, foldl_join_kind]
  rfl

/-- With a parameter per bin, the index of a parameter is that of a bin in each registration
of the entry. -/
theorem lt_of_ofGroup {n : String} {xs : List (Registration K)} {e : Entry K}
    (hagree : ∀ x ∈ xs, ∀ y ∈ xs, x.Agrees y)
    (he : ofGroup (Registration.named n xs) = some e) {k : ℕ} (hk : k < e.slots) :
    e.kind.isPerBin = true → ∀ x ∈ Registration.named n xs, k < x.nominal.length := by
  intro hper x hx
  obtain ⟨hxmem, rfl⟩ := Registration.mem_named_iff.mp hx
  obtain ⟨-, hkind, hslots⟩ := spec_of_ofGroup hagree hxmem he
  rw [hslots, Registration.slots, if_pos (hkind ▸ hper)] at hk
  exact hk

/-- The entry of a name records for a parameter the bins of the registrations of this name
or, with a parameter per bin, the bin at the index of the parameter in each of them. -/
theorem mem_bins_iff {n : String} {xs : List (Registration K)} {e : Entry K}
    (hagree : ∀ x ∈ xs, ∀ y ∈ xs, x.Agrees y)
    (he : ofGroup (Registration.named n xs) = some e) {k : ℕ} (hk : k < e.slots) {g : ℕ} :
    g ∈ e.bins.getD k [] ↔ ∃ x ∈ xs, x.modifier.name = n ∧ x.offset ≤ g ∧
      g < x.offset + x.nominal.length ∧ (e.kind.isPerBin = true → g = x.offset + k) := by
  have hlt := lt_of_ofGroup hagree he hk
  rw [bins_of_ofGroup he hk, mem_foldl_insertBin, List.mem_flatMap]
  simp only [List.not_mem_nil, false_or]
  constructor
  · intro h
    obtain ⟨x, hx, hg⟩ := h
    obtain ⟨hxmem, hname⟩ := Registration.mem_named_iff.mp hx
    have hreached := (Registration.mem_reached_iff fun hper => hlt hper x hx).mp hg
    exact ⟨x, hxmem, hname, hreached⟩
  · intro h
    obtain ⟨x, hxmem, hname, hreached⟩ := h
    have hx := Registration.mem_named_iff.mpr ⟨hxmem, hname⟩
    exact ⟨x, hx, (Registration.mem_reached_iff fun hper => hlt hper x hx).mpr hreached⟩

/-- If the registrations are in order, the recorded bins are increasing. -/
theorem increasing_bins {n : String} {xs : List (Registration K)} {e : Entry K}
    (hagree : ∀ x ∈ xs, ∀ y ∈ xs, x.Agrees y) (horder : xs.Pairwise Registration.Precedes)
    (he : ofGroup (Registration.named n xs) = some e) {k : ℕ} (hk : k < e.slots) :
    (e.bins.getD k []).Pairwise (· < ·) := by
  rw [bins_of_ofGroup he hk]
  exact Registration.increasing_foldl_reached (horder.filter _) (lt_of_ofGroup hagree he hk)

end Entry

end BinnedModel
