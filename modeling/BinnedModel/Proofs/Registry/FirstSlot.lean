import Mathlib
import BinnedModel.Proofs.Registry.Widths

/-!
# First slots

The table of a registry records for each name where its parameters start, also for a name whose
modifiers are factors per bin of samples without bins, and which therefore has no parameter. For
any other name the recorded index is the position of the first record of this name, and a name that
no accepted call declares has neither. This holds whatever calls have been made of a registry that
starts without entries, accepted or refused.
-/

namespace BinnedModel

variable {K : Type} [Scalar K]

/-- Whether a call declares a factor per bin for a sample without bins. -/
def Call.IsBinless (c : Call K) : Prop :=
  c.nominal = [] ∧ ∃ kind, ModifierKind.ofName? c.declaration.type = some kind ∧
    kind.isPerBin = true

/-- A call asks for no parameter exactly if it declares a factor per bin for a sample without
bins. -/
theorem Call.Enters.slots_eq_zero_iff {config : Option (MeasurementConfig K)} {c : Call K}
    {x : Registration K} (h : c.Enters config x) : x.slots = 0 ↔ c.IsBinless := by
  have hkind := h.stated.kind
  rw [Registration.slots, h.nominal]
  constructor
  · intro hzero
    split at hzero
    · next hper => exact ⟨List.length_eq_zero_iff.mp hzero, _, hkind, hper⟩
    · exact absurd hzero Nat.one_ne_zero
  · rintro ⟨hnominal, kind, hdeclared, hper⟩
    obtain rfl : kind = x.modifier.kind := Option.some.inj (hdeclared.symm.trans hkind)
    rw [if_pos hper, hnominal]
    rfl

omit [Scalar K] in
/-- The recorded start of an entry among others is the number of parameters of those before it. -/
theorem lookup_blockStarts {before after : List (Entry K)} {e : Entry K}
    (hnodup : ((before ++ e :: after).map (·.name)).Nodup) (start : ℕ) :
    (((before ++ e :: after).map (·.name)).zip
        (blockStarts start ((before ++ e :: after).map (·.slots)))).lookup e.name =
      some (start + blockTotal (before.map (·.slots))) := by
  induction before generalizing start with
  | nil => simp [blockStarts, blockTotal]
  | cons x before ih =>
    rw [List.cons_append, List.map_cons, List.nodup_cons] at hnodup
    have hne : e.name ≠ x.name := fun hname => hnodup.1 (hname ▸ by simp)
    have htotal : blockTotal ((x :: before).map (·.slots)) =
        x.slots + blockTotal (before.map (·.slots)) := rfl
    rw [List.cons_append, List.map_cons, List.map_cons, blockStarts, List.zip_cons_cons,
      List.lookup_cons, beq_eq_false_iff_ne.mpr hne, htotal, ← Nat.add_assoc]
    exact ih hnodup.2 (start + x.slots)

namespace Registry

variable {r : Registry K} {o : Options K} {t : ParameterTable K}

/-- The first slot of a name is the number of parameters of the entries before its entry. -/
theorem firstSlot?_of_entries (hnodup : (r.entries.map (·.name)).Nodup) (h : r.table o = .ok t)
    {before after : List (Entry K)} {e : Entry K} (hentries : r.entries = before ++ e :: after) :
    t.firstSlot? e.name = some (blockTotal (before.map (·.slots))) := by
  obtain ⟨blocks, hblocks, rfl⟩ := table_eq_ok_iff.mp h
  have hlengths : blocks.map List.length = r.entries.map (·.slots) :=
    (map_eq_map_of_forall₂ (hblocks.imp fun _ _ hblock =>
      (Entry.length_parameters hblock).symm)).symm
  rw [hentries] at hlengths hnodup
  have hlookup := lookup_blockStarts hnodup 0
  rw [Nat.zero_add] at hlookup
  rw [ParameterTable.firstSlot?, hlengths, hentries]
  exact hlookup

/-- A name without an entry has no first slot. -/
theorem firstSlot?_eq_none (h : r.table o = .ok t) {n : String}
    (hn : n ∉ r.entries.map (·.name)) : t.firstSlot? n = none := by
  obtain ⟨blocks, -, rfl⟩ := table_eq_ok_iff.mp h
  rw [ParameterTable.firstSlot?, List.lookup_eq_none_iff]
  intro x hx
  rw [bne_iff_ne]
  rintro rfl
  exact hn (List.of_mem_zip hx).1

end Registry

namespace ParameterTable

variable {t : ParameterTable K} {n : String}

omit [Scalar K] in
/-- A name without a record has no position. -/
theorem findIdx?_eq_none_iff :
    t.parameters.findIdx? (fun p => p.modifier == n) = none ↔
      ∀ p ∈ t.parameters, p.modifier ≠ n := by
  rw [List.findIdx?_eq_none_iff]
  simp only [beq_eq_false_iff_ne]

variable {e : Entry K} {settings : Option (ParameterConfig K)} {o : Options K}
  {before block after : List (Parameter K)}

/-- An entry with parameters has its first record at its first slot. -/
theorem Splits.firstSlot?_eq (h : t.Splits e settings o before block after) (hpos : 0 < e.slots) :
    t.firstSlot? e.name = t.parameters.findIdx? fun p => p.modifier == e.name := by
  have hlen := h.start_add_slots_le
  rw [h.start, eq_comm, List.findIdx?_eq_some_iff_findIdx_eq]
  exact ⟨by omega, h.findIdx_eq hpos⟩

/-- An entry without parameters has no record. -/
theorem Splits.modifier_ne (h : t.Splits e settings o before block after) (hzero : e.slots = 0) :
    ∀ p ∈ t.parameters, p.modifier ≠ e.name := by
  intro p hp hname
  obtain ⟨i, hi⟩ := List.mem_iff_getElem?.mp hp
  obtain ⟨hstart, hend⟩ := (h.modifier_eq_iff hi).mp hname
  omega

end ParameterTable

namespace Registry

variable {config : Option (MeasurementConfig K)} {calls : List (Call K)}
  {outcomes : List (Except (Fault K) Unit)} {r : Registry K}

/-- After any calls the entries have distinct names, which are those of the accepted calls, and an
entry has no parameter exactly if an accepted call of its name declares a factor per bin for a
sample without bins. -/
theorem entries_of_accepted
    (h : Request.enterAll (calls.map .register) (empty config) = (outcomes, r)) :
    (r.entries.map (·.name)).Nodup ∧
      (∀ e ∈ r.entries, ∃ c ∈ Call.accepted calls outcomes, c.declaration.name = e.name) ∧
      ∀ c ∈ Call.accepted calls outcomes,
        ∃ e ∈ r.entries, e.name = c.declaration.name ∧ (e.slots = 0 ↔ c.IsBinless) := by
  obtain ⟨xs, hxs, hadmits, rfl⟩ := Request.exists_registrations_of_accepted h
  refine ⟨nodup_names_enterAll (r := empty config) List.nodup_nil xs, fun e he => ?_,
    fun c hc => ?_⟩
  · obtain ⟨x, hx, hname⟩ := Entry.exists_registration (mem_entries_enterAll_empty.mp he)
    obtain ⟨c, hc, hcx⟩ := exists_mem_of_forall₂_right hxs hx
    exact ⟨c, hc, hcx.stated.name.symm.trans hname⟩
  · obtain ⟨x, hx, hcx⟩ := exists_mem_of_forall₂_left hxs hc
    obtain ⟨e, he⟩ := Entry.exists_ofGroup hx
    obtain ⟨hname, -, hslots⟩ :=
      Entry.spec_of_ofGroup (admitsAll_empty_iff.mp hadmits) hx he
    refine ⟨e, mem_entries_enterAll_empty.mpr (hname ▸ he), hname.trans hcx.stated.name, ?_⟩
    rw [hslots]
    exact hcx.slots_eq_zero_iff

/-- Whatever calls have been made of a registry that starts without entries, and whichever of them
have been refused, each table of the registry has for a name as its first slot the position of the
first record of this name, and none if there is no such record, unless an accepted call of this
name declares a factor per bin for a sample without bins. In that case the name has no record, but
the number of parameters of the names before it as its first slot. -/
theorem firstSlot_after_calls
    (hcalls : Request.enterAll (calls.map .register) (empty config) = (outcomes, r))
    {o : Options K} {t : ParameterTable K} (htable : r.table o = .ok t) (n : String) :
    ((∀ c ∈ Call.named n (Call.accepted calls outcomes), ¬ c.IsBinless) →
        t.firstSlot? n = t.parameters.findIdx? fun p => p.modifier == n) ∧
      ((∃ c ∈ Call.named n (Call.accepted calls outcomes), c.IsBinless) →
        (∀ p ∈ t.parameters, p.modifier ≠ n) ∧
          ∃ before e after, r.entries = before ++ e :: after ∧ e.name = n ∧
            t.firstSlot? n = some (blockTotal (before.map (·.slots)))) := by
  obtain ⟨hnodup, hdeclared, hentered⟩ := entries_of_accepted hcalls
  constructor
  · intro hbins
    by_cases hn : n ∈ r.entries.map (·.name)
    · obtain ⟨e, he, rfl⟩ := List.mem_map.mp hn
      obtain ⟨c, hc, hname⟩ := hdeclared e he
      obtain ⟨e', he', hname', hslots⟩ := hentered c hc
      obtain rfl : e' = e :=
        List.inj_on_of_nodup_map hnodup he' he (hname'.trans hname)
      have hpos : 0 < e'.slots :=
        Nat.pos_of_ne_zero fun hzero =>
          hbins c (Call.mem_named_iff.mpr ⟨hc, hname⟩) (hslots.mp hzero)
      obtain ⟨before, block, after, hsplits⟩ := exists_splits hnodup htable he'
      exact hsplits.firstSlot?_eq hpos
    · rw [firstSlot?_eq_none htable hn, eq_comm, ParameterTable.findIdx?_eq_none_iff]
      intro p hp hname
      obtain ⟨e, he, hmodifier⟩ := exists_entry_of_mem htable hp
      exact hn (List.mem_map.mpr ⟨e, he, hmodifier.symm.trans hname⟩)
  · rintro ⟨c, hc, hbinless⟩
    obtain ⟨hmem, rfl⟩ := Call.mem_named_iff.mp hc
    obtain ⟨e, he, hname, hslots⟩ := hentered c hmem
    obtain ⟨before, block, after, hsplits⟩ := exists_splits hnodup htable he
    obtain ⟨earlier, later, hentries⟩ := List.append_of_mem he
    rw [← hname]
    exact ⟨hsplits.modifier_ne (hslots.mpr hbinless), earlier, e, later, hentries, rfl,
      firstSlot?_of_entries hnodup htable hentries⟩

end Registry

/-- A free factor per bin of a sample without bins, one of a sample with two bins, a free factor
under the name of the latter, which is refused, and a free factor for all bins. -/
def Call.withoutBins : List (Call Float) :=
  [⟨.shapefactor "empty", [], 0, "region", "none"⟩,
    ⟨.shapefactor "shape", [3, 5], 0, "region", "signal"⟩,
    ⟨.normfactor "shape", [3, 5], 0, "region", "signal"⟩,
    ⟨.normfactor "mu", [3, 5], 0, "region", "signal"⟩]

/-- The first slots of the two names with records are the positions of their first records. -/
theorem Registry.firstSlots_withoutBins : ∃ (outcomes : List (Except (Fault Float) Unit))
    (r : Registry Float) (t : ParameterTable Float),
    Request.enterAll (Call.withoutBins.map .register) (empty none) = (outcomes, r) ∧
      r.table Options.standard = .ok t ∧
      t.firstSlot? "mu" = t.parameters.findIdx? (fun p => p.modifier == "mu") ∧
      ∀ p ∈ t.parameters, p.modifier ≠ "empty" := by
  let run := Request.enterAll (Call.withoutBins.map .register) (empty none)
  have hcalls : Request.enterAll (Call.withoutBins.map .register) (empty none) =
      (run.1, run.2) := rfl
  obtain ⟨t, htable⟩ : ∃ t, run.2.table Options.standard = .ok t := ⟨_, rfl⟩
  have hmu : Call.named "mu" (Call.accepted Call.withoutBins run.1) =
      [⟨.normfactor "mu", [3, 5], 0, "region", "signal"⟩] := rfl
  have hempty : Call.named "empty" (Call.accepted Call.withoutBins run.1) =
      [⟨.shapefactor "empty", [], 0, "region", "none"⟩] := rfl
  have hposition := (firstSlot_after_calls hcalls htable "mu").1
  have habsent := (firstSlot_after_calls hcalls htable "empty").2
  rw [hmu] at hposition
  rw [hempty] at habsent
  refine ⟨run.1, run.2, t, hcalls, htable, hposition fun c hc hbinless => ?_, (habsent ?_).1⟩
  · obtain rfl := List.mem_singleton.mp hc
    cases hbinless.1
  · exact ⟨_, List.mem_singleton.mpr rfl, rfl, .shapefactor, rfl, rfl⟩

/-- Where a factor per bin of a sample without bins comes before a free factor, its name has the
record of the free factor as its first slot, and no record of its own. -/
theorem Registry.firstSlot_of_another : ∃ (outcomes : List (Except (Fault Float) Unit))
    (r : Registry Float) (t : ParameterTable Float),
    Request.enterAll (Call.withoutBins.map .register) (empty none) = (outcomes, r) ∧
      r.table Options.standard = .ok t ∧
      t.firstSlot? "empty" = some 0 ∧ t.parameters.map (·.modifier) = ["shape", "shape", "mu"] := by
  refine ⟨_, _, _, rfl, rfl, rfl, rfl⟩

end BinnedModel
