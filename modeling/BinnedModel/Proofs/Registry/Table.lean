import Mathlib
import BinnedModel.Proofs.Sequence
import BinnedModel.Registry.Table

/-!
# The blocks of a parameter table

The table of a registry puts the parameters of its entries side by side. If the names of
the entries are distinct, each entry has one block in the table, which starts at the
recorded first slot of the name and holds all the parameters of this name and no other.
-/

namespace BinnedModel

variable {K : Type} [Scalar K]

/-- The starting value that the settings give to a parameter, else the neutral one. -/
def Entry.startingValue (e : Entry K) (settings : Option (ParameterConfig K)) (k : ℕ) : K :=
  (settings.bind fun s => settingFor? s.inits k).getD e.kind.neutral

/-- Whether the settings pin the parameters. -/
def pinnedBy (settings : Option (ParameterConfig K)) : Bool :=
  (settings.map (·.fixed)).getD false

/-- The value at which a parameter starts under a prior: a prior on a single point moves
it there. -/
def Prior.settle (prior : Prior K) (init : K) : K :=
  match prior with
  | .flat a b => if Scalar.Agrees a b then a else init
  | _ => init

/-- The record of a parameter with the given prior and starting value. -/
def Entry.record (e : Entry K) (k : ℕ) (prior : Prior K) (init : K) : Parameter K :=
  ⟨e.slotName k, e.name, e.kind, prior, init, e.bins.getD k []⟩

/-- A parameter has the prior of its kind; if it is pinned, this prior has to exist too
but gives way to the single starting value. -/
theorem Entry.parameter_eq_ok_iff {e : Entry K} {settings : Option (ParameterConfig K)}
    {o : Options K} {k : ℕ} {p : Parameter K} :
    e.parameter settings o k = .ok p ↔ ∃ prior, e.prior settings o k = .ok prior ∧
      ((pinnedBy settings = true ∧
          ∃ pinned, Prior.mkFlat (e.startingValue settings k) (e.startingValue settings k) =
            .ok pinned ∧ p = e.record k pinned (e.startingValue settings k)) ∨
        (pinnedBy settings = false ∧
          p = e.record k prior (prior.settle (e.startingValue settings k)))) := by
  unfold parameter
  cases hprior : e.prior settings o k with
  | error f => simp
  | ok prior =>
    simp only [Except.ok.injEq, exists_eq_left']
    by_cases hpin : pinnedBy settings = true
    · have hfixed : (settings.map (·.fixed)).getD false = true := hpin
      simp only [hpin, hfixed, if_true, map_eq_ok_iff, true_and, Bool.true_eq_false, false_and,
        or_false]
      exact exists_congr fun _ => and_congr_right fun _ => eq_comm
    · have hfree : (settings.map (·.fixed)).getD false = false := by
        simpa [pinnedBy] using hpin
      have hpin' : pinnedBy settings = false := hfree
      simp only [hpin', hfree, Bool.false_eq_true, if_false, false_and, true_and, false_or]
      cases prior with
      | flat a b =>
        rw [Except.ok.injEq]
        exact eq_comm
      | normal mu sigma =>
        rw [Except.ok.injEq]
        exact eq_comm
      | poisson rate =>
        rw [Except.ok.injEq]
        exact eq_comm

/-- A parameter is labelled by its entry and its index, and acts on the bins recorded for
this index. -/
theorem Entry.parameter_label {e : Entry K} {settings : Option (ParameterConfig K)}
    {o : Options K} {k : ℕ} {p : Parameter K} (h : e.parameter settings o k = .ok p) :
    p.name = e.slotName k ∧ p.modifier = e.name ∧ p.kind = e.kind ∧
      p.bins = e.bins.getD k [] := by
  obtain ⟨prior, -, ⟨-, pinned, -, rfl⟩ | ⟨-, rfl⟩⟩ := Entry.parameter_eq_ok_iff.mp h
  · exact ⟨rfl, rfl, rfl, rfl⟩
  · exact ⟨rfl, rfl, rfl, rfl⟩

namespace Entry

variable {e : Entry K} {settings : Option (ParameterConfig K)} {o : Options K}
  {block : List (Parameter K)}

/-- An entry has as many parameters as it has slots. -/
theorem length_parameters (h : e.parameters settings o = .ok block) :
    block.length = e.slots := by
  have hlen := (mapM_eq_ok_iff.mp h).length_eq
  rw [List.length_range] at hlen
  exact hlen.symm

/-- The parameters of an entry are made one by one. -/
theorem getElem?_parameters (h : e.parameters settings o = .ok block) {k : ℕ}
    {p : Parameter K} (hk : block[k]? = some p) : e.parameter settings o k = .ok p := by
  obtain ⟨i, hi, hp⟩ := getElem?_of_forall₂_right (mapM_eq_ok_iff.mp h) hk
  have hlt : k < e.slots := by
    rw [← length_parameters h]
    exact (List.getElem?_eq_some_iff.mp hk).1
  rw [List.getElem?_range hlt] at hi
  cases hi
  exact hp

/-- The parameters of an entry belong to its name. -/
theorem modifier_of_mem_parameters (h : e.parameters settings o = .ok block)
    {p : Parameter K} (hp : p ∈ block) : p.modifier = e.name := by
  obtain ⟨k, hk⟩ := List.mem_iff_getElem?.mp hp
  exact (parameter_label (getElem?_parameters h hk)).2.1

end Entry

/-- A table consists of the blocks of the entries, and records where they start. -/
theorem Registry.table_eq_ok_iff {r : Registry K} {o : Options K} {t : ParameterTable K} :
    r.table o = .ok t ↔ ∃ blocks,
      List.Forall₂ (fun e block => e.parameters (r.settings? e.name) o = .ok block)
        r.entries blocks ∧
      t = ⟨blocks.flatten,
        (r.entries.map (·.name)).zip (blockStarts 0 (blocks.map List.length))⟩ := by
  unfold table
  simp only [← mapM_eq_ok_iff]
  cases r.entries.mapM fun e => e.parameters (r.settings? e.name) o with
  | error f => simp
  | ok blocks =>
    simp only [Except.ok.injEq, exists_eq_left']
    exact eq_comm

/-- A table in three parts, of which the middle one is the block of an entry and the others
hold no parameter of its name. -/
structure ParameterTable.Splits (t : ParameterTable K) (e : Entry K)
    (settings : Option (ParameterConfig K)) (o : Options K)
    (before block after : List (Parameter K)) : Prop where
  /-- The parts make up the table. -/
  parameters : t.parameters = before ++ block ++ after
  /-- The middle part is the block of the entry. -/
  block : e.parameters settings o = .ok block
  /-- The block starts at the first slot of the name. -/
  start : t.firstSlot? e.name = some before.length
  /-- No parameter before the block has its name. -/
  before : ∀ p ∈ before, p.modifier ≠ e.name
  /-- No parameter after the block has its name. -/
  after : ∀ p ∈ after, p.modifier ≠ e.name

/-- Blocks side by side split at the block of any of the entries. -/
theorem splits_of_blocks {settings : String → Option (ParameterConfig K)} {o : Options K}
    {es : List (Entry K)} {blocks : List (List (Parameter K))}
    (h : List.Forall₂ (fun e block => e.parameters (settings e.name) o = .ok block) es blocks)
    (hnodup : (es.map (·.name)).Nodup) {e : Entry K} (he : e ∈ es) (start : ℕ) :
    ∃ before block after, blocks.flatten = before ++ block ++ after ∧
      e.parameters (settings e.name) o = .ok block ∧
      ((es.map (·.name)).zip (blockStarts start (blocks.map List.length))).lookup e.name =
        some (start + before.length) ∧
      (∀ p ∈ before, p.modifier ≠ e.name) ∧ ∀ p ∈ after, p.modifier ≠ e.name := by
  induction h generalizing start with
  | nil => simp at he
  | @cons x b es blocks hx hrest ih =>
    rw [List.map_cons, List.nodup_cons] at hnodup
    rcases List.mem_cons.mp he with rfl | hmem
    · refine ⟨[], b, blocks.flatten, by simp, hx, by simp [blockStarts], by simp, ?_⟩
      intro p hp
      obtain ⟨block, hblock, hpb⟩ := List.mem_flatten.mp hp
      obtain ⟨e', he', hparams⟩ := exists_mem_of_forall₂_right hrest hblock
      rw [Entry.modifier_of_mem_parameters hparams hpb]
      exact fun hname => hnodup.1 (hname ▸ List.mem_map_of_mem he')
    · obtain ⟨before, block, after, hflat, hblock, hstart, hbefore, hafter⟩ :=
        ih hnodup.2 hmem (start + b.length)
      have hne : x.name ≠ e.name := fun hname =>
        hnodup.1 (hname ▸ List.mem_map_of_mem hmem)
      refine ⟨b ++ before, block, after, by simp [hflat], hblock, ?_, ?_, hafter⟩
      · rw [List.map_cons, List.map_cons, blockStarts, List.zip_cons_cons, List.lookup_cons,
          beq_eq_false_iff_ne.mpr hne.symm, List.length_append, ← Nat.add_assoc]
        exact hstart
      · intro p hp
        rcases List.mem_append.mp hp with hp | hp
        · rw [Entry.modifier_of_mem_parameters hx hp]
          exact hne
        · exact hbefore p hp

/-- The table of entries with distinct names splits at the block of each of them. -/
theorem Registry.exists_splits {r : Registry K} {o : Options K} {t : ParameterTable K}
    (hnodup : (r.entries.map (·.name)).Nodup) (h : r.table o = .ok t) {e : Entry K}
    (he : e ∈ r.entries) :
    ∃ before block after, t.Splits e (r.settings? e.name) o before block after := by
  obtain ⟨blocks, hblocks, rfl⟩ := table_eq_ok_iff.mp h
  obtain ⟨before, block, after, hflat, hblock, hstart, hbefore, hafter⟩ :=
    splits_of_blocks hblocks hnodup he 0
  rw [Nat.zero_add] at hstart
  exact ⟨before, block, after, hflat, hblock, hstart, hbefore, hafter⟩

/-- Each parameter of a table belongs to the name of an entry. -/
theorem Registry.exists_entry_of_mem {r : Registry K} {o : Options K} {t : ParameterTable K}
    (h : r.table o = .ok t) {p : Parameter K} (hp : p ∈ t.parameters) :
    ∃ e ∈ r.entries, p.modifier = e.name := by
  obtain ⟨blocks, hblocks, rfl⟩ := table_eq_ok_iff.mp h
  obtain ⟨block, hblock, hpb⟩ := List.mem_flatten.mp hp
  obtain ⟨e, he, hparams⟩ := exists_mem_of_forall₂_right hblocks hblock
  exact ⟨e, he, Entry.modifier_of_mem_parameters hparams hpb⟩

/-- Each parameter of a table is one of those of an entry. -/
theorem Registry.exists_parameter_of_mem {r : Registry K} {o : Options K}
    {t : ParameterTable K} (h : r.table o = .ok t) {p : Parameter K} (hp : p ∈ t.parameters) :
    ∃ e ∈ r.entries, ∃ k < e.slots, e.parameter (r.settings? e.name) o k = .ok p := by
  obtain ⟨blocks, hblocks, rfl⟩ := table_eq_ok_iff.mp h
  obtain ⟨block, hblock, hpb⟩ := List.mem_flatten.mp hp
  obtain ⟨e, he, hparams⟩ := exists_mem_of_forall₂_right hblocks hblock
  obtain ⟨k, hk⟩ := List.mem_iff_getElem?.mp hpb
  have hlt : k < e.slots := by
    rw [← Entry.length_parameters hparams]
    exact (List.getElem?_eq_some_iff.mp hk).1
  exact ⟨e, he, k, hlt, Entry.getElem?_parameters hparams hk⟩

namespace ParameterTable.Splits

variable {t : ParameterTable K} {e : Entry K} {settings : Option (ParameterConfig K)}
  {o : Options K} {before block after : List (Parameter K)}

/-- The parameters of a name are counted by the slots of its entry. -/
theorem countP_eq (h : t.Splits e settings o before block after) :
    t.parameters.countP (fun p => p.modifier == e.name) = e.slots := by
  have hbefore : before.countP (fun p => p.modifier == e.name) = 0 :=
    List.countP_eq_zero.mpr fun p hp => by simpa using h.before p hp
  have hafter : after.countP (fun p => p.modifier == e.name) = 0 :=
    List.countP_eq_zero.mpr fun p hp => by simpa using h.after p hp
  have hblock : block.countP (fun p => p.modifier == e.name) = block.length :=
    List.countP_eq_length.mpr fun p hp => by
      simpa using Entry.modifier_of_mem_parameters h.block hp
  rw [h.parameters, List.countP_append, List.countP_append, hbefore, hafter, hblock,
    Entry.length_parameters h.block]
  omega

/-- The block ends within the table. -/
theorem start_add_slots_le (h : t.Splits e settings o before block after) :
    before.length + e.slots ≤ t.parameters.length := by
  have hlen := congrArg List.length h.parameters
  rw [List.length_append, List.length_append, Entry.length_parameters h.block] at hlen
  omega

/-- The parameters of the block are those of the entry, one by one. -/
theorem parameter_eq (h : t.Splits e settings o before block after) {k : ℕ}
    (hk : k < e.slots) {p : Parameter K} (hp : t.parameters[before.length + k]? = some p) :
    e.parameter settings o k = .ok p := by
  have hlen := Entry.length_parameters h.block
  rw [h.parameters, List.getElem?_append_left (by rw [List.length_append]; omega),
    List.getElem?_append_right (Nat.le_add_right _ _), Nat.add_sub_cancel_left] at hp
  exact Entry.getElem?_parameters h.block hp

/-- The parameters of a name are exactly those of its block. -/
theorem modifier_eq_iff (h : t.Splits e settings o before block after) {i : ℕ}
    {p : Parameter K} (hp : t.parameters[i]? = some p) :
    p.modifier = e.name ↔ before.length ≤ i ∧ i < before.length + e.slots := by
  have hlen := Entry.length_parameters h.block
  rw [h.parameters] at hp
  by_cases hbefore : i < before.length
  · rw [List.append_assoc, List.getElem?_append_left hbefore] at hp
    have hne := h.before p (List.mem_of_getElem? hp)
    exact iff_of_false hne (by omega)
  · by_cases hblock : i < before.length + e.slots
    · rw [List.getElem?_append_left (by rw [List.length_append]; omega),
        List.getElem?_append_right (by omega)] at hp
      have heq := Entry.modifier_of_mem_parameters h.block (List.mem_of_getElem? hp)
      exact iff_of_true heq ⟨by omega, hblock⟩
    · rw [List.getElem?_append_right (by rw [List.length_append]; omega)] at hp
      have hne := h.after p (List.mem_of_getElem? hp)
      exact iff_of_false hne (by omega)

/-- A name with parameters has its first parameter at its first slot. -/
theorem findIdx_eq (h : t.Splits e settings o before block after) (hpos : 0 < e.slots) :
    t.parameters.findIdx (fun p => p.modifier == e.name) = before.length := by
  have hlen := h.start_add_slots_le
  have hlt : before.length < t.parameters.length := by omega
  rw [List.findIdx_eq hlt]
  constructor
  · have hfirst := List.getElem?_eq_getElem hlt
    rw [beq_iff_eq, h.modifier_eq_iff hfirst]
    omega
  · intro j hj
    have hfirst := List.getElem?_eq_getElem (show j < t.parameters.length by omega)
    rw [beq_eq_false_iff_ne, ne_eq, h.modifier_eq_iff hfirst]
    omega

end ParameterTable.Splits

end BinnedModel
