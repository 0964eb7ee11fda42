import Mathlib
import BinnedModel.Proofs.Registry.Registration
import BinnedModel.Proofs.Sequence

/-!
# The registry as a grouping by name

After any sequence of registrations the registry has one entry per name, in the order in
which the names are first met, and the entry of a name is what the registrations of that
name alone add up to. A sequence is admitted throughout exactly if any two registrations
of one name agree, in whatever order they come.
-/

namespace BinnedModel

variable {K : Type}

/-- The registrations of one name among others. -/
def Registration.named (n : String) (xs : List (Registration K)) : List (Registration K) :=
  xs.filter fun x => x.modifier.name == n

/-- The registrations of a name are those of the others that have it. -/
theorem Registration.mem_named_iff {n : String} {xs : List (Registration K)}
    {x : Registration K} : x ∈ Registration.named n xs ↔ x ∈ xs ∧ x.modifier.name = n := by
  rw [named, List.mem_filter, beq_iff_eq]

/-- The entry of a name after the entry of some name has been put in. -/
theorem find?_putEntry (e : Entry K) (es : List (Entry K)) (n : String) :
    (putEntry e es).find? (fun x => x.name == n) =
      if e.name = n then some e else es.find? fun x => x.name == n := by
  induction es with
  | nil => by_cases hn : e.name = n <;> simp [putEntry, hn]
  | cons x xs ih =>
    unfold putEntry
    by_cases hx : x.name = e.name
    · by_cases hn : e.name = n <;> simp [hx, hn]
    · rw [if_neg (by simpa using hx)]
      by_cases hxn : x.name = n
      · have hn : ¬ e.name = n := fun h => hx (hxn.trans h.symm)
        simp [hxn, hn]
      · simp [hxn, ih]

/-- Entries with distinct names are found under their names. -/
theorem Registry.mem_entries_iff {r : Registry K} (h : (r.entries.map (·.name)).Nodup)
    {e : Entry K} : e ∈ r.entries ↔ r.entry? e.name = some e := by
  unfold Registry.entry?
  constructor
  · exact find?_eq_some_of_mem h
  · exact List.mem_of_find?_eq_some

variable [Scalar K]

namespace Entry

/-- A registration leaves the name of an entry. -/
@[simp] theorem join_name (e : Entry K) (x : Registration K) : (e.join x).name = e.name := by
  unfold join absorb actOn
  split <;> split <;> rfl

/-- A registration leaves the kind of an entry. -/
@[simp] theorem join_kind (e : Entry K) (x : Registration K) : (e.join x).kind = e.kind := by
  unfold join absorb actOn
  split <;> split <;> rfl

/-- A registration leaves the number of parameters of an entry. -/
@[simp] theorem join_slots (e : Entry K) (x : Registration K) : (e.join x).slots = e.slots := by
  unfold join absorb actOn
  split <;> split <;> rfl

/-- Registrations leave the name of an entry. -/
@[simp] theorem foldl_join_name (e : Entry K) (xs : List (Registration K)) :
    (xs.foldl join e).name = e.name := by
  induction xs generalizing e with
  | nil => rfl
  | cons x xs ih => rw [List.foldl_cons, ih, join_name]

/-- Registrations leave the kind of an entry. -/
@[simp] theorem foldl_join_kind (e : Entry K) (xs : List (Registration K)) :
    (xs.foldl join e).kind = e.kind := by
  induction xs generalizing e with
  | nil => rfl
  | cons x xs ih => rw [List.foldl_cons, ih, join_kind]

/-- Registrations leave the number of parameters of an entry. -/
@[simp] theorem foldl_join_slots (e : Entry K) (xs : List (Registration K)) :
    (xs.foldl join e).slots = e.slots := by
  induction xs generalizing e with
  | nil => rfl
  | cons x xs ih => rw [List.foldl_cons, ih, join_slots]

/-- The entry that registrations of one name add up to; none without registrations. -/
def ofGroup : List (Registration K) → Option (Entry K)
  | [] => none
  | x :: xs => some ((x :: xs).foldl join x.start)

/-- Registrations add up to an entry if there is a first one. -/
theorem ofGroup_eq_some_iff {xs : List (Registration K)} {e : Entry K} :
    ofGroup xs = some e ↔ ∃ y ys, xs = y :: ys ∧ (y :: ys).foldl join y.start = e := by
  cases xs with
  | nil => simp [ofGroup]
  | cons x xs => simp [ofGroup]

/-- One more registration joins the entry of the earlier ones, or makes a new one. -/
theorem ofGroup_concat (xs : List (Registration K)) (x : Registration K) :
    ofGroup (xs ++ [x]) = some (((ofGroup xs).getD x.start).join x) := by
  cases xs with
  | nil => rfl
  | cons y ys => simp [ofGroup, List.foldl_append]

end Entry

namespace Registry

/-- The registry after several registrations, one after the other. -/
def enterAll (r : Registry K) (xs : List (Registration K)) : Registry K :=
  xs.foldl enter r

/-- Each registration is admitted after those before it. -/
def AdmitsAll : Registry K → List (Registration K) → Prop
  | _, [] => True
  | r, x :: xs => r.Admits x ∧ (r.enter x).AdmitsAll xs

/-- Registrations in two parts come one part after the other. -/
theorem enterAll_append (r : Registry K) (xs ys : List (Registration K)) :
    r.enterAll (xs ++ ys) = (r.enterAll xs).enterAll ys :=
  List.foldl_append

/-- Registrations in two parts are admitted part by part. -/
theorem admitsAll_append (r : Registry K) (xs ys : List (Registration K)) :
    r.AdmitsAll (xs ++ ys) ↔ r.AdmitsAll xs ∧ (r.enterAll xs).AdmitsAll ys := by
  induction xs generalizing r with
  | nil => simp [AdmitsAll, enterAll]
  | cons x xs ih =>
    simp only [List.cons_append, AdmitsAll, ih, and_assoc]
    rfl

/-- Registrations leave the settings. -/
@[simp] theorem enterAll_config (r : Registry K) (xs : List (Registration K)) :
    (r.enterAll xs).config = r.config := by
  induction xs generalizing r with
  | nil => rfl
  | cons x xs ih => exact ih (r.enter x)

omit [Scalar K] in
/-- The entry that a registration joins has its name, whether it is a fresh one or not. -/
theorem name_joined (r : Registry K) (x : Registration K) :
    ((r.entry? x.modifier.name).getD x.start).name = x.modifier.name := by
  cases he : r.entry? x.modifier.name with
  | none => rfl
  | some e =>
    have hname := List.find?_some he
    exact beq_iff_eq.mp hname

/-- A registration changes the entry of its name and no other. -/
theorem entry?_enter (r : Registry K) (x : Registration K) (n : String) :
    entry? (r.enter x) n =
      if x.modifier.name = n then some (((r.entry? n).getD x.start).join x)
      else r.entry? n := by
  unfold enter
  rw [Registry.entry?, find?_putEntry, Entry.join_name, name_joined]
  by_cases hn : x.modifier.name = n
  · rw [if_pos hn, if_pos hn, hn]
  · rw [if_neg hn, if_neg hn]
    rfl

/-- A registration adds its name at the end, unless it is there. -/
theorem names_enter (r : Registry K) (x : Registration K) :
    (r.enter x).entries.map (·.name) =
      if x.modifier.name ∈ r.entries.map (·.name) then r.entries.map (·.name)
      else r.entries.map (·.name) ++ [x.modifier.name] := by
  unfold enter
  rw [map_name_putEntry, Entry.join_name, name_joined]

/-- The names of the entries are the registered names in the order of their first
occurrence. -/
theorem names_enterAll_empty (config : Option (MeasurementConfig K))
    (xs : List (Registration K)) :
    ((empty config).enterAll xs).entries.map (·.name) =
      (xs.map (·.modifier.name)).eraseDups := by
  induction xs using List.reverseRecOn with
  | nil => rfl
  | append_singleton xs x ih =>
    rw [enterAll_append, List.map_append, List.eraseDups_append, ← ih]
    change ((((empty config).enterAll xs).enter x).entries.map _) = _
    rw [names_enter]
    have hmem : x.modifier.name ∈ ((empty config).enterAll xs).entries.map (·.name) ↔
        x.modifier.name ∈ xs.map (·.modifier.name) := by
      rw [ih, List.mem_eraseDups]
    by_cases hx : x.modifier.name ∈ xs.map (·.modifier.name)
    · rw [if_pos (hmem.mpr hx)]
      have hnone : [x.modifier.name].removeAll (xs.map (·.modifier.name)) = [] := by
        simpa [List.removeAll] using hx
      rw [List.map_singleton, hnone, List.eraseDups_nil, List.append_nil]
    · rw [if_neg (fun h => hx (hmem.mp h))]
      have hnew : [x.modifier.name].removeAll (xs.map (·.modifier.name)) =
          [x.modifier.name] := by
        simpa [List.removeAll] using hx
      rw [List.map_singleton, hnew]
      rfl

/-- The entry of a name is what the registrations of that name add up to. -/
theorem entry?_enterAll_empty (config : Option (MeasurementConfig K))
    (xs : List (Registration K)) (n : String) :
    entry? ((empty config).enterAll xs) n = Entry.ofGroup (Registration.named n xs) := by
  induction xs using List.reverseRecOn with
  | nil => rfl
  | append_singleton xs x ih =>
    rw [enterAll_append]
    change entry? (((empty config).enterAll xs).enter x) n = _
    rw [entry?_enter, ih, Registration.named, Registration.named, List.filter_append]
    by_cases hn : x.modifier.name = n
    · rw [if_pos hn, List.filter_cons_of_pos (by simpa using hn), List.filter_nil,
        Entry.ofGroup_concat]
    · rw [if_neg hn, List.filter_cons_of_neg (by simpa using hn), List.filter_nil,
        List.append_nil]

/-- Registrations keep the names of the entries distinct. -/
theorem nodup_names_enterAll {r : Registry K} (h : (r.entries.map (·.name)).Nodup)
    (xs : List (Registration K)) : ((r.enterAll xs).entries.map (·.name)).Nodup := by
  induction xs generalizing r with
  | nil => exact h
  | cons x xs ih =>
    refine ih (r := r.enter x) ?_
    rw [names_enter]
    split
    · exact h
    · next hnew => exact List.nodup_append.mpr ⟨h, by simp, by simpa using hnew⟩

/-- Each entry is what some registration and others of its name add up to. -/
theorem mem_entries_enterAll_empty {config : Option (MeasurementConfig K)}
    {xs : List (Registration K)} {e : Entry K} :
    e ∈ ((empty config).enterAll xs).entries ↔
      Entry.ofGroup (Registration.named e.name xs) = some e := by
  have hnodup := nodup_names_enterAll (r := empty config) List.nodup_nil xs
  rw [mem_entries_iff hnodup, entry?_enterAll_empty]

end Registry

namespace Entry

variable {xs : List (Registration K)} {x : Registration K} {e : Entry K}

/-- The entry of registrations of one name that agree has their name and kind, and as many
parameters as each of them asks for. -/
theorem spec_of_ofGroup (hagree : ∀ x ∈ xs, ∀ y ∈ xs, x.Agrees y) (hx : x ∈ xs)
    (he : ofGroup (Registration.named x.modifier.name xs) = some e) :
    e.name = x.modifier.name ∧ e.kind = x.modifier.kind ∧ e.slots = x.slots := by
  obtain ⟨z, zs, hgroup, rfl⟩ := ofGroup_eq_some_iff.mp he
  have hz : z ∈ Registration.named x.modifier.name xs := by
    rw [hgroup]
    exact List.mem_cons_self
  obtain ⟨hzxs, hname⟩ := Registration.mem_named_iff.mp hz
  have hzx := hagree z hzxs x hx
  refine ⟨?_, ?_, ?_⟩
  · rw [foldl_join_name]
    exact hname
  · rw [foldl_join_kind]
    exact (hzx hname).1
  · rw [foldl_join_slots, ← hzx.slots_eq hname]
    rfl

/-- A name that is registered has an entry. -/
theorem exists_ofGroup (hx : x ∈ xs) :
    ∃ e, ofGroup (Registration.named x.modifier.name xs) = some e := by
  have hmem : x ∈ Registration.named x.modifier.name xs :=
    Registration.mem_named_iff.mpr ⟨hx, rfl⟩
  obtain ⟨y, ys, hgroup⟩ := List.exists_cons_of_ne_nil (List.ne_nil_of_mem hmem)
  exact ⟨_, ofGroup_eq_some_iff.mpr ⟨y, ys, hgroup, rfl⟩⟩

/-- A name that has an entry is registered. -/
theorem exists_registration {n : String} (he : ofGroup (Registration.named n xs) = some e) :
    ∃ x ∈ xs, x.modifier.name = n := by
  obtain ⟨z, zs, hgroup, -⟩ := ofGroup_eq_some_iff.mp he
  have hz : z ∈ Registration.named n xs := by
    rw [hgroup]
    exact List.mem_cons_self
  exact ⟨z, Registration.mem_named_iff.mp hz⟩

end Entry

namespace Registry

variable {config : Option (MeasurementConfig K)} {xs : List (Registration K)}

/-- After registrations that agree, a further one is admitted if it agrees with each. -/
theorem admits_enterAll_empty_iff (hagree : ∀ x ∈ xs, ∀ y ∈ xs, x.Agrees y)
    (y : Registration K) :
    ((empty config).enterAll xs).Admits y ↔ ∀ x ∈ xs, x.Agrees y := by
  unfold Admits
  rw [entry?_enterAll_empty]
  constructor
  · intro h x hx hname
    obtain ⟨e, he⟩ := Entry.exists_ofGroup hx
    obtain ⟨-, hkind, hslots⟩ := Entry.spec_of_ofGroup hagree hx he
    obtain ⟨hekind, hebins⟩ := h e (hname ▸ he)
    refine ⟨hkind ▸ hekind, fun hper => ?_⟩
    rw [← hebins (hekind ▸ hkind ▸ hper), hslots, Registration.slots, if_pos hper]
  · intro h e he
    obtain ⟨x, hx, hname⟩ := Entry.exists_registration he
    obtain ⟨-, hkind, hslots⟩ := Entry.spec_of_ofGroup hagree hx (hname ▸ he)
    obtain ⟨hxkind, hxbins⟩ := h x hx hname
    refine ⟨hkind.trans hxkind, fun hper => ?_⟩
    have hxper : x.modifier.kind.isPerBin = true := hxkind ▸ hper
    rw [hslots, Registration.slots, if_pos hxper, hxbins hxper]

/-- Registrations are admitted throughout exactly if any two of them agree, since each one meets the
entries made by all before it. -/
theorem admitsAll_empty_iff :
    (empty config).AdmitsAll xs ↔ ∀ x ∈ xs, ∀ y ∈ xs, x.Agrees y := by
  induction xs using List.reverseRecOn with
  | nil => simp [AdmitsAll]
  | append_singleton xs y ih =>
    rw [admitsAll_append, ih]
    simp only [AdmitsAll, and_true]
    constructor
    · rintro ⟨hxs, hy⟩
      have hall := (admits_enterAll_empty_iff hxs y).mp hy
      intro a ha b hb
      rcases List.mem_append.mp ha with ha | ha <;> rcases List.mem_append.mp hb with hb | hb
      · exact hxs a ha b hb
      · rw [List.mem_singleton.mp hb]
        exact hall a ha
      · rw [List.mem_singleton.mp ha]
        exact (hall b hb).symm
      · rw [List.mem_singleton.mp ha, List.mem_singleton.mp hb]
        exact Registration.Agrees.refl y
    · intro hall
      have hxs : ∀ a ∈ xs, ∀ b ∈ xs, a.Agrees b := fun a ha b hb =>
        hall a (List.mem_append_left _ ha) b (List.mem_append_left _ hb)
      refine ⟨hxs, (admits_enterAll_empty_iff hxs y).mpr fun x hx => ?_⟩
      exact hall x (List.mem_append_left _ hx) y (List.mem_append_right _ (by simp))

end Registry

end BinnedModel
