import Mathlib
import BinnedModel.Proofs.Registry.Grouping

/-!
# Registration in place

A registry may be kept as a store that is changed step by step: entries in a list, an index
from names to their places, sums that grow. A step that has been taken stays taken when a later
one fails, so it matters in which order checks and changes come. In a registration all checks
come first. A registration that fails has therefore changed nothing, and one that succeeds has
made all of its changes; it agrees with the registration that returns a new registry.
-/

namespace BinnedModel

/-- Computations that change a state and may stop with a fault. What has been changed before a
fault stays changed. -/
abbrev InPlace (K σ : Type) : Type → Type :=
  ExceptT (Fault K) (StateM σ)

namespace InPlace

variable {K σ α β : Type}

/-- The outcome of a computation and the state that it leaves. -/
def exec (x : InPlace K σ α) (s : σ) : Except (Fault K) α × σ :=
  x.run s

@[simp] theorem exec_modify (f : σ → σ) (s : σ) :
    exec (modify f : InPlace K σ PUnit) s = (.ok ⟨⟩, f s) := rfl

@[simp] theorem exec_get (s : σ) : exec (get : InPlace K σ σ) s = (.ok s, s) := rfl

/-- An outcome that does not depend on the state leaves the state. -/
@[simp] theorem exec_lift (x : Except (Fault K) α) (s : σ) :
    exec (liftM x : InPlace K σ α) s = (x, s) := rfl

/-- Of two computations the second one starts where the first one ends, if the first one
succeeds. -/
theorem exec_bind (x : InPlace K σ α) (f : α → InPlace K σ β) (s : σ) :
    exec (x >>= f) s = match exec x s with
      | (.ok a, s') => exec (f a) s'
      | (.error e, s') => (.error e, s') := by
  change (ExceptT.bindCont f (exec x s).1 : StateM σ (Except (Fault K) β)) (exec x s).2 = _
  cases exec x s with
  | mk outcome s' => cases outcome <;> rfl

end InPlace

variable {K : Type}

/-- The arguments of a registration: a declaration, the nominal yields of its sample, the global
index of the first bin, and the names of channel and sample. -/
structure Call (K : Type) where
  /-- The declaration. -/
  declaration : Declaration K
  /-- Nominal yields of the sample. -/
  nominal : List K
  /-- Global index of the first bin. Indices are natural numbers; offsets so near to `2 ^ 64` that
  the index of a bin does not fit a machine word are left out. -/
  offset : ℕ
  /-- Name of the channel. -/
  channel : String
  /-- Name of the sample. -/
  sample : String

/-- A registry that is changed in place. -/
structure Store (K : Type) where
  /-- Settings of the selected measurement. -/
  config : Option (MeasurementConfig K)
  /-- The entries in the order of encounter. -/
  entries : List (Entry K)
  /-- The place of the entry of a name. -/
  index : String → Option ℕ

namespace Store

/-- A store without entries. -/
def empty (config : Option (MeasurementConfig K)) : Store K :=
  ⟨config, [], fun _ => none⟩

/-- Add an entry at the end. -/
def push (e : Entry K) (s : Store K) : Store K :=
  { s with entries := s.entries ++ [e] }

/-- Let a name point to the last entry. -/
def pointToLast (name : String) (s : Store K) : Store K :=
  { s with index := Function.update s.index name (some (s.entries.length - 1)) }

/-- Change the entry at a place. -/
def update (i : ℕ) (f : Entry K → Entry K) (s : Store K) : Store K :=
  { s with entries := s.entries.modify i f }

/-- The place of the entry that a modifier joins: that of its name, after a comparison with the
entry there, or that of a fresh entry. -/
def place (m : Modifier K) (x : Call K) : InPlace K (Store K) ℕ := do
  let s ← get
  match s.index m.name with
  | some i =>
    match s.entries[i]? with
    | some e =>
      if e.kind ≠ m.kind then throw (.kindConflict m.name m.kind x.channel x.sample e.kind)
      else if m.kind.isPerBin ∧ e.slots ≠ x.nominal.length then
        throw (.shapeConflict m.name m.kind x.nominal.length x.channel e.slots)
      else return i
    | none => return i
  | none =>
    modify (push (Entry.fresh m.name m.kind x.nominal.length))
    modify (pointToLast m.name)
    let s ← get
    return s.entries.length - 1

variable [Scalar K]

/-- Merge a modifier of a sample into the entry at a place: record the bins, then add to the sums
of the yields and of the squared uncertainties. -/
def merge (i : ℕ) (m : Modifier K) (x : Call K) : InPlace K (Store K) Unit := do
  modify (update i fun e => e.actOn x.offset x.nominal.length)
  match m.payload.uncertainties? with
  | none => return ()
  | some delta =>
    modify (update i fun e => { e with nominal := Entry.addTo e.nominal x.nominal })
    modify (update i fun e =>
      { e with variance := Entry.addTo e.variance (delta.map fun d => d * d) })

/-- Enter the modifier of a declaration: read it, compare it with its sample, find or make its
entry, and merge it into this entry. -/
def register (x : Call K) : InPlace K (Store K) (Modifier K) := do
  let m ← Modifier.ofDeclaration x.declaration
  let _ ← m.checkBins x.channel x.sample x.nominal.length
  let s ← get
  let m := m.withWidth s.config
  let i ← place m x
  merge i m x
  return m

open InPlace

omit [Scalar K] in
/-- A failed search for a place has changed nothing. -/
theorem exec_place_error {m : Modifier K} {x : Call K} {s s' : Store K} {f : Fault K}
    (h : exec (place m x) s = (.error f, s')) : s' = s := by
  unfold place at h
  rw [exec_bind, exec_get] at h
  dsimp only at h
  split at h
  · split at h
    · split at h
      · exact (Prod.mk.inj h).2.symm
      · split at h
        · exact (Prod.mk.inj h).2.symm
        · cases h
    · cases h
  · cases h

/-- A merge does not fail, and does to the entry what the registry does to it. -/
theorem exec_merge (i : ℕ) (m : Modifier K) (x : Call K) (s : Store K) :
    exec (merge i m x) s =
      (.ok (), s.update i fun e => e.absorb m.payload x.nominal x.offset) := by
  unfold merge
  rw [exec_bind, exec_modify]
  dsimp only
  cases hdelta : m.payload.uncertainties? with
  | none =>
    have habsorb : (fun e : Entry K => e.absorb m.payload x.nominal x.offset) =
        fun e => e.actOn x.offset x.nominal.length := by
      funext e
      rw [Entry.absorb, hdelta]
    rw [habsorb]
    rfl
  | some delta =>
    have habsorb : (fun e : Entry K => e.absorb m.payload x.nominal x.offset) =
        fun e => (e.actOn x.offset x.nominal.length).accumulate x.nominal delta := by
      funext e
      rw [Entry.absorb, hdelta]
    dsimp only
    rw [exec_bind, exec_modify, habsorb]
    dsimp only
    rw [exec_modify]
    unfold update
    dsimp only
    rw [List.modify_modify_eq, List.modify_modify_eq]
    rfl

/-- A failed registration has changed nothing. -/
theorem exec_register_error {x : Call K} {s s' : Store K} {f : Fault K}
    (h : exec (register x) s = (.error f, s')) : s' = s := by
  unfold register at h
  rw [exec_bind, exec_lift] at h
  cases hread : Modifier.ofDeclaration x.declaration with
  | error f =>
    rw [hread] at h
    exact (Prod.mk.inj h).2.symm
  | ok m =>
    rw [hread] at h
    dsimp only at h
    rw [exec_bind, exec_lift] at h
    cases hbins : m.checkBins x.channel x.sample x.nominal.length with
    | error f =>
      rw [hbins] at h
      exact (Prod.mk.inj h).2.symm
    | ok u =>
      rw [hbins] at h
      dsimp only at h
      rw [exec_bind, exec_get] at h
      dsimp only at h
      rw [exec_bind] at h
      cases hplace : exec (place (m.withWidth s.config) x) s with
      | mk outcome s₁ =>
        rw [hplace] at h
        cases outcome with
        | error f =>
          obtain rfl := exec_place_error hplace
          exact (Prod.mk.inj h).2.symm
        | ok i =>
          dsimp only at h
          rw [exec_bind, exec_merge] at h
          cases h

/-- The store of a registry: its entries, with each name pointing to the first entry of this
name. -/
def ofRegistry (r : Registry K) : Store K :=
  ⟨r.config, r.entries, fun name => (r.entries.map (·.name)).findIdx? fun n => n == name⟩

omit [Scalar K] in
/-- A registry is found again in its store. -/
theorem ofRegistry_inj {r r' : Registry K} (h : ofRegistry r = ofRegistry r') : r = r' := by
  have hconfig : r.config = r'.config := congrArg Store.config h
  have hentries : r.entries = r'.entries := congrArg Store.entries h
  cases r
  cases r'
  exact congrArg₂ Registry.mk hconfig hentries

omit [Scalar K] in
/-- Where a name points, the first entry of this name stands, and changing it there replaces
it. -/
theorem putEntry_eq_modify {es : List (Entry K)} {name : String} {i : ℕ}
    (h : (es.map (·.name)).findIdx? (fun n => n == name) = some i) :
    ∃ e, (es.find? fun e => e.name == name) = some e ∧ es[i]? = some e ∧
      ∀ g : Entry K → Entry K, (g e).name = name → putEntry (g e) es = es.modify i g := by
  induction es generalizing i with
  | nil => cases h
  | cons y ys ih =>
    rw [List.map_cons, List.findIdx?_cons] at h
    by_cases hy : y.name = name
    · rw [if_pos (beq_iff_eq.mpr hy)] at h
      obtain rfl : 0 = i := Option.some.inj h
      refine ⟨y, List.find?_cons_of_pos (beq_iff_eq.mpr hy), rfl, fun g hg => ?_⟩
      have hsame : (y.name == (g y).name) = true := beq_iff_eq.mpr (hy.trans hg.symm)
      rw [putEntry, if_pos hsame]
      rfl
    · rw [if_neg (by simpa using hy)] at h
      obtain ⟨j, hj, rfl⟩ := Option.map_eq_some_iff.mp h
      obtain ⟨e, hfind, hat, hput⟩ := ih hj
      refine ⟨e, ?_, hat, fun g hg => ?_⟩
      · rw [List.find?_cons_of_neg (by simpa using hy), hfind]
      · have hother : ¬ (y.name == (g e).name) = true := by
          rw [hg]
          simpa using hy
        rw [putEntry, if_neg hother, hput g hg]
        rfl

omit [Scalar K] in
/-- An entry of a new name is put at the end. -/
theorem putEntry_eq_append {es : List (Entry K)} {e : Entry K}
    (h : e.name ∉ es.map (·.name)) : putEntry e es = es ++ [e] := by
  induction es with
  | nil => rfl
  | cons y ys ih =>
    rw [List.map_cons, List.mem_cons, not_or] at h
    have hother : ¬ (y.name == e.name) = true := fun hy => h.1 (beq_iff_eq.mp hy).symm
    rw [putEntry, if_neg hother, ih h.2]
    rfl

/-- A new name at the end points to the end, and all other names point where they did. -/
theorem findIdx?_concat {names : List String} {new : String} (h : new ∉ names) :
    (fun name => (names ++ [new]).findIdx? fun n => n == name) =
      Function.update (fun name => names.findIdx? fun n => n == name) new
        (some names.length) := by
  funext name
  rw [List.findIdx?_append]
  by_cases hname : name = new
  · subst hname
    have hnone : (names.findIdx? fun n => n == name) = none := by
      rw [List.findIdx?_eq_none_iff]
      exact fun n hn => beq_eq_false_iff_ne.mpr fun heq => h (heq ▸ hn)
    rw [hnone, Function.update_self]
    simp
  · rw [Function.update_of_ne hname]
    simp [Ne.symm hname]

omit [Scalar K] in
/-- Where a name of a registry points, the entry of this name stands, and a change of it there
gives the store of the registry with the changed entry. -/
theorem exists_entry_of_index {r : Registry K} {name : String} {i : ℕ}
    (h : (ofRegistry r).index name = some i) :
    ∃ e, r.entry? name = some e ∧ e.name = name ∧ (ofRegistry r).entries[i]? = some e ∧
      ∀ g : Entry K → Entry K, (g e).name = name →
        (ofRegistry r).update i g = ofRegistry { r with entries := putEntry (g e) r.entries } := by
  obtain ⟨e, hfind, hat, hput⟩ := putEntry_eq_modify h
  have hname : e.name = name := by simpa using List.find?_some hfind
  refine ⟨e, hfind, hname, hat, fun g hg => ?_⟩
  have hknown : (g e).name ∈ r.entries.map (·.name) := by
    rw [hg, ← hname]
    exact List.mem_map_of_mem (List.mem_of_find?_eq_some hfind)
  have hnames := map_name_putEntry (g e) r.entries
  rw [if_pos hknown] at hnames
  unfold ofRegistry update
  rw [hnames, hput g hg]

omit [Scalar K] in
/-- If a name points nowhere, the registry has no entry of this name, and a change of an entry
that has been added under this name gives the store of the registry with the changed entry. -/
theorem update_added {r : Registry K} {e : Entry K} (h : (ofRegistry r).index e.name = none) :
    r.entry? e.name = none ∧ ∀ g : Entry K → Entry K, (g e).name = e.name →
      (pointToLast e.name (push e (ofRegistry r))).update r.entries.length g =
        ofRegistry { r with entries := putEntry (g e) r.entries } := by
  have hnew : e.name ∉ r.entries.map (·.name) := by
    intro hmem
    exact absurd (List.findIdx?_eq_none_iff.mp h _ hmem) (by simp)
  constructor
  · refine List.find?_eq_none.mpr fun y hy heq => hnew ?_
    rw [← beq_iff_eq.mp heq]
    exact List.mem_map_of_mem hy
  · intro g hg
    have hput : putEntry (g e) r.entries = r.entries ++ [g e] :=
      putEntry_eq_append (hg ▸ hnew)
    have hmodify : (r.entries ++ [e]).modify r.entries.length g = r.entries ++ [g e] := by
      rw [List.modify_eq_take_drop, List.take_left, List.drop_left]
      rfl
    have hlast : (r.entries ++ [e]).length - 1 = (r.entries.map (·.name)).length := by
      rw [List.length_append, List.length_map]
      rfl
    unfold ofRegistry pointToLast push update
    dsimp only
    rw [hput, hmodify, hlast, List.map_append, List.map_singleton, hg, findIdx?_concat hnew]

omit [Scalar K] in
/-- On the store of a registry the search for a place fails as the registry does, and otherwise
ends where a change of the entry gives the store of the registry with the changed entry. -/
theorem exec_place_ofRegistry (r : Registry K) (m : Modifier K) (x : Call K) :
    match r.entryFor m x.nominal.length x.channel x.sample with
    | .error f => exec (place m x) (ofRegistry r) = (.error f, ofRegistry r)
    | .ok e => e.name = m.name ∧ ∃ i s, exec (place m x) (ofRegistry r) = (.ok i, s) ∧
        ∀ g : Entry K → Entry K, (g e).name = m.name →
          s.update i g = ofRegistry { r with entries := putEntry (g e) r.entries } := by
  unfold Registry.entryFor place
  rw [exec_bind, exec_get]
  dsimp only
  cases hindex : (ofRegistry r).index m.name with
  | some i =>
    obtain ⟨e, hentry, hname, hat, hupdate⟩ := exists_entry_of_index hindex
    dsimp only
    rw [hentry, hat]
    dsimp only
    by_cases hkind : e.kind ≠ m.kind
    · rw [if_pos hkind, if_pos hkind]
      rfl
    rw [if_neg hkind, if_neg hkind]
    by_cases hshape : m.kind.isPerBin = true ∧ e.slots ≠ x.nominal.length
    · rw [if_pos hshape, if_pos hshape]
      rfl
    rw [if_neg hshape, if_neg hshape]
    exact ⟨hname, i, ofRegistry r, rfl, hupdate⟩
  | none =>
    have hadded := update_added (e := Entry.fresh m.name m.kind x.nominal.length) hindex
    obtain ⟨hentry, hupdate⟩ := hadded
    have hname : (Entry.fresh m.name m.kind x.nominal.length : Entry K).name = m.name := rfl
    rw [hname] at hentry
    rw [hentry]
    refine ⟨rfl, (r.entries ++ [Entry.fresh m.name m.kind x.nominal.length]).length - 1, _, rfl, ?_⟩
    rw [List.length_append]
    exact hupdate

/-- On the store of a registry a registration has the outcome that it has on the registry, and
leaves the store of the registry that it leaves. -/
theorem exec_register_ofRegistry (r : Registry K) (x : Call K) :
    exec (register x) (ofRegistry r) =
      match r.register x.declaration x.nominal x.offset x.channel x.sample with
      | .error f => (.error f, ofRegistry r)
      | .ok (m, r') => (.ok m, ofRegistry r') := by
  unfold register Registry.register
  rw [exec_bind, exec_lift]
  cases Modifier.ofDeclaration x.declaration with
  | error f => rfl
  | ok m =>
    dsimp only
    rw [exec_bind, exec_lift]
    cases m.checkBins x.channel x.sample x.nominal.length with
    | error f => rfl
    | ok u =>
      dsimp only
      rw [exec_bind, exec_get]
      dsimp only
      have hentryFor : r.entryFor (m.withWidth r.config) x.nominal.length x.channel x.sample =
          r.entryFor m x.nominal.length x.channel x.sample := by
        rw [Registry.entryFor, Registry.entryFor, Modifier.withWidth_name,
          Modifier.withWidth_kind]
      have hplace := exec_place_ofRegistry r (m.withWidth r.config) x
      rw [hentryFor] at hplace
      rw [exec_bind]
      cases hentry : r.entryFor m x.nominal.length x.channel x.sample with
      | error f =>
        rw [hentry] at hplace
        have hexec : exec (place (m.withWidth (ofRegistry r).config) x) (ofRegistry r) =
          (.error f, ofRegistry r) := hplace
        rw [hexec]
      | ok e =>
        rw [hentry] at hplace
        obtain ⟨hname, i, s, hexec, hupdate⟩ := hplace
        have hexec' : exec (place (m.withWidth (ofRegistry r).config) x) (ofRegistry r) =
          (.ok i, s) := hexec
        have habsorb : ∀ e : Entry K, e.absorb (m.withWidth r.config).payload x.nominal x.offset =
            e.absorb m.payload x.nominal x.offset := by
          intro e
          rw [Entry.absorb, Entry.absorb, Modifier.withWidth_uncertainties?]
        have hput := hupdate (fun e => e.absorb m.payload x.nominal x.offset)
          ((Entry.join_name e ⟨m, x.nominal, x.offset⟩).trans hname)
        rw [hexec']
        dsimp only
        rw [exec_bind, exec_merge]
        dsimp only
        rw [← hput]
        have hconfig : (ofRegistry r).config = r.config := rfl
        rw [hconfig]
        simp only [habsorb]
        rfl

end Store

end BinnedModel
