import Mathlib
import BinnedModel.Proofs.Registry.Representation
import BinnedModel.Scalar.Binary64

/-!
# Addresses that hit

A store reaches its entries, their records and their sums by address, and so does the making of its
table. Here registration and table are stated once more with every read spelled out: the loops over
the bins go from address to address, and a read at an address where nothing stands leaves the whole
computation without an outcome. On a sound store no read misses, and the computations have the
outcomes and leave the states of the plain ones. Every store that calls lead to is sound.
-/

namespace BinnedModel

/-- Computations that change a state, may stop with a fault, and have no outcome at all after a read
that misses. -/
abbrev Addressed (K σ : Type) : Type → Type :=
  ExceptT (Fault K) (StateT σ Option)

namespace Addressed

variable {K σ α β : Type}

/-- The outcome of a computation and the state that it leaves, unless a read misses. -/
def exec? (x : Addressed K σ α) (s : σ) : Option (Except (Fault K) α × σ) :=
  x.run s

/-- Take what a read has found. -/
def read (found : Option α) : Addressed K σ α :=
  liftM found

/-- A computation misses no read, and has the outcome and leaves the state of another one that
makes no reads. -/
def Hits (x : Addressed K σ α) (y : InPlace K σ α) (s : σ) : Prop :=
  exec? x s = some (InPlace.exec y s)

theorem hits_pure (a : α) (s : σ) : Hits (pure a : Addressed K σ α) (pure a) s := rfl

theorem hits_throw (f : Fault K) (s : σ) :
    Hits (throw f : Addressed K σ α) (throw f : InPlace K σ α) s := rfl

theorem hits_lift (x : Except (Fault K) α) (s : σ) :
    Hits (liftM x : Addressed K σ α) (liftM x) s := rfl

theorem hits_get (s : σ) : Hits (get : Addressed K σ σ) get s := rfl

/-- A read that hits does nothing but yield what it has found. -/
theorem hits_read {found : Option α} {a : α} (h : found = some a) (s : σ) :
    Hits (read found : Addressed K σ α) (pure a) s := by
  rw [h]
  rfl

/-- Of two computations the second one starts where the first one ends, if the first one
succeeds. -/
theorem exec?_bind (x : Addressed K σ α) (f : α → Addressed K σ β) (s : σ) :
    exec? (x >>= f) s = (exec? x s).bind fun
      | (.ok a, s') => exec? (f a) s'
      | (.error e, s') => some (.error e, s') := by
  change (exec? x s).bind (fun p => (ExceptT.bindCont f p.1 : StateT σ Option _) p.2) = _
  congr 1
  funext p
  obtain ⟨outcome, s'⟩ := p
  cases outcome <;> rfl

/-- Computations miss no read one after the other if the first one misses none and the second one
misses none where the first one succeeds. -/
theorem Hits.bind {x : Addressed K σ α} {y : InPlace K σ α} {f : α → Addressed K σ β}
    {g : α → InPlace K σ β} {s : σ} (h : Hits x y s)
    (hnext : ∀ a s', InPlace.exec y s = (.ok a, s') → Hits (f a) (g a) s') :
    Hits (x >>= f) (y >>= g) s := by
  unfold Hits
  rw [exec?_bind, h, InPlace.exec_bind]
  cases hy : InPlace.exec y s with
  | mk outcome s' =>
    cases outcome with
    | error e => rfl
    | ok a => exact hnext a s' hy

/-- A read that hits may be left out. -/
theorem Hits.read_bind {found : Option α} {a : α} (h : found = some a)
    {f : α → Addressed K σ β} {y : InPlace K σ β} {s : σ} (hnext : Hits (f a) y s) :
    Hits (read found >>= f) y s := by
  unfold Hits
  rw [exec?_bind, hits_read h s]
  exact hnext

/-- A look at the state may be left out. -/
theorem Hits.get_bind {f : σ → Addressed K σ β} {y : InPlace K σ β} {s : σ}
    (hnext : Hits (f s) y s) : Hits (get >>= f) y s := by
  unfold Hits
  rw [exec?_bind, hits_get s]
  exact hnext

/-- Computations that begin with the same outcome miss no read if what follows on a success misses
none. -/
theorem Hits.lift_bind {x : Except (Fault K) α} {f : α → Addressed K σ β}
    {g : α → InPlace K σ β} {s : σ} (hnext : ∀ a, x = .ok a → Hits (f a) (g a) s) :
    Hits (liftM x >>= f) (liftM x >>= g) s := by
  refine (hits_lift x s).bind fun a s' hx => ?_
  rw [InPlace.exec_lift] at hx
  obtain ⟨hok, rfl⟩ := Prod.mk.inj hx
  exact hnext a hok

/-- A traversal whose steps miss no read misses none. -/
theorem hits_mapM {f : α → Addressed K σ β} {g : α → Except (Fault K) β} {xs : List α} {s : σ}
    (h : ∀ x ∈ xs, Hits (f x) (liftM (g x)) s) : Hits (xs.mapM f) (liftM (xs.mapM g)) s := by
  induction xs with
  | nil => rfl
  | cons x xs ih =>
    obtain ⟨hx, hxs⟩ := List.forall_mem_cons.mp h
    unfold Hits at *
    rw [List.mapM_cons, List.mapM_cons, exec?_bind, hx, InPlace.exec_lift, InPlace.exec_lift]
    cases g x with
    | error e => rfl
    | ok b =>
      dsimp only [Option.bind_some]
      rw [exec?_bind, ih hxs, InPlace.exec_lift]
      cases xs.mapM g <;> rfl

end Addressed

variable {K : Type}

/-- Behind the items that a loop has passed it reads the next one, and what it writes there joins
the items that it has passed. -/
theorem getElem?_and_set_behind {α : Type} (done : List α) (a b : α) (rest : List α) :
    (done ++ a :: rest)[done.length]? = some a ∧
      (done ++ a :: rest).set done.length b = done ++ [b] ++ rest := by
  simp

namespace Entry

/-- Record one bin, given by its place in its sample, at the address of its parameter. -/
def recordAt (address : ℕ → ℕ) (offset : ℕ) (records : List (List ℕ)) (k : ℕ) :
    Option (List (List ℕ)) :=
  records[address k]?.map fun bs => records.set (address k) (insertBin bs (offset + k))

/-- Record the bins of a sample one after the other: each at its own address, or all of them at the
first one. -/
def actAt (e : Entry K) (kind : ModifierKind) (offset bins : ℕ) : Option (Entry K) :=
  ((List.range bins).foldlM (recordAt (fun k => if kind.isPerBin then k else 0) offset) e.bins).map
    fun records => { e with bins := records }

/-- If each bin has its own address, each record gets one bin, behind records that have got
theirs. -/
theorem foldlM_recordAt (offset : ℕ) (done rest : List (List ℕ)) :
    (List.range' done.length rest.length).foldlM (recordAt (fun k => k) offset) (done ++ rest) =
      some (done ++ rest.mapIdx fun k bs => insertBin bs (offset + (done.length + k))) := by
  induction rest generalizing done with
  | nil => rfl
  | cons bs rest ih =>
    obtain ⟨hread, hset⟩ :=
      getElem?_and_set_behind done bs (insertBin bs (offset + done.length)) rest
    have hstep : recordAt (fun k => k) offset (done ++ bs :: rest) done.length =
        some (done ++ [insertBin bs (offset + done.length)] ++ rest) := by
      unfold recordAt
      rw [hread, Option.map_some, hset]
    have hnext := ih (done ++ [insertBin bs (offset + done.length)])
    rw [List.length_append, List.length_singleton] at hnext
    rw [List.length_cons, List.range'_succ, List.foldlM_cons, hstep]
    dsimp only [Option.bind_eq_bind, Option.bind_some]
    rw [hnext, List.mapIdx_cons, List.append_assoc]
    simp only [List.singleton_append, Nat.add_zero, Nat.add_assoc, Nat.add_comm 1]

/-- If all bins have the first address, the first record gets them all. -/
theorem foldlM_recordAt_zero (offset : ℕ) (ks bs : List ℕ) :
    ks.foldlM (recordAt (fun _ => 0) offset) [bs] =
      some [ks.foldl (fun bs k => insertBin bs (offset + k)) bs] := by
  induction ks generalizing bs with
  | nil => rfl
  | cons k ks ih => exact ih (insertBin bs (offset + k))

/-- The address of each bin is that of a record. -/
theorem Joins.actAt_eq {e : Entry K} {x : Registration K} (h : e.Joins x) :
    e.actAt x.modifier.kind x.offset x.nominal.length =
      some (e.actOn x.offset x.nominal.length) := by
  unfold actAt actOn
  rw [h.kind]
  by_cases hper : x.modifier.kind.isPerBin = true
  · have hlength : x.nominal.length = e.bins.length := (h.slots hper).symm.trans h.bins.symm
    have hloop := foldlM_recordAt x.offset [] e.bins
    simp only [List.length_nil, List.nil_append, Nat.zero_add] at hloop
    simp only [if_pos hper]
    rw [hlength, List.range_eq_range', hloop]
    rfl
  · have hsingle : e.bins.length = 1 :=
      h.bins.trans (h.single (h.kind ▸ Bool.eq_false_of_not_eq_true hper))
    obtain ⟨bs, hbs⟩ := List.length_eq_one_iff.mp hsingle
    simp only [if_neg hper]
    rw [hbs, foldlM_recordAt_zero]
    rfl

variable [Scalar K]

/-- Add the yield and the squared uncertainty of one bin to both sums, at the address of this
bin. -/
def addAt (sums : List K × List K) (summand : (K × K) × ℕ) : Option (List K × List K) := do
  let ((nominal, delta), k) := summand
  let a ← sums.1[k]?
  let b ← sums.2[k]?
  return (sums.1.set k (a + nominal), sums.2.set k (b + delta * delta))

/-- Add the yields and the squared uncertainties of a sample bin by bin. Both sums start as zeros,
when the first one has not been begun. -/
def accumulateAt (e : Entry K) (nominal delta : List K) : Option (Entry K) :=
  let zeros := List.replicate nominal.length 0
  let sums := if e.nominal.isEmpty then (zeros, zeros) else (e.nominal, e.variance)
  ((nominal.zip delta).zipIdx.foldlM addAt sums).map fun sums =>
    { e with nominal := sums.1, variance := sums.2 }

/-- If both sums have the length of the summands, each of their items gets one summand, behind items
that have got theirs. -/
theorem foldlM_addAt (done done' : List K) {rest rest' nominal delta : List K}
    (hdone : done'.length = done.length) (hrest : rest.length = nominal.length)
    (hrest' : rest'.length = nominal.length) (hdelta : delta.length = nominal.length) :
    ((nominal.zip delta).zipIdx done.length).foldlM addAt (done ++ rest, done' ++ rest') =
      some (done ++ List.zipWith (· + ·) rest nominal,
        done' ++ List.zipWith (· + ·) rest' (delta.map fun d => d * d)) := by
  induction nominal generalizing done done' rest rest' delta with
  | nil =>
    obtain rfl := List.length_eq_zero_iff.mp hrest
    obtain rfl := List.length_eq_zero_iff.mp hrest'
    obtain rfl := List.length_eq_zero_iff.mp hdelta
    rfl
  | cons n nominal ih =>
    obtain ⟨a, rest, rfl⟩ := List.exists_cons_of_length_eq_add_one hrest
    obtain ⟨b, rest', rfl⟩ := List.exists_cons_of_length_eq_add_one hrest'
    obtain ⟨d, delta, rfl⟩ := List.exists_cons_of_length_eq_add_one hdelta
    obtain ⟨hread, hset⟩ := getElem?_and_set_behind done a (a + n) rest
    obtain ⟨hread', hset'⟩ := getElem?_and_set_behind done' b (b + d * d) rest'
    rw [hdone] at hread' hset'
    have hstep : addAt (done ++ a :: rest, done' ++ b :: rest') ((n, d), done.length) =
        some (done ++ [a + n] ++ rest, done' ++ [b + d * d] ++ rest') := by
      unfold addAt
      dsimp only [Option.bind_eq_bind]
      rw [hread, hread']
      dsimp only [Option.bind_some]
      rw [hset, hset']
      rfl
    have hdone' : (done' ++ [b + d * d]).length = (done ++ [a + n]).length := by
      rw [List.length_append, List.length_append, hdone]
      rfl
    have hnext := ih (done ++ [a + n]) (done' ++ [b + d * d]) hdone' (Nat.succ.inj hrest)
      (Nat.succ.inj hrest') (Nat.succ.inj hdelta)
    rw [List.length_append, List.length_singleton] at hnext
    rw [List.zip_cons_cons, List.zipIdx_cons, List.foldlM_cons, hstep]
    dsimp only [Option.bind_eq_bind, Option.bind_some]
    rw [hnext, List.append_assoc, List.append_assoc]
    rfl

/-- If there is one uncertainty per bin, and one item per bin in each sum that is begun, the address
of each summand is that of an item of both sums. -/
theorem accumulateAt_eq {e : Entry K} {nominal delta : List K}
    (hlength : delta.length = nominal.length)
    (hsums : (e.nominal = [] ∧ e.variance = []) ∨
      e.nominal.length = nominal.length ∧ e.variance.length = nominal.length) :
    e.accumulateAt nominal delta = some (e.accumulate nominal delta) := by
  have hloop : ∀ a b : List K, a.length = nominal.length → b.length = nominal.length →
      ((nominal.zip delta).zipIdx.foldlM addAt (a, b)) =
        some (List.zipWith (· + ·) a nominal,
          List.zipWith (· + ·) b (delta.map fun d => d * d)) := fun a b ha hb =>
    foldlM_addAt [] [] rfl ha hb hlength
  unfold accumulateAt accumulate addTo
  dsimp only
  by_cases hempty : e.nominal = []
  · have hempty' : e.variance = [] := by
      rcases hsums with ⟨-, hempty'⟩ | ⟨hnominal, hvariance⟩
      · exact hempty'
      · rw [hempty] at hnominal
        exact List.length_eq_zero_iff.mp (hvariance.trans hnominal.symm)
    have hzeros : (List.replicate nominal.length (0 : K)).length = nominal.length :=
      List.length_replicate
    rw [hempty, hempty', if_pos List.isEmpty_nil, if_pos List.isEmpty_nil, if_pos List.isEmpty_nil,
      hloop _ _ hzeros hzeros, List.map_const', List.map_const', List.length_map, hlength]
    rfl
  · obtain ⟨hnominal, hvariance⟩ := hsums.resolve_left fun hboth => hempty hboth.1
    have hempty' : e.variance ≠ [] := by
      rw [← List.length_pos_iff, hvariance, ← hnominal]
      exact List.length_pos_iff.mpr hempty
    rw [if_neg (by simpa using hempty), if_neg (by simpa using hempty),
      if_neg (by simpa using hempty'), hloop _ _ hnominal hvariance]
    rfl

end Entry

namespace Store

open Addressed

/-- The search for the place of the entry that a modifier joins, with the read of the entry to which
its name points. -/
def placeAt (m : Modifier K) (x : Call K) : Addressed K (Store K) ℕ := do
  let s ← get
  match s.index m.name with
  | some i =>
    let e ← read s.entries[i]?
    if e.kind ≠ m.kind then throw (.kindConflict m.name m.kind x.channel x.sample e.kind)
    else if m.kind.isPerBin ∧ e.slots ≠ x.nominal.length then
      throw (.shapeConflict m.name m.kind x.nominal.length x.channel e.slots)
    else return i
  | none =>
    modify (push (Entry.fresh m.name m.kind x.nominal.length))
    modify (pointToLast m.name)
    let s ← get
    return s.entries.length - 1

/-- On a sound store the search for a place misses nothing: a name points to an entry. -/
theorem Sound.hits_placeAt {s : Store K} (h : s.Sound) (m : Modifier K) (x : Call K) :
    Hits (placeAt m x) (place m x) s := by
  unfold placeAt place
  refine (hits_get s).bind fun s₁ s₂ hget => ?_
  cases hget
  cases hindex : s.index m.name with
  | none => rfl
  | some i =>
    obtain ⟨e, he, -⟩ := (h.index m.name i).mp hindex
    dsimp only
    rw [he]
    refine Hits.read_bind rfl ?_
    dsimp only
    split
    · exact hits_throw _ s
    · split
      · exact hits_throw _ s
      · exact hits_pure i s

/-- On a sound store the search for a place that succeeds leaves there an entry into which the
modifier can be merged. -/
theorem Sound.exists_joins {s s' : Store K} (h : s.Sound) {m : Modifier K} {x : Call K} {i : ℕ}
    (hfits : m.Fits x.nominal.length) (hplace : InPlace.exec (place m x) s = (.ok i, s')) :
    ∃ e, s'.entries[i]? = some e ∧ e.Joins ⟨m, x.nominal, x.offset⟩ := by
  unfold place at hplace
  rw [InPlace.exec_bind, InPlace.exec_get] at hplace
  dsimp only at hplace
  cases hindex : s.index m.name with
  | some j =>
    obtain ⟨e, he, -⟩ := (h.index m.name j).mp hindex
    rw [hindex] at hplace
    dsimp only at hplace
    rw [he] at hplace
    dsimp only at hplace
    split at hplace
    · cases hplace
    · next hkind =>
      split at hplace
      · cases hplace
      · next hshape =>
        cases hplace
        rw [not_and_not_right] at hshape
        exact ⟨e, he, (h.entries e (List.mem_of_getElem? he)).joins (not_not.mp hkind) hshape hfits⟩
  | none =>
    rw [hindex] at hplace
    cases hplace
    have hlast : (pointToLast m.name
        (push (Entry.fresh m.name m.kind x.nominal.length) s)).entries.length - 1 =
          s.entries.length := by simp [pointToLast, push]
    rw [hlast]
    exact ⟨_, List.getElem?_concat_length, Entry.joins_start (x := ⟨m, x.nominal, x.offset⟩) hfits⟩

variable [Scalar K]

/-- The merge of a modifier of a sample into the entry at a place, with the reads of the entry, of
its records and of its sums. -/
def mergeAt (i : ℕ) (m : Modifier K) (x : Call K) : Addressed K (Store K) Unit := do
  let s ← get
  let e ← read s.entries[i]?
  let e ← read (e.actAt m.kind x.offset x.nominal.length)
  match m.payload.uncertainties? with
  | none => modify (update i fun _ => e)
  | some delta =>
    let e ← read (e.accumulateAt x.nominal delta)
    modify (update i fun _ => e)

omit [Scalar K] in
/-- An entry is changed to what the change makes of the entry that stands there. -/
theorem update_eq_of_getElem? {s : Store K} {i : ℕ} {e : Entry K} (h : s.entries[i]? = some e)
    (f : Entry K → Entry K) : s.update i f = s.update i fun _ => f e := by
  have hentries : s.entries.modify i f = s.entries.modify i fun _ => f e := by
    refine List.ext_getElem? fun j => ?_
    rw [List.getElem?_modify, List.getElem?_modify]
    by_cases hj : i = j
    · subst hj
      rw [h]
      simp
    · simp only [if_neg hj]
  unfold update
  rw [hentries]

/-- The merge of a modifier into an entry that it can be merged into misses nothing. -/
theorem hits_mergeAt {s : Store K} {i : ℕ} {m : Modifier K} {x : Call K} {e : Entry K}
    (he : s.entries[i]? = some e) (h : e.Joins ⟨m, x.nominal, x.offset⟩) :
    Hits (mergeAt i m x) (merge i m x) s := by
  have hmerge := exec_merge i m x s
  rw [update_eq_of_getElem? he, Entry.absorb] at hmerge
  refine Hits.get_bind (Hits.read_bind he (Hits.read_bind h.actAt_eq ?_))
  cases hdelta : m.payload.uncertainties? with
  | none =>
    rw [hdelta] at hmerge
    unfold Hits
    rw [hmerge]
    rfl
  | some delta =>
    rw [hdelta] at hmerge
    obtain ⟨hlength, -, hsums⟩ := h.begun hdelta
    have hsame : (e.actOn x.offset x.nominal.length).nominal = e.nominal ∧
        (e.actOn x.offset x.nominal.length).variance = e.variance := by
      unfold Entry.actOn
      split <;> exact ⟨rfl, rfl⟩
    rw [← hsame.1, ← hsame.2] at hsums
    refine Hits.read_bind (Entry.accumulateAt_eq hlength hsums) ?_
    unfold Hits
    rw [hmerge]
    rfl

/-- The registration of a declaration with every read of the store spelled out. -/
def registerAt (x : Call K) : Addressed K (Store K) (Modifier K) := do
  let m ← Modifier.ofDeclaration x.declaration
  let _ ← m.checkBins x.channel x.sample x.nominal.length
  let s ← get
  let m := m.withWidth s.config
  let i ← placeAt m x
  mergeAt i m x
  return m

/-- On a sound store a registration misses nothing, whatever its arguments. -/
theorem Sound.hits_registerAt {s : Store K} (h : s.Sound) (x : Call K) :
    Hits (registerAt x) (Store.register x) s := by
  unfold registerAt Store.register
  refine Hits.lift_bind fun m hread => Hits.lift_bind fun u hbins => ?_
  refine (hits_get s).bind fun s₁ s₂ hget => ?_
  cases hget
  refine (h.hits_placeAt (m.withWidth s.config) x).bind fun i s' hplace => ?_
  have hfits : (m.withWidth s.config).Fits x.nominal.length :=
    (Modifier.withWidth_fits s.config m _).mpr (Modifier.checkBins_eq_ok_iff.mp hbins)
  obtain ⟨e, he, hjoins⟩ := h.exists_joins hfits hplace
  exact (hits_mergeAt he hjoins).bind fun _ s'' _ => hits_pure (m.withWidth s.config) s''

end Store

namespace Entry

variable {σ : Type} [Scalar K]

open Addressed

/-- The `k`-th parameter, with the read of its bins, which comes when its prior has been made. -/
def parameterAt (e : Entry K) (settings : Option (ParameterConfig K)) (o : Options K) (k : ℕ) :
    Addressed K σ (Parameter K) := do
  let p ← e.parameter settings o k
  let bins ← read e.bins[k]?
  return { p with bins := bins }

/-- The making of a parameter misses nothing if there is a record of its bins. -/
theorem hits_parameterAt {e : Entry K} {k : ℕ} (hk : k < e.bins.length)
    (settings : Option (ParameterConfig K)) (o : Options K) (s : σ) :
    Hits (e.parameterAt settings o k) (liftM (e.parameter settings o k)) s := by
  have hread : e.bins[k]? = some e.bins[k] := List.getElem?_eq_getElem hk
  rw [← bind_pure (liftM (e.parameter settings o k) : InPlace K σ (Parameter K))]
  refine Hits.lift_bind fun p hp => Hits.read_bind hread ?_
  have hbins : e.bins[k] = p.bins := by
    rw [(parameter_label hp).2.2.2, List.getD_eq_getElem?_getD, hread]
    rfl
  rw [hbins]
  exact hits_pure p s

end Entry

namespace Store

open Addressed

variable [Scalar K]

/-- The making of the table, with the reads of the bins of all parameters. -/
def tableAt (o : Options K) : Addressed K (Store K) (ParameterTable K) := do
  let s ← get
  let blocks ← s.entries.mapM fun e =>
    (List.range e.slots).mapM (e.parameterAt (s.registry.settings? e.name) o)
  return { parameters := blocks.flatten
           starts := (s.entries.map (·.name)).zip (blockStarts 0 (blocks.map (·.length))) }

/-- On a sound store the making of the table misses nothing, and leaves the store. -/
theorem Sound.hits_tableAt {s : Store K} (h : s.Sound) (o : Options K) :
    Hits (tableAt o) (liftM (s.registry.table o)) s := by
  refine Hits.get_bind ?_
  have hblock : ∀ e ∈ s.entries, Hits
      ((List.range e.slots).mapM (e.parameterAt (s.registry.settings? e.name) o))
      (liftM (e.parameters (s.registry.settings? e.name) o)) s := by
    intro e he
    refine hits_mapM fun k hk => Entry.hits_parameterAt ?_ _ o s
    rw [(h.entries e he).bins]
    exact List.mem_range.mp hk
  have htable : (liftM (s.registry.table o) : InPlace K (Store K) (ParameterTable K)) =
      liftM (s.entries.mapM fun e => e.parameters (s.registry.settings? e.name) o) >>=
        fun blocks => pure
          { parameters := blocks.flatten
            starts := (s.entries.map (·.name)).zip (blockStarts 0 (blocks.map (·.length))) } := by
    have hentries : s.registry.entries = s.entries := rfl
    unfold Registry.table
    rw [hentries]
    cases s.entries.mapM fun e => e.parameters (s.registry.settings? e.name) o <;> rfl
  rw [htable]
  exact (hits_mapM hblock).bind fun blocks s' _ => hits_pure _ s'

/-- Whatever calls have been made of a store that starts without entries, and whichever of them have
been refused, the store is sound: names, index, entries, records and sums belong together. It keeps
the registry that the calls lead to, with one entry per name that an accepted call declares. Neither
a further registration, whatever its arguments, nor the making of a table, under whatever options,
reads at an address where nothing stands, and a table has as many parameters as the entries
announce. -/
theorem sound_after_calls {config : Option (MeasurementConfig K)} {calls : List (Call K)}
    {outcomes : List (Except (Fault K) Unit)} {s : Store K}
    (h : performAll Store.register (calls.map .register) (empty config) = (outcomes, s)) :
    s.Sound ∧
      Request.enterAll (calls.map .register) (Registry.empty config) = (outcomes, s.registry) ∧
      s.registry.size =
        ((Call.accepted calls outcomes).map (·.declaration.name)).toFinset.card ∧
      (∀ x, exec? (registerAt x) s = some (InPlace.exec (Store.register x) s)) ∧
      (∀ o, exec? (tableAt o) s = some (s.registry.table o, s)) ∧
      ∀ o t, s.registry.table o = .ok t → t.parameters.length = s.registry.slots := by
  have hsound : s.Sound := by
    have hcalls := (sound_empty config).calls calls
    rw [h] at hcalls
    exact hcalls
  have hentered : Request.enterAll (calls.map .register) (Registry.empty config) =
      (outcomes, s.registry) := by
    have hrun := Request.performAll_eq_enterAll (calls.map .register) (Registry.empty config)
    have hempty : ofRegistry (Registry.empty config) = empty config := rfl
    rw [hempty, h, Prod.mk.injEq, hsound.eq_ofRegistry.1] at hrun
    exact Prod.ext hrun.1.symm (ofRegistry_inj hrun.2).symm
  exact ⟨hsound, hentered, Registry.size_eq_card hentered, hsound.hits_registerAt,
    hsound.hits_tableAt, fun o t htable => Registry.length_parameters htable⟩

/-- Two samples of one channel with uncertainties under one name, a free factor, the same name with
another kind, and the first name again with other numbers of bins. -/
def contested : List (Call Float) :=
  [⟨.staterror "counts" [1, 2], [10, 20], 0, "region", "signal"⟩,
    ⟨.normfactor "mu", [10, 20], 0, "region", "signal"⟩,
    ⟨.staterror "counts" [3, 4], [30, 40], 0, "region", "background"⟩,
    ⟨.shapefactor "mu", [30, 40], 0, "region", "background"⟩,
    ⟨.staterror "counts" [5], [50], 2, "other", "background"⟩]

/-- The last two of the five calls are refused. The store that is left has two entries with three
parameters, and a further call and the making of a table reach them by address. -/
theorem sound_after_contested : ∃ (outcomes : List (Except (Fault Float) Unit)) (s : Store Float),
    performAll Store.register (contested.map .register) (empty none) = (outcomes, s) ∧
      s.Sound ∧ outcomes.map (·.toOption.isSome) = [true, true, true, false, false] ∧
      s.registry.size = 2 ∧ s.registry.slots = 3 ∧
      (∀ x, exec? (registerAt x) s = some (InPlace.exec (Store.register x) s)) ∧
      ∃ t, exec? (tableAt Options.standard) s = some (.ok t, s) ∧ t.parameters.length = 3 := by
  let run := performAll Store.register (contested.map .register) (empty none)
  have houtcomes : run.1.map (·.toOption.isSome) = [true, true, true, false, false] := by
    decide +kernel
  have hsize : run.2.registry.size = 2 := by decide +kernel
  have hslots : run.2.registry.slots = 3 := by decide +kernel
  have hmade : (run.2.registry.table Options.standard).toOption.isSome = true := by decide +kernel
  have hrun : performAll Store.register (contested.map .register) (empty none) = run := rfl
  clear_value run
  obtain ⟨outcomes, s⟩ := run
  obtain ⟨hsound, -, -, hregister, htable, hlength⟩ := sound_after_calls hrun
  obtain ⟨t, ht⟩ := Option.isSome_iff_exists.mp hmade
  rw [toOption_eq_some_iff] at ht
  refine ⟨outcomes, s, hrun, hsound, houtcomes, hsize, hslots, hregister, t, ?_, ?_⟩
  · rw [htable, ht]
  · rw [hlength _ _ ht, hslots]

end Store

end BinnedModel
