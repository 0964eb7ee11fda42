import Mathlib
import BinnedModel.Model.Plan
import BinnedModel.Proofs.Registry.InPlace
import BinnedModel.Scalar.Binary64

/-!
# What failed requests leave behind

A registry is used by single registrations and by the readings of samples and channels, which
make many of them and check the form of what they read in between. Any of these may fail, at
any point. Seen from the registry a request is a list of steps, each of which is a registration
or a refusal, and it is followed up to the first step that fails. A registration that fails
changes nothing, so a registry is at all times what the registrations make of it that have
succeeded, in their order.
-/

namespace BinnedModel

open InPlace

variable {K σ α β : Type}

section Readings

variable (register : Call K → InPlace K σ (Modifier K))

/-- The registrations of a sample of a channel, in the order of its declarations. -/
def Sample.calls (s : Sample K) (channel : String) (offset : ℕ) : List (Call K) :=
  s.modifiers.map fun d => ⟨d, s.data, offset, channel, s.name⟩

/-- Read a sample: enter its declarations one after the other. -/
def Sample.readBy (s : Sample K) (channel : String) (offset : ℕ) :
    InPlace K σ (SamplePlan K) := do
  let modifiers ← (s.calls channel offset).mapM register
  return ⟨s.data, modifiers⟩

/-- Read samples of a channel one after the other; `seen` holds the names met before. -/
def Channel.readSamplesBy (c : Channel K) (bins offset : ℕ) (seen : List String) :
    List (Sample K) → InPlace K σ (List (String × SamplePlan K))
  | [] => return []
  | s :: ss =>
    if seen.contains s.name then throw (.duplicateSample c.name s.name)
    else if s.data.length ≠ bins then
      throw (.binCountMismatch c.name (.sample s.name) bins s.data.length)
    else do
      let plan ← s.readBy register c.name offset
      let rest ← readSamplesBy c bins offset (s.name :: seen) ss
      return (s.name, plan) :: rest

/-- Read a channel: its first sample fixes the number of bins. -/
def Channel.readBy (c : Channel K) (offset : ℕ) : InPlace K σ (ChannelPlan K) :=
  match c.samples with
  | [] => throw (.invalid (.noSamples c.name))
  | first :: _ =>
    if first.data.isEmpty then throw (.invalid (.noBins c.name))
    else do
      let samples ← c.readSamplesBy register first.data.length offset [] c.samples
      return ⟨c.name, offset, first.data.length, samples⟩

end Readings

/-- What is asked of a registry from outside. -/
inductive Request (K : Type) where
  /-- Enter one declaration. -/
  | register (x : Call K)
  /-- Read a sample of a channel whose first bin has the given global index. -/
  | sample (s : Sample K) (channel : String) (offset : ℕ)
  /-- Read a channel whose first bin has the given global index. -/
  | channel (c : Channel K) (offset : ℕ)

/-- Carry out a request in place. -/
def Request.performBy (register : Call K → InPlace K σ (Modifier K)) : Request K → InPlace K σ Unit
  | .register x => do let _ ← register x
  | .sample s name offset => do let _ ← s.readBy register name offset
  | .channel c offset => do let _ ← c.readBy register offset

/-- The outcomes of requests one after the other, and the state that they leave. A request that
fails does not keep the next one from being made. -/
def performAll (register : Call K → InPlace K σ (Modifier K)) :
    List (Request K) → σ → List (Except (Fault K) Unit) × σ
  | [], s => ([], s)
  | q :: qs, s =>
    let (outcome, s) := exec (q.performBy register) s
    let (outcomes, s) := performAll register qs s
    (outcome :: outcomes, s)

/-- A step of a request. -/
inductive Step (K : Type) where
  /-- A refusal for the form of what is read. -/
  | refuse (f : Fault K)
  /-- A registration. -/
  | call (x : Call K)

/-- The steps of reading samples, sample after sample and declaration after declaration. -/
def Channel.sampleSteps (c : Channel K) (bins offset : ℕ) (seen : List String) :
    List (Sample K) → List (Step K)
  | [] => []
  | s :: ss =>
    if seen.contains s.name then [.refuse (.duplicateSample c.name s.name)]
    else if s.data.length ≠ bins then
      [.refuse (.binCountMismatch c.name (.sample s.name) bins s.data.length)]
    else (s.calls c.name offset).map .call ++ sampleSteps c bins offset (s.name :: seen) ss

/-- The steps of reading a channel. -/
def Channel.steps (c : Channel K) (offset : ℕ) : List (Step K) :=
  match c.samples with
  | [] => [.refuse (.invalid (.noSamples c.name))]
  | first :: _ =>
    if first.data.isEmpty then [.refuse (.invalid (.noBins c.name))]
    else c.sampleSteps first.data.length offset [] c.samples

/-- The steps of a request. -/
def Request.steps : Request K → List (Step K)
  | .register x => [.call x]
  | .sample s name offset => (s.calls name offset).map .call
  | .channel c offset => c.steps offset

/-- Follow steps up to the first one that fails. -/
def follow (register : Call K → InPlace K σ (Modifier K)) : List (Step K) → InPlace K σ Unit
  | [] => return ()
  | .refuse f :: _ => throw f
  | .call x :: rest => do
    let _ ← register x
    follow register rest

section Follow

variable (register : Call K → InPlace K σ (Modifier K))

/-- Steps are followed one part after the other. -/
theorem follow_append (xs ys : List (Step K)) :
    follow register (xs ++ ys) = follow register xs >>= fun _ => follow register ys := by
  induction xs with
  | nil => rfl
  | cons x xs ih =>
    cases x with
    | refuse f => rfl
    | call x =>
      rw [List.cons_append, follow, follow, ih, bind_assoc]

/-- Registrations whose results are not used are steps. -/
theorem mapM_calls_bind (xs : List (Call K)) (next : InPlace K σ β) :
    (xs.mapM register >>= fun _ => next) =
      follow register (xs.map .call) >>= fun _ => next := by
  induction xs with
  | nil => rfl
  | cons x xs ih =>
    rw [List.mapM_cons, List.map_cons, follow, bind_assoc, bind_assoc]
    refine congrArg _ (funext fun _ => ?_)
    rw [← ih, bind_assoc]
    simp only [pure_bind]

/-- A reading of a sample whose result is not used is its steps. -/
theorem Sample.readBy_bind (s : Sample K) (channel : String) (offset : ℕ)
    (next : InPlace K σ β) : (s.readBy register channel offset >>= fun _ => next) =
      follow register ((s.calls channel offset).map .call) >>= fun _ => next := by
  rw [← mapM_calls_bind, readBy, bind_assoc]
  simp only [pure_bind]

/-- A reading of samples whose result is not used is their steps. -/
theorem Channel.readSamplesBy_bind (c : Channel K) (bins offset : ℕ) (seen : List String)
    (ss : List (Sample K)) (next : InPlace K σ β) :
    (c.readSamplesBy register bins offset seen ss >>= fun _ => next) =
      follow register (c.sampleSteps bins offset seen ss) >>= fun _ => next := by
  induction ss generalizing seen with
  | nil => rfl
  | cons s ss ih =>
    unfold readSamplesBy sampleSteps
    split
    · rfl
    · split
      · rfl
      · rw [bind_assoc, follow_append, bind_assoc, ← ih, ← Sample.readBy_bind]
        simp only [bind_assoc, pure_bind]

/-- A reading of a channel whose result is not used is its steps. -/
theorem Channel.readBy_bind (c : Channel K) (offset : ℕ) (next : InPlace K σ β) :
    (c.readBy register offset >>= fun _ => next) =
      follow register (c.steps offset) >>= fun _ => next := by
  unfold readBy steps
  split
  · rfl
  · split
    · rfl
    · rw [← readSamplesBy_bind, bind_assoc]
      simp only [pure_bind]

/-- A request is its steps. -/
theorem Request.performBy_eq_follow (q : Request K) :
    q.performBy register = follow register q.steps := by
  have hunit : ∀ x : InPlace K σ Unit, (x >>= fun _ => pure ()) = x := fun x => bind_pure x
  cases q with
  | register x => rfl
  | sample s name offset =>
    exact (Sample.readBy_bind register s name offset (pure ())).trans (hunit _)
  | channel c offset =>
    exact (Channel.readBy_bind register c offset (pure ())).trans (hunit _)

/-- A registration that also keeps a record of the calls that have succeeded. -/
def recorded (x : Call K) : InPlace K (σ × List (Call K)) (Modifier K) := do
  let (s, log) ← get
  match exec (register x) s with
  | (.ok m, s') =>
    set (s', log ++ [x])
    return m
  | (.error f, s') =>
    set (s', log)
    throw f

/-- A recorded registration does what it does without a record, and is recorded if it
succeeds. -/
theorem exec_recorded (x : Call K) (s : σ) (log : List (Call K)) :
    exec (recorded register x) (s, log) =
      match exec (register x) s with
      | (.ok m, s') => (.ok m, s', log ++ [x])
      | (.error f, s') => (.error f, s', log) := by
  unfold recorded
  rw [exec_bind, exec_get]
  dsimp only
  cases exec (register x) s with
  | mk outcome s' => cases outcome <;> rfl

/-- A registration that fails leaves the state as it was. -/
def LeavesOnFault : Prop :=
  ∀ x s f s', exec (register x) s = (.error f, s') → s' = s

variable {register} {s s' : σ}

/-- Steps lead where the registrations among them lead that are recorded while the steps are
followed, and all of these succeed when they are followed alone. -/
theorem exec_follow_recorded (hleaves : LeavesOnFault register) (steps : List (Step K)) (s : σ)
    (log : List (Call K)) :
    ∃ accepted outcome s', exec (follow register steps) s = (outcome, s') ∧
      exec (follow (recorded register) steps) (s, log) = (outcome, s', log ++ accepted) ∧
      exec (follow register (accepted.map .call)) s = (.ok (), s') := by
  induction steps generalizing s log with
  | nil => exact ⟨[], .ok (), s, rfl, by rw [List.append_nil]; rfl, rfl⟩
  | cons step steps ih =>
    cases step with
    | refuse f => exact ⟨[], .error f, s, rfl, by rw [List.append_nil]; rfl, rfl⟩
    | call x =>
      have hrecorded := exec_recorded register x s log
      rw [follow, follow, exec_bind, exec_bind, hrecorded]
      cases hcall : exec (register x) s with
      | mk outcome s₁ =>
        cases outcome with
        | error f =>
          obtain rfl := hleaves x s f s₁ hcall
          exact ⟨[], .error f, s₁, rfl, by rw [List.append_nil], rfl⟩
        | ok m =>
          obtain ⟨accepted, outcome, s', hplain, hlog, hreplay⟩ := ih s₁ (log ++ [x])
          refine ⟨x :: accepted, outcome, s', hplain, ?_, ?_⟩
          · dsimp only
            rw [hlog, List.append_assoc]
            rfl
          · rw [List.map_cons, follow, exec_bind, hcall]
            exact hreplay

/-- Steps that fail are followed up to a step that refuses or is refused, and have led where the
registrations before this step lead. -/
theorem exec_follow_error (hleaves : LeavesOnFault register) {steps : List (Step K)}
    {f : Fault K} (h : exec (follow register steps) s = (.error f, s')) :
    ∃ (before : List (Call K)) (step : Step K) (after : List (Step K)),
      steps = before.map .call ++ step :: after ∧
      exec (follow register (before.map .call)) s = (.ok (), s') ∧
      (step = .refuse f ∨ ∃ x, step = .call x ∧ exec (register x) s' = (.error f, s')) := by
  induction steps generalizing s with
  | nil => cases h
  | cons step steps ih =>
    cases step with
    | refuse f' =>
      cases h
      exact ⟨[], .refuse f, steps, rfl, rfl, .inl rfl⟩
    | call x =>
      rw [follow, exec_bind] at h
      cases hcall : exec (register x) s with
      | mk outcome s₁ =>
        rw [hcall] at h
        cases outcome with
        | error f' =>
          cases h
          obtain rfl := hleaves x s f s' hcall
          exact ⟨[], .call x, steps, rfl, rfl, .inr ⟨x, rfl, hcall⟩⟩
        | ok m =>
          obtain ⟨before, step, after, rfl, hbefore, hstep⟩ := ih h
          refine ⟨x :: before, step, after, rfl, ?_, hstep⟩
          rw [List.map_cons, follow, exec_bind, hcall]
          exact hbefore

/-- Requests are carried out one after the other, each one by its steps. -/
theorem performAll_cons {q : Request K} {qs : List (Request K)} {outcome : Except (Fault K) Unit}
    {outcomes : List (Except (Fault K) Unit)} {s₁ : σ}
    (hfirst : exec (follow register q.steps) s = (outcome, s₁))
    (hrest : performAll register qs s₁ = (outcomes, s')) :
    performAll register (q :: qs) s = (outcome :: outcomes, s') := by
  rw [performAll, q.performBy_eq_follow, hfirst]
  dsimp only
  rw [hrest]

/-- Requests lead where the registrations lead that are recorded meanwhile, and all of these
succeed when they are followed alone. -/
theorem performAll_recorded (hleaves : LeavesOnFault register) (requests : List (Request K))
    (s : σ) (log : List (Call K)) :
    ∃ accepted outcomes s', performAll register requests s = (outcomes, s') ∧
      performAll (recorded register) requests (s, log) = (outcomes, s', log ++ accepted) ∧
      exec (follow register (accepted.map .call)) s = (.ok (), s') := by
  induction requests generalizing s log with
  | nil => exact ⟨[], [], s, rfl, by rw [List.append_nil]; rfl, rfl⟩
  | cons q qs ih =>
    obtain ⟨first, outcome, s₁, hplain, hlog, hreplay⟩ :=
      exec_follow_recorded hleaves q.steps s log
    obtain ⟨rest, outcomes, s', hplain', hlog', hreplay'⟩ := ih s₁ (log ++ first)
    refine ⟨first ++ rest, outcome :: outcomes, s', performAll_cons hplain hplain', ?_, ?_⟩
    · rw [← List.append_assoc]
      exact performAll_cons hlog hlog'
    · rw [List.map_append, follow_append, exec_bind, hreplay]
      exact hreplay'

/-- Registrations that all succeed are requests that all succeed. -/
theorem performAll_calls {calls : List (Call K)}
    (h : exec (follow register (calls.map .call)) s = (.ok (), s')) :
    performAll register (calls.map .register) s =
      (List.replicate calls.length (.ok ()), s') := by
  induction calls generalizing s with
  | nil =>
    cases h
    rfl
  | cons x calls ih =>
    rw [List.map_cons, follow, exec_bind] at h
    cases hcall : exec (register x) s with
    | mk outcome s₁ =>
      rw [hcall] at h
      cases outcome with
      | error f => cases h
      | ok m =>
        have hfirst : exec (follow register (Request.register x).steps) s = (.ok (), s₁) := by
          rw [Request.steps, follow, exec_bind, hcall]
          rfl
        exact performAll_cons hfirst (ih h)

end Follow

variable [Scalar K]

/-- Carry out a request on a registry. -/
def Request.enter : Request K → Registry K → Registry K × Except (Fault K) Unit
  | .register x, r =>
    match r.register x.declaration x.nominal x.offset x.channel x.sample with
    | .error f => (r, .error f)
    | .ok (_, r) => (r, .ok ())
  | .sample s name offset, r =>
    let (r, plan) := s.plan name offset r
    (r, plan.map fun _ => ())
  | .channel c offset, r =>
    let (r, plan) := c.plan offset r
    (r, plan.map fun _ => ())

/-- The outcomes of requests one after the other, and the registry that they leave. -/
def Request.enterAll : List (Request K) → Registry K → List (Except (Fault K) Unit) × Registry K
  | [], r => ([], r)
  | q :: qs, r =>
    let (r, outcome) := q.enter r
    let (outcomes, r) := enterAll qs r
    (outcome :: outcomes, r)

/-- Declarations are entered in place as they are into a registry. -/
theorem Sample.exec_registerAll (s : Sample K) (channel : String) (offset : ℕ)
    (ds : List (Declaration K)) (r : Registry K) :
    exec ((ds.map fun d => (⟨d, s.data, offset, channel, s.name⟩ : Call K)).mapM Store.register)
        (Store.ofRegistry r) =
      ((s.registerAll channel offset ds r).2,
        Store.ofRegistry (s.registerAll channel offset ds r).1) := by
  induction ds generalizing r with
  | nil => rfl
  | cons d ds ih =>
    rw [List.map_cons, List.mapM_cons, exec_bind, Store.exec_register_ofRegistry, registerAll]
    cases r.register d s.data offset channel s.name with
    | error f => rfl
    | ok mr =>
      obtain ⟨m, r₁⟩ := mr
      dsimp only
      rw [exec_bind, ih]
      cases s.registerAll channel offset ds r₁ with
      | mk r' outcome => cases outcome <;> rfl

/-- A sample is read in place as it is into a registry. -/
theorem Sample.exec_readBy (s : Sample K) (channel : String) (offset : ℕ) (r : Registry K) :
    exec (s.readBy Store.register channel offset) (Store.ofRegistry r) =
      ((s.plan channel offset r).2, Store.ofRegistry (s.plan channel offset r).1) := by
  have hall := s.exec_registerAll channel offset s.modifiers r
  unfold readBy plan calls
  rw [exec_bind, hall]
  cases s.registerAll channel offset s.modifiers r with
  | mk r' outcome => cases outcome <;> rfl

/-- Samples are read in place as they are into a registry. -/
theorem Channel.exec_readSamplesBy (c : Channel K) (bins offset : ℕ) (seen : List String)
    (ss : List (Sample K)) (r : Registry K) :
    exec (c.readSamplesBy Store.register bins offset seen ss) (Store.ofRegistry r) =
      ((c.planSamples bins offset seen ss r).2,
        Store.ofRegistry (c.planSamples bins offset seen ss r).1) := by
  induction ss generalizing seen r with
  | nil => rfl
  | cons s ss ih =>
    unfold readSamplesBy planSamples
    split
    · rfl
    · split
      · rfl
      · rw [exec_bind, s.exec_readBy]
        cases s.plan c.name offset r with
        | mk r₁ outcome =>
          cases outcome with
          | error f => rfl
          | ok plan =>
            dsimp only
            rw [exec_bind, ih]
            cases c.planSamples bins offset (s.name :: seen) ss r₁ with
            | mk r' outcome => cases outcome <;> rfl

/-- A channel is read in place as it is into a registry. -/
theorem Channel.exec_readBy (c : Channel K) (offset : ℕ) (r : Registry K) :
    exec (c.readBy Store.register offset) (Store.ofRegistry r) =
      ((c.plan offset r).2, Store.ofRegistry (c.plan offset r).1) := by
  unfold readBy plan
  cases hsamples : c.samples with
  | nil => rfl
  | cons first rest =>
    dsimp only
    split
    · rfl
    · rw [exec_bind, exec_readSamplesBy]
      cases c.planSamples first.data.length offset [] (first :: rest) r with
      | mk r' outcome => cases outcome <;> rfl

/-- A request is carried out in place as it is on a registry. -/
theorem Request.exec_performBy (q : Request K) (r : Registry K) :
    exec (q.performBy Store.register) (Store.ofRegistry r) =
      ((q.enter r).2, Store.ofRegistry (q.enter r).1) := by
  unfold performBy enter
  cases q with
  | register x =>
    dsimp only
    rw [exec_bind, Store.exec_register_ofRegistry]
    cases r.register x.declaration x.nominal x.offset x.channel x.sample with
    | error f => rfl
    | ok mr => rfl
  | sample s name offset =>
    dsimp only
    rw [exec_bind, s.exec_readBy]
    cases s.plan name offset r with
    | mk r' outcome => cases outcome <;> rfl
  | channel c offset =>
    dsimp only
    rw [exec_bind, c.exec_readBy]
    cases c.plan offset r with
    | mk r' outcome => cases outcome <;> rfl

/-- Requests are carried out in place as they are on a registry. -/
theorem Request.performAll_eq_enterAll (requests : List (Request K)) (r : Registry K) :
    performAll Store.register requests (Store.ofRegistry r) =
      ((enterAll requests r).1, Store.ofRegistry (enterAll requests r).2) := by
  induction requests generalizing r with
  | nil => rfl
  | cons q qs ih =>
    rw [performAll, q.exec_performBy]
    dsimp only
    rw [ih]
    rfl

/-- A registration in place that fails leaves the store as it was. -/
theorem Store.leavesOnFault : LeavesOnFault (Store.register : Call K → InPlace K (Store K) _) :=
  fun _ _ _ _ h => exec_register_error h

/-- Whatever is asked of a store that starts without entries, and whatever of this fails, the
store ends with the entries and the index that it has after the recorded registrations alone,
which are those that have succeeded, in their order, and which all succeed when they are made on
a store without entries. The readings of the program have the same outcomes; the registry that
they leave is that of the store, so it is also the one that they leave when they make the
recorded registrations alone, with the same size, the same number of parameters and the same
table under all options. In particular a registration that fails leaves any store as it was, and
a request that fails leaves what the registrations make of the store that stand before the
failing step. -/
theorem Store.requests_leave_accepted (config : Option (MeasurementConfig K))
    (requests : List (Request K)) :
    (∃ (outcomes : List (Except (Fault K) Unit)) (store : Store K) (log : List (Call K))
      (r : Registry K),
      performAll Store.register requests (Store.empty config) = (outcomes, store) ∧
      performAll (recorded Store.register) requests (Store.empty config, []) =
        (outcomes, store, log) ∧
      performAll Store.register (log.map .register) (Store.empty config) =
        (List.replicate log.length (.ok ()), store) ∧
      store = Store.ofRegistry r ∧
      Request.enterAll requests (Registry.empty config) = (outcomes, r) ∧
      Request.enterAll (log.map .register) (Registry.empty config) =
        (List.replicate log.length (.ok ()), r)) ∧
    (∀ (x : Call K) (s s' : Store K) (f : Fault K),
      exec (Store.register x) s = (.error f, s') → s' = s) ∧
    ∀ (q : Request K) (s s' : Store K) (f : Fault K),
      exec (q.performBy Store.register) s = (.error f, s') →
        ∃ (before : List (Call K)) (step : Step K) (after : List (Step K)),
          q.steps = before.map .call ++ step :: after ∧
          performAll Store.register (before.map .register) s =
            (List.replicate before.length (.ok ()), s') ∧
          (step = .refuse f ∨
            ∃ x, step = .call x ∧ exec (Store.register x) s' = (.error f, s')) := by
  have hempty : Store.ofRegistry (Registry.empty config) = Store.empty config := rfl
  refine ⟨?_, fun x s s' f h => Store.leavesOnFault x s f s' h, fun q s s' f h => ?_⟩
  · obtain ⟨log, outcomes, store, hplain, hlog, hreplay⟩ :=
      performAll_recorded Store.leavesOnFault requests (Store.empty config) []
    have hcalls := performAll_calls hreplay
    have hrun := Request.performAll_eq_enterAll requests (Registry.empty config)
    have hrerun := Request.performAll_eq_enterAll (log.map .register) (Registry.empty config)
    rw [hempty, hplain, Prod.mk.injEq] at hrun
    rw [hempty, hcalls, Prod.mk.injEq] at hrerun
    obtain ⟨houtcomes, hstore⟩ := hrun
    obtain ⟨hsuccess, hstore'⟩ := hrerun
    have hregistry := Store.ofRegistry_inj (hstore.symm.trans hstore')
    refine ⟨outcomes, store, log, _, hplain, hlog, hcalls, hstore, Prod.ext houtcomes.symm rfl,
      Prod.ext hsuccess.symm hregistry.symm⟩
  · rw [q.performBy_eq_follow] at h
    obtain ⟨before, step, after, hsteps, hbefore, hstep⟩ := exec_follow_error Store.leavesOnFault h
    exact ⟨before, step, after, hsteps, performAll_calls hbefore, hstep⟩

/-- A channel whose second sample gives the name of its first modifier another kind, behind a
modifier that is in order. -/
def Channel.contradictory : Channel Float :=
  ⟨"region",
    [⟨"signal", [3, 5], [.normfactor "mu", .staterror "counts" [1, 2]]⟩,
      ⟨"background", [40, 50],
        [.normsys "rate" 0.9 1.1, .shapefactor "mu", .lumi "luminosity"]⟩]⟩

/-- Five requests, of which the second one contradicts the first one, the third one fails behind
three registrations, and the fourth one does not fit its sample. -/
def Request.mixed : List (Request Float) :=
  [.register ⟨.normfactor "mu", [1, 2], 0, "region", "signal"⟩,
    .register ⟨.normsys "mu" 0.9 1.1, [1, 2], 0, "region", "signal"⟩,
    .channel Channel.contradictory 2,
    .sample ⟨"signal", [1, 2], [.staterror "other" [1, 2, 3]]⟩ "region" 4,
    .register ⟨.staterror "counts" [0.5, 0.5], [6, 7], 4, "region", "signal"⟩]

/-- Of the five requests five registrations are left, and the store is the one that these lead
to alone. On a store without entries the channel fails, and leaves what the registrations before
its failing step lead to. -/
theorem Store.accepted_mixed :
    (∃ (outcomes : List (Except (Fault Float) Unit)) (store : Store Float)
      (log : List (Call Float)),
      performAll Store.register Request.mixed (Store.empty none) = (outcomes, store) ∧
      log.map (·.declaration.name) = ["mu", "mu", "counts", "rate", "counts"] ∧
      performAll Store.register (log.map .register) (Store.empty none) =
        (List.replicate log.length (.ok ()), store)) ∧
    ∃ (f : Fault Float) (store : Store Float) (before : List (Call Float)) (step : Step Float)
      (after : List (Step Float)),
      exec ((Request.channel Channel.contradictory 2).performBy Store.register)
        (Store.empty none) = (.error f, store) ∧
      Channel.contradictory.steps 2 = before.map .call ++ step :: after ∧
      performAll Store.register (before.map .register) (Store.empty none) =
        (List.replicate before.length (.ok ()), store) := by
  obtain ⟨hall, -, hfailed⟩ := Store.requests_leave_accepted none Request.mixed
  constructor
  · obtain ⟨outcomes, store, log, r, hrun, hlog, hreplay, -⟩ := hall
    have hnames : (performAll (recorded Store.register) Request.mixed
        (Store.empty none, [])).2.2.map (·.declaration.name) =
          ["mu", "mu", "counts", "rate", "counts"] := by decide +kernel
    rw [hlog] at hnames
    exact ⟨outcomes, store, log, hrun, hnames, hreplay⟩
  · have hfault : (exec ((Request.channel Channel.contradictory 2).performBy Store.register)
        (Store.empty none)).1.toOption = none := by decide +kernel
    cases hexec : exec ((Request.channel Channel.contradictory 2).performBy Store.register)
        (Store.empty none) with
    | mk outcome store =>
      cases outcome with
      | ok u =>
        rw [hexec] at hfault
        cases hfault
      | error f =>
        obtain ⟨before, step, after, hsteps, hbefore, -⟩ := hfailed _ _ _ f hexec
        exact ⟨f, store, before, step, after, rfl, hsteps, hbefore⟩

end BinnedModel
