import Mathlib
import BinnedModel.Proofs.Json.Codec
import BinnedModel.Proofs.Scalar.FiniteOrder
import BinnedModel.Model.Basic

/-!
# Workspaces read back

A workspace has a JSON form if its scalars are finite and the raw data of its modifiers denotes
itself. Such a workspace is read back from its form as it was, whatever is left out in writing.
Whatever is read, with fields missing, unknown or written as an array, has a form of its own, so
one pass of reading and writing settles it. The same holds of options and priors, and a model
that is built from what has been read back is the model that would have been built at first.
-/

namespace BinnedModel

variable {K : Type}

/-- A modifier has a JSON form if its raw data denotes itself. -/
def Declaration.Representable (d : Declaration K) : Prop :=
  d.data.Plain

variable [Scalar K]

/-- A sample has a JSON form if its yields are finite and its modifiers have one. -/
def Sample.Representable (s : Sample K) : Prop :=
  (∀ x ∈ s.data, Scalar.isFinite x = true) ∧ ∀ d ∈ s.modifiers, d.Representable

/-- A channel has a JSON form if its samples have one. -/
def Channel.Representable (c : Channel K) : Prop :=
  ∀ s ∈ c.samples, s.Representable

/-- An observation has a JSON form if its counts are finite. -/
def Observation.Representable (o : Observation K) : Prop :=
  ∀ x ∈ o.data, Scalar.isFinite x = true

/-- Settings of parameters have a JSON form if all their scalars are finite. -/
structure ParameterConfig.Representable (c : ParameterConfig K) : Prop where
  /-- Starting values are finite. -/
  inits : ∀ x ∈ c.inits, Scalar.isFinite x = true
  /-- Both ends of each interval are finite. -/
  bounds : ∀ b ∈ c.bounds, Scalar.isFinite b.1 = true ∧ Scalar.isFinite b.2 = true
  /-- Centres are finite. -/
  auxdata : ∀ x ∈ c.auxdata, Scalar.isFinite x = true
  /-- Widths are finite. -/
  sigmas : ∀ x ∈ c.sigmas, Scalar.isFinite x = true

/-- Settings of a measurement have a JSON form if those of all parameters have one. -/
def MeasurementConfig.Representable (c : MeasurementConfig K) : Prop :=
  ∀ p ∈ c.parameters, p.Representable

/-- A workspace has a JSON form if its channels, observations and measurements have one. -/
structure Workspace.Representable (ws : Workspace K) : Prop where
  /-- The channels have one. -/
  channels : ∀ c ∈ ws.channels, c.Representable
  /-- The observations have one. -/
  observations : ∀ o ∈ ws.observations, o.Representable
  /-- The settings of the measurements have one. -/
  measurements : ∀ m ∈ ws.measurements, m.config.Representable

/-- Options have a JSON form if the ends of their interval are finite. -/
def Options.Representable (o : Options K) : Prop :=
  Scalar.isFinite o.freeInterval.1 = true ∧ Scalar.isFinite o.freeInterval.2 = true

/-- A prior has a JSON form if its numbers are finite. -/
def Prior.Representable : Prior K → Prop
  | .normal mu sigma => Scalar.isFinite mu = true ∧ Scalar.isFinite sigma = true
  | .poisson rate => Scalar.isFinite rate = true
  | .flat a b => Scalar.isFinite a = true ∧ Scalar.isFinite b = true

open Json (Faithful faithful_record lookup_cons field?_cons fieldD?_cons fieldD?_nil
  keys_listField lookup_listField_of_ne fieldD?_listField_of_ne faithful_plain
  faithful_stringOption faithful_scalar faithful_scalars faithful_pair)

omit [Scalar K] in
/-- Modifiers are read back. -/
theorem Declaration.faithful :
    Faithful (toJson : Declaration K → Json K) ofJson? Representable := by
  refine faithful_record (fun d => .refl _) (by decide) (fun d hd => ?_) fun r d hr => ?_
  · have hdata : d.data.plain? = some d.data := faithful_plain.decode_encode d.data hd
    simp [field?_cons, fieldD?_cons, Json.string?, hdata]
  · simp only [Option.bind_eq_bind, Option.bind_eq_some_iff] at hr
    obtain ⟨name, -, type, -, data, hdata, hd⟩ := hr
    cases hd
    have hnull : (.null : Json K).Plain := trivial
    exact faithful_plain.of_fieldD? hnull hdata

/-- Samples are read back. -/
theorem Sample.faithful : Faithful (toJson : Sample K → Json K) ofJson? Representable := by
  refine faithful_record (fun s => .refl _) (by decide) (fun s hs => ?_) fun r s hr => ?_
  · have hdata := faithful_scalars.decode_encode s.data hs.1
    have hmodifiers := Declaration.faithful.list.decode_encode s.modifiers hs.2
    simp [field?_cons, fieldD?_cons, Json.string?, hdata, hmodifiers]
  · simp only [Option.bind_eq_bind, Option.bind_eq_some_iff] at hr
    obtain ⟨name, -, data, hdata, modifiers, hmodifiers, hs⟩ := hr
    cases hs
    exact ⟨faithful_scalars.of_field? hdata,
      Declaration.faithful.list.of_fieldD? (List.forall_mem_nil _) hmodifiers⟩

/-- Channels are read back. -/
theorem Channel.faithful : Faithful (toJson : Channel K → Json K) ofJson? Representable := by
  refine faithful_record (fun c => .refl _) (by decide) (fun c hc => ?_) fun r c hr => ?_
  · have hsamples := Sample.faithful.list.decode_encode c.samples hc
    simp [field?_cons, Json.string?, hsamples]
  · simp only [Option.bind_eq_bind, Option.bind_eq_some_iff] at hr
    obtain ⟨name, -, samples, hsamples, hc⟩ := hr
    cases hc
    exact Sample.faithful.list.of_field? hsamples

/-- Observations are read back. -/
theorem Observation.faithful :
    Faithful (toJson : Observation K → Json K) ofJson? Representable := by
  refine faithful_record (fun o => .refl _) (by decide) (fun o ho => ?_) fun r o hr => ?_
  · have hdata := faithful_scalars.decode_encode o.data ho
    simp [field?_cons, Json.string?, hdata]
  · simp only [Option.bind_eq_bind, Option.bind_eq_some_iff] at hr
    obtain ⟨name, -, data, hdata, ho⟩ := hr
    cases ho
    exact faithful_scalars.of_field? hdata

/-- The keys of settings are in their order, whichever of the lists are left out. -/
theorem ParameterConfig.keys_fields (c : ParameterConfig K) :
    ((("name", Json.string c.name) :: listField "inits" .ofScalar c.inits ++
      listField "bounds" .ofPair c.bounds ++ ("fixed", .bool c.fixed) ::
      listField "auxdata" .ofScalar c.auxdata ++ listField "sigmas" .ofScalar c.sigmas).map
        (·.1)).Sublist ["name", "inits", "bounds", "fixed", "auxdata", "sigmas"] := by
  have hinits := keys_listField "inits" Json.ofScalar c.inits
  have hbounds := keys_listField "bounds" Json.ofPair c.bounds
  have hauxdata := keys_listField "auxdata" Json.ofScalar c.auxdata
  have hsigmas := keys_listField "sigmas" Json.ofScalar c.sigmas
  simp only [List.map_append, List.map_cons]
  exact (((hinits.cons_cons "name").append hbounds).append
    (hauxdata.cons_cons "fixed")).append hsigmas

/-- Settings of parameters are read back, whichever of their lists are left out. A list is found at
its place, or missing there and then nowhere behind it. -/
theorem ParameterConfig.faithful :
    Faithful (toJson : ParameterConfig K → Json K) ofJson? Representable := by
  refine faithful_record keys_fields (by decide) (fun c hc => ?_) fun r c hr => ?_
  · have hinits (rest : List (String × Json K)) (hrest : rest.lookup "inits" = none) :
        Json.fieldD? (listField "inits" .ofScalar c.inits ++ rest) "inits" [] Json.scalars? =
          some c.inits :=
      faithful_scalar.fieldD?_listField hc.inits hrest
    have hbounds (rest : List (String × Json K)) (hrest : rest.lookup "bounds" = none) :
        Json.fieldD? (listField "bounds" .ofPair c.bounds ++ rest) "bounds" []
          (Json.list? (Json.pair? Json.scalar?)) = some c.bounds :=
      faithful_pair.fieldD?_listField hc.bounds hrest
    have hauxdata (rest : List (String × Json K)) (hrest : rest.lookup "auxdata" = none) :
        Json.fieldD? (listField "auxdata" .ofScalar c.auxdata ++ rest) "auxdata" []
          Json.scalars? = some c.auxdata :=
      faithful_scalar.fieldD?_listField hc.auxdata hrest
    have hsigmas : Json.fieldD? (listField "sigmas" .ofScalar c.sigmas ++ []) "sigmas" []
          Json.scalars? = some c.sigmas :=
      faithful_scalar.fieldD?_listField hc.sigmas rfl
    rw [← List.append_nil (listField "sigmas" Json.ofScalar c.sigmas)]
    simp [-List.append_nil, field?_cons, fieldD?_cons, fieldD?_listField_of_ne, lookup_cons,
      lookup_listField_of_ne, Json.string?, Json.bool?, hinits, hbounds, hauxdata, hsigmas]
  · simp only [Option.bind_eq_bind, Option.bind_eq_some_iff] at hr
    obtain ⟨name, -, inits, hinits, bounds, hbounds, fixed, -, auxdata, hauxdata, sigmas, hsigmas,
      hc⟩ := hr
    cases hc
    exact
      { inits := faithful_scalars.of_fieldD? (List.forall_mem_nil _) hinits
        bounds := faithful_pair.list.of_fieldD? (List.forall_mem_nil _) hbounds
        auxdata := faithful_scalars.of_fieldD? (List.forall_mem_nil _) hauxdata
        sigmas := faithful_scalars.of_fieldD? (List.forall_mem_nil _) hsigmas }

/-- Settings of measurements are read back. -/
theorem MeasurementConfig.faithful :
    Faithful (toJson : MeasurementConfig K → Json K) ofJson? Representable := by
  refine faithful_record (fun c => .refl _) (by decide) (fun c hc => ?_) fun r c hr => ?_
  · have hparameters := ParameterConfig.faithful.list.decode_encode c.parameters hc
    simp [fieldD?_cons, Json.string?, hparameters]
  · simp only [Option.bind_eq_bind, Option.bind_eq_some_iff] at hr
    obtain ⟨poi, -, parameters, hparameters, hc⟩ := hr
    cases hc
    exact ParameterConfig.faithful.list.of_fieldD? (List.forall_mem_nil _) hparameters

/-- Measurements are read back. -/
theorem Measurement.faithful :
    Faithful (toJson : Measurement K → Json K) ofJson? fun m => m.config.Representable := by
  refine faithful_record (fun m => .refl _) (by decide) (fun m hm => ?_) fun r m hr => ?_
  · have hconfig := MeasurementConfig.faithful.decode_encode m.config hm
    simp [field?_cons, Json.string?, hconfig]
  · simp only [Option.bind_eq_bind, Option.bind_eq_some_iff] at hr
    obtain ⟨name, -, config, hconfig, hm⟩ := hr
    cases hm
    exact MeasurementConfig.faithful.of_field? hconfig

/-- Workspaces are read back, with a version or without one. -/
theorem Workspace.faithful :
    Faithful (toJson : Workspace K → Json K) ofJson? Representable := by
  refine faithful_record (fun ws => ?_) (by decide) (fun ws hws => ?_) fun r ws hr => ?_
  · cases ws.version with
    | none => exact List.sublist_append_left _ ["version"]
    | some version => exact List.Sublist.refl _
  · have hchannels := Channel.faithful.list.decode_encode ws.channels hws.channels
    have hobservations :=
      Observation.faithful.list.decode_encode ws.observations hws.observations
    have hmeasurements :=
      Measurement.faithful.list.decode_encode ws.measurements hws.measurements
    cases hversion : ws.version with
    | none =>
      have hwhole : (⟨ws.channels, ws.observations, ws.measurements, none⟩ : Workspace K) = ws := by
        rw [← hversion]
      simp [field?_cons, fieldD?_cons, fieldD?_nil, hchannels, hobservations, hmeasurements, hwhole]
    | some version =>
      have hwhole : (⟨ws.channels, ws.observations, ws.measurements, some version⟩ : Workspace K) =
          ws := by
        rw [← hversion]
      simp [field?_cons, fieldD?_cons, hchannels, hobservations, hmeasurements, Json.nullable?,
        Json.string?, hwhole]
  · simp only [Option.bind_eq_bind, Option.bind_eq_some_iff] at hr
    obtain ⟨channels, hchannels, observations, hobservations, measurements, hmeasurements,
      version, -, hws⟩ := hr
    cases hws
    exact
      { channels := Channel.faithful.list.of_field? hchannels
        observations :=
          Observation.faithful.list.of_fieldD? (List.forall_mem_nil _) hobservations
        measurements :=
          Measurement.faithful.list.of_fieldD? (List.forall_mem_nil _) hmeasurements }

/-- Options are read back; those that are missing are standard ones, whose interval has to have
finite ends. -/
theorem Options.faithful (hstandard : (standard : Options K).Representable) :
    Faithful (toJson : Options K → Json K) ofJson? Representable := by
  refine faithful_record (fun o => .refl _) (by decide) (fun o ho => ?_) fun r o hr => ?_
  · have hinterval := faithful_pair.decode_encode o.freeInterval ho
    have hmeasurement := faithful_stringOption.decode_encode (K := K) o.measurement trivial
    simp [fieldD?_cons, MultiplicativeCode.ofJson?_name, AdditiveCode.ofJson?_name, hinterval,
      hmeasurement]
  · simp only [Option.bind_eq_bind, Option.bind_eq_some_iff] at hr
    obtain ⟨multiplicative, -, additive, -, interval, hinterval, measurement, -, ho⟩ := hr
    cases ho
    exact faithful_pair.of_fieldD? hstandard hinterval

/-- Priors are read back. -/
theorem Prior.faithful : Faithful (toJson : Prior K → Json K) ofJson? Representable where
  decode_encode p hp := by
    cases p with
    | normal mu sigma =>
      have hread : ofJson? (normal mu sigma).toJson = (Json.ofScalar mu).scalar?.bind fun mu =>
          (Json.ofScalar sigma).scalar?.bind fun sigma => some (normal mu sigma) := rfl
      rw [hread, faithful_scalar.decode_encode mu hp.1, faithful_scalar.decode_encode sigma hp.2]
      rfl
    | poisson rate =>
      have hread : ofJson? (poisson rate).toJson =
          (Json.ofScalar rate).scalar?.bind fun rate => some (poisson rate) := rfl
      rw [hread, faithful_scalar.decode_encode rate hp]
      rfl
    | flat a b =>
      have hread : ofJson? (flat a b).toJson = (Json.ofScalar a).scalar?.bind fun a =>
          (Json.ofScalar b).scalar?.bind fun b => some (flat a b) := rfl
      rw [hread, faithful_scalar.decode_encode a hp.1, faithful_scalar.decode_encode b hp.2]
      rfl
  mem_of_decode j p hj := by
    unfold ofJson? at hj
    split at hj
    · simp only [Option.bind_eq_bind, Option.bind_eq_some_iff] at hj
      obtain ⟨r, -, mu, hmu, sigma, hsigma, hp⟩ := hj
      cases hp
      exact ⟨faithful_scalar.of_field? hmu, faithful_scalar.of_field? hsigma⟩
    · simp only [Option.bind_eq_bind, Option.bind_eq_some_iff] at hj
      obtain ⟨r, -, rate, hrate, hp⟩ := hj
      cases hp
      exact faithful_scalar.of_field? hrate
    · simp only [Option.bind_eq_bind, Option.bind_eq_some_iff] at hj
      obtain ⟨r, -, a, ha, b, hb, hp⟩ := hj
      cases hp
      exact ⟨faithful_scalar.of_field? ha, faithful_scalar.of_field? hb⟩
    · cases hj

/-- Reading undoes writing. A workspace, options or a prior over doubles with finite numbers and,
for a workspace, with raw data that denotes itself, is read back as it was written. Every JSON
value that can be read at all gives something of this kind, so what has been read is kept by all
further passes. The model built from a workspace that has been read back is the model built from
the workspace itself. -/
theorem Workspace.read_back_and_settled :
    ((∀ ws : Workspace Float, ws.Representable → ofJson? ws.toJson = some ws) ∧
      ∀ (v : Json Float) (ws : Workspace Float), ofJson? v = some ws →
        ws.Representable ∧ ofJson? ws.toJson = some ws) ∧
    ((∀ o : Options Float, o.Representable → Options.ofJson? o.toJson = some o) ∧
      ∀ (v : Json Float) (o : Options Float), Options.ofJson? v = some o →
        o.Representable ∧ Options.ofJson? o.toJson = some o) ∧
    ((∀ p : Prior Float, p.Representable → Prior.ofJson? p.toJson = some p) ∧
      ∀ (v : Json Float) (p : Prior Float), Prior.ofJson? v = some p →
        p.Representable ∧ Prior.ofJson? p.toJson = some p) ∧
    ∀ (ws : Workspace Float) (o : Options Float), ws.Representable →
      (ofJson? ws.toJson).map (Model.build · o) = some (Model.build ws o) := by
  have hstandard : (Options.standard : Options Float).Representable := by
    constructor <;> decide
  have hoptions := Options.faithful hstandard
  refine ⟨⟨faithful.decode_encode, fun v ws h => ?_⟩, ⟨hoptions.decode_encode, fun v o h => ?_⟩,
    ⟨Prior.faithful.decode_encode, fun v p h => ?_⟩, fun ws o h => ?_⟩
  · exact ⟨faithful.mem_of_decode v ws h, faithful.decode_again h⟩
  · exact ⟨hoptions.mem_of_decode v o h, hoptions.decode_again h⟩
  · exact ⟨Prior.faithful.mem_of_decode v p h, Prior.faithful.decode_again h⟩
  · rw [faithful.decode_encode ws h]
    rfl

/-- A workspace in short form: its records are arrays or leave fields out, a field is unknown, and
the raw data of a modifier repeats a key. -/
def Json.shortWorkspace : Json Float :=
  .object
    [("channels", .array
      [.array [.string "region", .array
        [.object [("name", .string "signal"), ("data", .array [.number (.integer 3)]),
          ("comment", .null),
          ("modifiers", .array
            [.array [.string "mu", .string "normfactor"],
              .array [.string "rate", .string "normsys",
                .object [("lo", .number (.real 0.8)), ("hi", .number (.real 1.1)),
                  ("lo", .number (.real 0.9))]]])]]]]),
    ("measurements", .array
      [.array [.string "fit",
        .object [("parameters", .array [.array [.string "mu", .array [.number (.integer 1)]]])]]])]

/-- The short form can be read, and what has been read is read back; so are the standard options
and a Gaussian prior. -/
theorem Workspace.read_back_shortWorkspace :
    ∃ ws, ofJson? Json.shortWorkspace = some ws ∧ ws.Representable ∧
      ofJson? ws.toJson = some ws ∧
      (ofJson? ws.toJson).map (Model.build · Options.standard) =
        some (Model.build ws Options.standard) ∧
      Options.ofJson? (Options.standard : Options Float).toJson = some Options.standard ∧
      Prior.ofJson? (Prior.normal 0 1 : Prior Float).toJson = some (.normal 0 1) := by
  have hread : (ofJson? Json.shortWorkspace).isSome = true := by decide +kernel
  obtain ⟨ws, hws⟩ := Option.isSome_iff_exists.mp hread
  obtain ⟨⟨-, hworkspace⟩, ⟨hoptions, -⟩, ⟨hpriors, -⟩, hmodel⟩ := Workspace.read_back_and_settled
  obtain ⟨hrepresentable, hagain⟩ := hworkspace Json.shortWorkspace ws hws
  refine ⟨ws, hws, hrepresentable, hagain, hmodel ws Options.standard hrepresentable,
    hoptions Options.standard ?_, hpriors (.normal 0 1) ?_⟩ <;> constructor <;> decide

end BinnedModel
