import Mathlib
import BinnedModel.Proofs.Json.Codec
import BinnedModel.Proofs.Registry.Registration
import BinnedModel.Scalar.Binary64

/-!
# Declarations read back

There is one way to declare each kind of modifier. The data goes through JSON, where the up
variation stands before the down variation and a scalar that is not finite has no form. Reading a
declaration undoes making it: for every kind, and for data of any length, the modifier that is read
has the declared name and exactly the declared data if all of its scalars are finite; otherwise the
declaration is refused for its data. A modifier that is read fits a number of bins exactly if each
of its histograms has this length.
-/

namespace BinnedModel

variable {K : Type}

namespace Payload

/-- All scalars of a payload, of the down variation before the up variation. -/
def scalars : Payload K → List K
  | normfactor => []
  | shapefactor => []
  | normsys lo hi => [lo, hi]
  | histosys lo hi => lo ++ hi
  | shapesys delta => delta
  | staterror delta => delta
  | lumi sigma => sigma.toList

/-- What a payload has for each bin is there for each of the given number of bins. -/
def Spans (bins : ℕ) : Payload K → Prop
  | histosys lo hi => lo.length = bins ∧ hi.length = bins
  | shapesys delta => delta.length = bins
  | staterror delta => delta.length = bins
  | _ => True

/-- A modifier fits exactly the bins that its payload spans. -/
theorem fits_iff_spans {name : String} {bins : ℕ} {p : Payload K} :
    (⟨name, p⟩ : Modifier K).Fits bins ↔ p.Spans bins := by
  cases p <;> simp [Modifier.Fits, histograms, Spans]

end Payload

variable [Scalar K]

/-- The declaration that is made for a payload under a name. A luminosity is declared without a
width, which only a measurement can give. -/
inductive Declaration.Declares (name : String) : Declaration K → Payload K → Prop
  /-- A free factor. -/
  | normfactor : Declares name (.normfactor name) .normfactor
  /-- A free factor per bin. -/
  | shapefactor : Declares name (.shapefactor name) .shapefactor
  /-- A luminosity factor. -/
  | lumi : Declares name (.lumi name) (.lumi none)
  /-- A factor between a down and an up factor. -/
  | normsys (lo hi : K) : Declares name (.normsys name lo hi) (.normsys lo hi)
  /-- A shift between a down and an up histogram. -/
  | histosys (lo hi : List K) : Declares name (.histosys name lo hi) (.histosys lo hi)
  /-- A factor per bin with absolute uncertainties. -/
  | shapesys (delta : List K) : Declares name (.shapesys name delta) (.shapesys delta)
  /-- A factor per bin with absolute statistical uncertainties. -/
  | staterror (delta : List K) : Declares name (.staterror name delta) (.staterror delta)

namespace Declaration

omit [Scalar K] in
/-- Two values that are read one after the other, each under a condition of its own, are read under
both conditions. -/
theorem bind_ite_bind_ite {α β γ : Type} {P Q : Prop} [Decidable P] [Decidable Q] (a : α) (b : β)
    (f : α → β → γ) :
    ((if P then some a else none).bind fun a => (if Q then some b else none).bind fun b =>
      some (f a b)) = if Q ∧ P then some (f a b) else none := by
  by_cases hP : P <;> by_cases hQ : Q <;> simp [hP, hQ]

/-- Two scalars are read from the fields of their own variations. -/
theorem ofJson?_normsys (name : String) (lo hi : K) :
    Payload.ofJson? .normsys (normsys name lo hi).data =
      if Scalar.isFinite lo = true ∧ Scalar.isFinite hi = true then some (.normsys lo hi)
      else none := by
  change ((Json.ofScalar hi).scalar?.bind fun hi =>
    (Json.ofScalar lo).scalar?.bind fun lo => some (Payload.normsys lo hi)) = _
  rw [Json.scalar?_ofScalar, Json.scalar?_ofScalar]
  exact bind_ite_bind_ite hi lo fun hi lo => Payload.normsys lo hi

/-- Two histograms are read from the fields of their own variations. -/
theorem ofJson?_histosys (name : String) (lo hi : List K) :
    Payload.ofJson? .histosys (histosys name lo hi).data =
      if (∀ x ∈ lo, Scalar.isFinite x = true) ∧ ∀ x ∈ hi, Scalar.isFinite x = true then
        some (.histosys lo hi)
      else none := by
  change ((Json.ofScalars hi).scalars?.bind fun hi =>
    (Json.ofScalars lo).scalars?.bind fun lo => some (Payload.histosys lo hi)) = _
  rw [Json.scalars?_ofScalars, Json.scalars?_ofScalars]
  exact bind_ite_bind_ite hi lo fun hi lo => Payload.histosys lo hi

variable {name : String} {d : Declaration K} {p : Payload K}

/-- A declaration has the declared name, and its type is that of the declared kind. -/
theorem Declares.label (h : Declares name d p) :
    d.name = name ∧ ModifierKind.ofName? d.type = some p.kind := by
  cases h <;> exact ⟨rfl, rfl⟩

/-- The data of a declaration is read back as it was declared if all its scalars are finite, and
not read at all otherwise. -/
theorem Declares.ofJson?_eq (h : Declares name d p) :
    Payload.ofJson? p.kind d.data =
      if ∀ x ∈ p.scalars, Scalar.isFinite x = true then some p else none := by
  cases h with
  | normfactor => exact (if_pos (List.forall_mem_nil _)).symm
  | shapefactor => exact (if_pos (List.forall_mem_nil _)).symm
  | lumi => exact (if_pos (List.forall_mem_nil _)).symm
  | normsys lo hi =>
    have hboth : (∀ x ∈ [lo, hi], Scalar.isFinite x = true) ↔
        Scalar.isFinite lo = true ∧ Scalar.isFinite hi = true := by simp
    exact (ofJson?_normsys name lo hi).trans (if_congr hboth rfl rfl).symm
  | histosys lo hi =>
    exact (ofJson?_histosys name lo hi).trans (if_congr List.forall_mem_append rfl rfl).symm
  | shapesys delta =>
    change (Json.ofScalars delta).scalars?.map Payload.shapesys = _
    rw [Json.scalars?_ofScalars, apply_ite (Option.map Payload.shapesys)]
    rfl
  | staterror delta =>
    change (Json.ofScalars delta).scalars?.map Payload.staterror = _
    rw [Json.scalars?_ofScalars, apply_ite (Option.map Payload.staterror)]
    rfl

/-- A declaration of finite data that spans the bins of its sample says what is declared. -/
theorem Declares.stated (h : Declares name d p)
    (hfinite : ∀ x ∈ p.scalars, Scalar.isFinite x = true)
    {config : Option (MeasurementConfig K)} {bins : ℕ} (hspans : p.Spans bins) :
    d.Says config bins (Modifier.withWidth config ⟨name, p⟩) :=
  ⟨⟨name, p⟩, Modifier.ofDeclaration_eq_ok_iff.mpr
      ⟨h.label.1.symm, p.kind, h.label.2, h.ofJson?_eq.trans (if_pos hfinite)⟩,
    Payload.fits_iff_spans.mpr hspans, rfl⟩

end Declaration

namespace Modifier

/-- Reading a declaration undoes making it. Whatever is declared under a name, the modifier that is
read has this name, the declared kind and exactly the declared data, each variation in its own
place, if all scalars of the data are finite; it then passes the check for a number of bins exactly
if each of its histograms has this length. If a scalar is infinite or undefined, the declaration is
refused as having data of a wrong form. -/
theorem ofDeclaration_of_declares {name : String} {d : Declaration K} {p : Payload K}
    (h : Declaration.Declares name d p) :
    ((∀ x ∈ p.scalars, Scalar.isFinite x = true) →
      ofDeclaration d = .ok ⟨name, p⟩ ∧
        ∀ (channel sample : String) (bins : ℕ),
          (⟨name, p⟩ : Modifier K).checkBins channel sample bins = .ok () ↔ p.Spans bins) ∧
    ((∃ x ∈ p.scalars, Scalar.isFinite x = false) →
      ofDeclaration d = .error (.invalid (.malformedPayload p.kind name))) := by
  obtain ⟨hname, hkind⟩ := h.label
  have hread := h.ofJson?_eq
  unfold ofDeclaration ofDeclarationAs
  rw [hkind]
  dsimp only
  constructor
  · intro hfinite
    rw [hread, if_pos hfinite, ← hname]
    exact ⟨rfl, fun channel sample bins =>
      Modifier.checkBins_eq_ok_iff.trans Payload.fits_iff_spans⟩
  · rintro ⟨x, hx, hinfinite⟩
    have hnot : ¬ ∀ x ∈ p.scalars, Scalar.isFinite x = true := by
      intro hall
      rw [hall x hx] at hinfinite
      cases hinfinite
    rw [hread, if_neg hnot, ← hname]

/-- A shift between histograms of different values is read back, up as up and down as down, and
passes the check for its two bins and no other number; one with an infinite scalar at the end of its
up histogram is refused. -/
theorem declared_shift :
    (ofDeclaration (.histosys "shape" [1, 2] [4, 3] : Declaration Float) =
        .ok ⟨"shape", .histosys [1, 2] [4, 3]⟩ ∧
      (⟨"shape", .histosys [1, 2] [4, 3]⟩ : Modifier Float).checkBins "region" "signal" 2 = .ok () ∧
      (⟨"shape", .histosys [1, 2] [4, 3]⟩ : Modifier Float).checkBins "region" "signal" 3 ≠
        .ok ()) ∧
    ofDeclaration (.histosys "shape" [1, 2] [4, 1 / 0] : Declaration Float) =
      .error (.invalid (.malformedPayload .histosys "shape")) := by
  obtain ⟨hread, hfits⟩ := (ofDeclaration_of_declares
    (.histosys [1, 2] [4, 3] : Declaration.Declares (K := Float) "shape" _ _)).1 (by decide)
  have hrefused := (ofDeclaration_of_declares
    (.histosys [1, 2] [4, 1 / 0] : Declaration.Declares (K := Float) "shape" _ _)).2
    ⟨1 / 0, by simp [Payload.scalars], by decide⟩
  exact ⟨⟨hread, (hfits _ _ 2).mpr ⟨rfl, rfl⟩, fun h => by cases ((hfits _ _ 3).mp h).1⟩, hrefused⟩

end Modifier

end BinnedModel
