import BinnedModel.Json.Decode

/-!
# Modifier kinds

A modifier changes the yields of one sample through parameters. Its kind says what
it does to them: whether it adds a shift or multiplies by a factor, and whether it
has one parameter or one per bin.
-/

namespace BinnedModel

/-- The seven kinds of modifiers. -/
inductive ModifierKind where
  /-- Free factor for all bins. -/
  | normfactor
  /-- Constrained factor for all bins, interpolated between two variations. -/
  | normsys
  /-- Constrained shift, interpolated between two varied histograms. -/
  | histosys
  /-- Constrained factor per bin, from absolute uncertainties. -/
  | shapesys
  /-- Free factor per bin. -/
  | shapefactor
  /-- Constrained factor per bin, from statistical uncertainties. -/
  | staterror
  /-- Luminosity factor, whose width is set by the measurement. -/
  | lumi
deriving DecidableEq, Repr

namespace ModifierKind

/-- Every kind once, in the order of declaration. -/
def all : List ModifierKind :=
  [normfactor, normsys, histosys, shapesys, shapefactor, staterror, lumi]

/-- The name of a kind in a workspace. -/
def name : ModifierKind → String
  | normfactor => "normfactor"
  | normsys => "normsys"
  | histosys => "histosys"
  | shapesys => "shapesys"
  | shapefactor => "shapefactor"
  | staterror => "staterror"
  | lumi => "lumi"

/-- The kind of a name. -/
def ofName? (s : String) : Option ModifierKind :=
  all.find? fun k => k.name == s

/-- Whether a modifier of this kind has one parameter per bin. -/
def isPerBin : ModifierKind → Bool
  | shapesys | shapefactor | staterror => true
  | _ => false

/-- Whether a modifier of this kind adds a shift; all others multiply by a factor. -/
def isAdditive : ModifierKind → Bool
  | histosys => true
  | _ => false

/-- The parameter value at which a modifier of this kind changes nothing. -/
def neutral {K : Type} [Scalar K] : ModifierKind → K
  | normsys | histosys => 0
  | _ => 1

/-- Read a kind from JSON. -/
def ofJson? {K : Type} (j : Json K) : Option ModifierKind :=
  j.alternative?.bind ofName?

end ModifierKind

end BinnedModel
