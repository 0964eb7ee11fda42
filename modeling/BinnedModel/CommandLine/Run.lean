import BinnedModel.CommandLine.Arguments
import BinnedModel.CommandLine.Report
import BinnedModel.Fault.Message
import BinnedModel.Workspace.Text

/-!
# Running a command

A command is run on the contents of its files. Options are read before the workspace,
and both before anything is computed, so the first of several faults is always the
same one.
-/

namespace BinnedModel.CommandLine

/-- A fault, possibly with the step in which it arose. -/
structure Failure where
  /-- What was being done. -/
  step : Option String
  /-- The cause. -/
  fault : Fault Float

/-- The first line of an error report: the step, or else the cause itself. -/
def Failure.headline (f : Failure) : String :=
  f.step.getD f.fault.message

/-- A finished analysis. -/
structure Result where
  /-- The document to write. -/
  document : Json Float
  /-- The file to write it to; the standard output if there is none. -/
  output : Option String
  /-- The parameter of interest that no modifier declares, if that is to be reported. -/
  undeclaredPoi : Option String

/-- How a command line ends. -/
inductive Outcome where
  /-- The line has no meaning. -/
  | unusable
  /-- The version was asked for. -/
  | version
  /-- Something failed. -/
  | failed (f : Failure)
  /-- There is a document. -/
  | finished (r : Result)

/-- Name and version of the program. -/
def versionLine : String :=
  "hf-cli 0.3.0"

/-- Mark a fault with the step in which it arose. -/
def during {α : Type} (step : Option String) : Except (Fault Float) α → Except Failure α
  | .ok a => .ok a
  | .error f => .error ⟨step, f⟩

/-- The options of a configuration file, or the standard ones without a file. -/
def loadOptions (files : String → Option String) :
    Option String → Except Failure (Options Float)
  | none => .ok .standard
  | some path =>
    during (some ("reading build options from " ++ path)) (Options.ofFile (files path))

/-- The workspace of an input file. -/
def loadWorkspace (files : String → Option String) (path : String) :
    Except Failure (Workspace Float) :=
  during (some ("loading " ++ path)) (Workspace.ofFile (files path))

/-- The document of an analysis. -/
def Analysis.document (ws : Workspace Float) (m : Model Float) :
    Analysis → Except (Fault Float) (Json Float)
  | inspect => .ok (Report.inspect m)
  | expected params => do
    let params := params.getD m.inits
    return Report.expected m params (← m.yields.eval params)
  | likelihood params constrained gradient => do
    let observed ← m.observed ws
    let params := params.getD m.inits
    let l ← if constrained then Likelihood.withPriors m.yields.toMap observed m.priors
      else Likelihood.ofCounts m.yields.toMap observed
    let value ← l.eval params
    let slopes ← if gradient then (l.gradient params).map some else .ok none
    return Report.likelihood m params constrained value slopes
  | priors draws seed => Report.priors m draws seed

/-- Build a model and analyse it. -/
def analyse (files : String → Option String) (analysis : Analysis) (input : String)
    (config output : Option String) : Except Failure Result := do
  let options ← loadOptions files config
  let ws ← loadWorkspace files input
  let m ← during none (Model.build ws options)
  let document ← during none (analysis.document ws m)
  return ⟨document, output, if m.poiUndeclared then m.poi else none⟩

/-- Run a command line on the files that can be read. -/
def run (args : List String) (files : String → Option String) : Outcome :=
  match Invocation.ofArguments? args with
  | none => .unusable
  | some .version => .version
  | some (.analyse analysis input config output warnings) =>
    match analyse files analysis input config output with
    | .error f => .failed f
    | .ok r => .finished { r with undeclaredPoi := r.undeclaredPoi.filter fun _ => warnings }

/-- The files that a command line reads. -/
def inputs (args : List String) : List String :=
  match Invocation.ofArguments? args with
  | some (.analyse _ input config _ _) => input :: config.toList
  | _ => []

end BinnedModel.CommandLine
