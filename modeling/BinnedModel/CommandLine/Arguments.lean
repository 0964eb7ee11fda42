import BinnedModel.Decimal.Literal

/-!
# Command line arguments

The words of a command line name a command and its options. An option with a value
takes it behind an equals sign or from the next word; `-i` and `-o` abbreviate
`--input` and `--output`. Two options belong to every command and may also stand in
front of it. A word that has no meaning, an option that comes twice, and a value that
cannot be read make the whole line unusable.
-/

namespace BinnedModel.CommandLine

/-- What to do with a model. -/
inductive Analysis where
  /-- Describe channels and parameters. -/
  | inspect
  /-- Expected counts, at the given parameters or at the starting point. -/
  | expected (params : Option (List Float))
  /-- Logarithmic likelihood of the observed counts, and its gradient if wanted. -/
  | likelihood (params : Option (List Float)) (constrained gradient : Bool)
  /-- Random values of each prior. -/
  | priors (draws : Nat) (seed : UInt64)

/-- A usable command line. -/
inductive Invocation where
  /-- Print the version. -/
  | version
  /-- Build the model of a workspace file and analyse it. -/
  | analyse (analysis : Analysis) (input : String) (config output : Option String)
      (warnings : Bool)

/-- Words sorted by their role. -/
structure Words where
  /-- The command, once it has been met. -/
  command : Option String
  /-- Options with their values. -/
  values : List (String × String)
  /-- Options without values. -/
  flags : List String

/-- Options of every command; both take a value. -/
def commonOptions : List String :=
  ["config", "log-level"]

/-- The options of a command that take a value. -/
def valueOptions : String → List String
  | "inspect" => ["input", "output"]
  | "expected" => ["input", "params", "output"]
  | "nll" => ["input", "params", "threads", "output"]
  | "priors" => ["input", "draws", "seed", "output"]
  | _ => []

/-- The options of a command that take no value. -/
def flagOptions : String → List String
  | "nll" => ["no-constraints", "gradient"]
  | _ => []

/-- The commands. -/
def commands : List String :=
  ["inspect", "expected", "nll", "priors", "version"]

namespace Words

/-- Whether an option that takes a value may stand here. -/
def takesValue (w : Words) (name : String) : Bool :=
  commonOptions.contains name || (w.command.map valueOptions).any (·.contains name)

/-- Whether an option that takes no value may stand here. -/
def takesFlag (w : Words) (name : String) : Bool :=
  (w.command.map flagOptions).any (·.contains name)

/-- Record an option with its value, once. -/
def addValue? (w : Words) (name value : String) : Option Words :=
  if w.values.any (·.1 == name) then none
  else some { w with values := (name, value) :: w.values }

/-- Record an option without value, once. -/
def addFlag? (w : Words) (name : String) : Option Words :=
  if w.flags.contains name then none else some { w with flags := name :: w.flags }

/-- Whether the next word may be the value of an option: parameters may start with a
minus sign, other values may not. -/
def isValue (name value : String) : Bool :=
  name == "params" || value == "-" || !value.startsWith "-"

/-- The name and the attached value of a word that is an option. -/
def option? (word : String) : Option (String × Option String) :=
  match word.toList with
  | '-' :: '-' :: cs =>
    match cs.span (· != '=') with
    | (name, '=' :: value) => some (String.ofList name, some (String.ofList value))
    | (name, _) => some (String.ofList name, none)
  | '-' :: c :: cs =>
    let name := if c = 'i' then "input" else if c = 'o' then "output" else ""
    match cs with
    | [] => some (name, none)
    | '=' :: value => some (name, some (String.ofList value))
    | value => some (name, some (String.ofList value))
  | _ => none

/-- Sort words by their role. -/
def sort? : List String → Words → Option Words
  | [], w => some w
  | word :: rest, w =>
    match option? word with
    | none =>
      if w.command.isNone && commands.contains word then sort? rest { w with command := some word }
      else none
    | some (name, some value) =>
      if w.takesValue name then (w.addValue? name value).bind (sort? rest) else none
    | some (name, none) =>
      if w.takesFlag name then (w.addFlag? name).bind (sort? rest)
      else if w.takesValue name then
        match rest with
        | value :: rest =>
          if isValue name value then (w.addValue? name value).bind (sort? rest) else none
        | [] => none
      else none

/-- The value of an option. -/
def value? (w : Words) (name : String) : Option String :=
  w.values.lookup name

/-- The value of an option read as a count, or a default. -/
def count? (w : Words) (name : String) (default : Nat) : Option Nat :=
  match w.value? name with
  | none => some default
  | some s => Decimal.count? s

/-- The parameters, separated by commas, if they are given. -/
def params? (w : Words) : Option (Option (List Float)) :=
  match w.value? "params" with
  | none => some none
  | some s => ((s.splitOn ",").mapM Decimal.float?).map some

/-- Whether warnings are printed: at all levels but that of errors. Levels are named
in any case or numbered from one. -/
def warnings? (w : Words) : Option Bool :=
  match (w.value? "log-level").map String.toLower with
  | none => some true
  | some level =>
    if level == "error" || level == "1" then some false
    else if ["warn", "info", "debug", "trace", "2", "3", "4", "5"].contains level then some true
    else none

/-- The analysis that the command names. -/
def analysis? (w : Words) : String → Option Analysis
  | "inspect" => some .inspect
  | "expected" => w.params?.map .expected
  | "nll" => do
    let params ← w.params?
    let _ ← w.count? "threads" 0
    return .likelihood params (!w.flags.contains "no-constraints") (w.flags.contains "gradient")
  | "priors" => do
    let draws ← w.count? "draws" 1
    let seed ← w.count? "seed" 42
    return .priors draws (UInt64.ofNat seed)
  | _ => none

/-- The meaning of sorted words. -/
def invocation? (w : Words) : Option Invocation := do
  let warnings ← w.warnings?
  let command ← w.command
  if command == "version" then return .version
  let analysis ← w.analysis? command
  let input ← w.value? "input"
  return .analyse analysis input (w.value? "config") (w.value? "output") warnings

end Words

/-- The meaning of a command line, if it has one. -/
def Invocation.ofArguments? (args : List String) : Option Invocation :=
  (Words.sort? args ⟨none, [], []⟩).bind Words.invocation?

end BinnedModel.CommandLine
