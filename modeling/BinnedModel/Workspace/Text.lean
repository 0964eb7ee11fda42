import BinnedModel.Json.Reader
import BinnedModel.Options
import BinnedModel.Scalar.Binary64
import BinnedModel.Workspace.Json

/-!
# Workspaces and options from text

A file is given by its content, or by nothing if it cannot be read.
-/

namespace BinnedModel

/-- The workspace of a JSON text. -/
def Workspace.ofText (text : String) : Except (Fault Float) (Workspace Float) :=
  match (Json.parse? text).bind Workspace.ofJson? with
  | some ws => .ok ws
  | none => .error .malformedJson

/-- The workspace of a file. -/
def Workspace.ofFile : Option String → Except (Fault Float) (Workspace Float)
  | some text => ofText text
  | none => .error .unreadableFile

/-- The options of a JSON text; they have to be admissible. -/
def Options.ofText (text : String) : Except (Fault Float) (Options Float) :=
  match (Json.parse? text).bind Options.ofJson? with
  | some o => o.check.map fun _ => o
  | none => .error .malformedJson

/-- The options of a file. -/
def Options.ofFile : Option String → Except (Fault Float) (Options Float)
  | some text => ofText text
  | none => .error .unreadableFile

end BinnedModel
