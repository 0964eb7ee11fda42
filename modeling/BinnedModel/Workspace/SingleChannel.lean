import BinnedModel.Fault.Basic
import BinnedModel.Workspace.Basic

/-!
# Workspaces of one channel

Two ready-made workspaces: a signal scaled by a free factor on top of a background
with one kind of uncertainty. The observed counts are signal plus background.
-/

namespace BinnedModel.Workspace

variable {K : Type} [Scalar K]

/-- Name of the only channel. -/
def channelName : String :=
  "singlechannel"

/-- All histograms have to have as many bins as the signal, which has to have some; the
first one that does not is reported. -/
def checkHistograms (signal : List K) (others : List (String × List K)) :
    Except (Fault K) Unit :=
  if signal.isEmpty then .error (.invalid .noSignal)
  else
    match others.find? fun h => h.2.length != signal.length with
    | some (label, h) =>
      .error (.binCountMismatch channelName (.histogram label) signal.length h.length)
    | none => .ok ()

/-- Signal and background in one channel, with one modifier on the background. -/
def ofBackground (signal background : List K) (uncertainty : Declaration K) : Workspace K :=
  { channels :=
      [⟨channelName,
        [⟨"signal", signal, [.normfactor "mu"]⟩, ⟨"background", background, [uncertainty]⟩]⟩]
    observations := [⟨channelName, List.zipWith (· + ·) background signal⟩]
    measurements := [⟨"Measurement", ⟨"mu", []⟩⟩]
    version := some "1.0.0" }

/-- A background with independent absolute uncertainties in its bins. -/
def uncorrelatedBackground (signal background uncertainty : List K) :
    Except (Fault K) (Workspace K) :=
  (checkHistograms signal
    [("background", background), ("bkg_uncertainty", uncertainty)]).map fun _ =>
      ofBackground signal background (.shapesys "uncorr_bkguncrt" uncertainty)

/-- A background whose shape varies between two histograms in all bins at once. -/
def correlatedBackground (signal background up down : List K) :
    Except (Fault K) (Workspace K) :=
  (checkHistograms signal
    [("background", background), ("bkg_up", up), ("bkg_down", down)]).map fun _ =>
      ofBackground signal background (.histosys "corr_bkguncrt" down up)

end BinnedModel.Workspace
