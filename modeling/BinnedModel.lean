import BinnedModel.Workspace.SingleChannel
import BinnedModel.Main
import BinnedModel.Proofs.Sequence
import BinnedModel.Proofs.Registry.Grouping
import BinnedModel.Proofs.Model.Planning
import BinnedModel.Proofs.Model.Assembly
import BinnedModel.Proofs.Model.Meaning
import BinnedModel.Proofs.Model.Partition
import BinnedModel.Proofs.Scalar.FiniteOrder
import BinnedModel.Proofs.Model.WellFormed
import BinnedModel.Proofs.Registry.BinMap
import BinnedModel.Proofs.Model.Frame
import BinnedModel.Proofs.Likelihood.WellSized
import BinnedModel.Proofs.Model.InBounds
import BinnedModel.Proofs.Model.SlotNames
import BinnedModel.Proofs.Scalar.Exact
import BinnedModel.Proofs.Model.Reordering
import BinnedModel.Proofs.Registry.Sums
import BinnedModel.Proofs.Model.OrderInvariance
import BinnedModel.Proofs.Model.StartingPoint
import BinnedModel.Proofs.Model.Alignment
import BinnedModel.Proofs.Model.NeutralPoint
import BinnedModel.Proofs.Registry.InPlace
import BinnedModel.Proofs.Registry.Replay
import BinnedModel.Proofs.Model.Confinement
import BinnedModel.Proofs.Json.Codec
import BinnedModel.Proofs.Model.Pinning
import BinnedModel.Proofs.Workspace.RoundTrip
import BinnedModel.Proofs.Interpolation.Bernstein
import BinnedModel.Proofs.Interpolation.Mirror
import BinnedModel.Proofs.Interpolation.Monotone
import BinnedModel.Proofs.Interpolation.Contact
import BinnedModel.Proofs.Scalar.Extended
import BinnedModel.Proofs.Likelihood.Parts
import BinnedModel.Proofs.Likelihood.Divergence
import BinnedModel.Proofs.Likelihood.Saturation
import BinnedModel.Proofs.Registry.Widths
import BinnedModel.Proofs.Interpolation.ShiftContact
import BinnedModel.Proofs.Likelihood.FullDensity
import BinnedModel.Proofs.Likelihood.Gradient
import BinnedModel.Proofs.Interpolation.Positive
import BinnedModel.Proofs.Registry.FirstSlot
import BinnedModel.Proofs.Registry.Units
import BinnedModel.Proofs.Model.Units
import BinnedModel.Proofs.Workspace.SingleChannel
import BinnedModel.Proofs.Modifier.Declared
import BinnedModel.Proofs.Interpolation.Precision
import BinnedModel.Proofs.Registry.Representation
import BinnedModel.Proofs.Registry.Addresses
