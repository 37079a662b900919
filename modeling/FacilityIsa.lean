import FacilityIsa.BitRange
import FacilityIsa.Draws.Script
import FacilityIsa.Main
import FacilityIsa.Proofs.Atomicity
import FacilityIsa.Proofs.Dispatch
import FacilityIsa.Proofs.SignedRange
import FacilityIsa.Proofs.Effects
import FacilityIsa.Proofs.FaultCauses
import FacilityIsa.Proofs.Placement
import FacilityIsa.Proofs.Sessions
import FacilityIsa.Proofs.FetchSafety
import FacilityIsa.Proofs.ReadOnlyText
import FacilityIsa.Proofs.PlainSums
import FacilityIsa.Proofs.SegmentBorders
import FacilityIsa.Proofs.CanonicalSegments
import FacilityIsa.Proofs.MemoryHistory
import FacilityIsa.Proofs.EncodedDispatch
import FacilityIsa.Proofs.OperandCodec
import FacilityIsa.Proofs.DispatchOrder
import FacilityIsa.Proofs.OperandUse
import FacilityIsa.Proofs.AssemblyText
import FacilityIsa.Proofs.Footprints
import FacilityIsa.Proofs.Traces
import FacilityIsa.Proofs.Agreement
import FacilityIsa.Proofs.Lockstep
import FacilityIsa.Proofs.Reloading
import FacilityIsa.Proofs.ReachableMachines
import FacilityIsa.Proofs.JoinedPrograms
import FacilityIsa.Proofs.Collisions
import FacilityIsa.Proofs.LoadOutcome
import FacilityIsa.Proofs.ExactArithmetic
import FacilityIsa.Proofs.Suppression
import FacilityIsa.Proofs.Meltdowns
import FacilityIsa.Proofs.ProgramCounter
import FacilityIsa.Proofs.BitFields
import FacilityIsa.Proofs.RegisterNames
import FacilityIsa.Proofs.ExtractionYields
import FacilityIsa.Proofs.ForwardPrograms
import FacilityIsa.Proofs.SeededDraws
