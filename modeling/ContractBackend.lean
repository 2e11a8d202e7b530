import ContractBackend.Main
import ContractBackend.Proofs.Lowering.Containment
import ContractBackend.Proofs.Meaning.Lowering
import ContractBackend.Proofs.FlatCode.Walking
import ContractBackend.Proofs.Gauge.Endings
import ContractBackend.Proofs.Failures
import ContractBackend.Proofs.Gauge.Leveling
import ContractBackend.Proofs.FlatCode.Reconstruction
import ContractBackend.Proofs.Artifact.RoundTrip
import ContractBackend.Proofs.Artifact.TextLines
import ContractBackend.Proofs.Spill.Calls
import ContractBackend.Proofs.Improvements
import ContractBackend.Proofs.Graph.Normalizing
import ContractBackend.Proofs.Optimize.Settling
import ContractBackend.Proofs.Slots.Demand
import ContractBackend.Proofs.Labels
import ContractBackend.Proofs.Handles
import ContractBackend.Proofs.Machine.Bounds
import ContractBackend.Proofs.StackCheck
