import StateSynthesis.Script.Run
import StateSynthesis.Statevector.Trace
import StateSynthesis.Settings
import StateSynthesis.Angles.Padding
import StateSynthesis.Fault.Message
import StateSynthesis.Proofs.Assignment
import StateSynthesis.Proofs.Exact
import StateSynthesis.Proofs.Rotation
import StateSynthesis.Proofs.Support
import StateSynthesis.Proofs.Wave
import StateSynthesis.Proofs.Simulation
import StateSynthesis.Proofs.Soundness
import StateSynthesis.Proofs.Keeping
import StateSynthesis.Proofs.Reachability
import StateSynthesis.Proofs.Simulability
import StateSynthesis.Proofs.Pruning
import StateSynthesis.Proofs.FailedPreparation
import StateSynthesis.Proofs.Acceptance
import StateSynthesis.Proofs.Multiplexing
import StateSynthesis.Proofs.Diagonalization
import StateSynthesis.Proofs.Merging
import StateSynthesis.Proofs.Disentangling
import StateSynthesis.Proofs.Preparing
import StateSynthesis.Proofs.Allocation
import StateSynthesis.Proofs.ExactPreparation
import StateSynthesis.Proofs.OuterControls
import StateSynthesis.Proofs.Handover
import StateSynthesis.Proofs.Leaving
import StateSynthesis.Proofs.Validation
import StateSynthesis.Proofs.Operator
import StateSynthesis.Proofs.Nesting
import StateSynthesis.Proofs.NestedScript
import StateSynthesis.Proofs.Controlling
import StateSynthesis.Proofs.Entries
import StateSynthesis.Proofs.Unitarity
import StateSynthesis.Proofs.Exporting
import StateSynthesis.Proofs.Thinning
import StateSynthesis.Proofs.Transform
import StateSynthesis.Proofs.Options
import StateSynthesis.Proofs.Negation
import StateSynthesis.Proofs.Scaling
import StateSynthesis.Proofs.Commuting
import StateSynthesis.Proofs.Comparing
import StateSynthesis.Proofs.Indexing
import StateSynthesis.Proofs.Embedding
import StateSynthesis.Proofs.Levels
import StateSynthesis.Proofs.Ground
import StateSynthesis.Proofs.Size
import StateSynthesis.Proofs.Freshness
