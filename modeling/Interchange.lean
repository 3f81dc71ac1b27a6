import Interchange.Codec.Document
import Interchange.Codec.Use
import Interchange.Instance.Edit
import Interchange.Proofs.Admission
import Interchange.Proofs.Agreement
import Interchange.Proofs.Bridge
import Interchange.Proofs.Bulk
import Interchange.Proofs.Calls
import Interchange.Proofs.Checking
import Interchange.Proofs.Copying
import Interchange.Proofs.Cycle
import Interchange.Proofs.Documents
import Interchange.Proofs.Faults
import Interchange.Proofs.Fidelity
import Interchange.Proofs.Following
import Interchange.Proofs.Indifference
import Interchange.Proofs.Keys
import Interchange.Proofs.Loading
import Interchange.Proofs.Modularity
import Interchange.Proofs.Naming
import Interchange.Proofs.Openness
import Interchange.Proofs.Positional
import Interchange.Proofs.Repetition
import Interchange.Proofs.Reporting
import Interchange.Proofs.RoundTrip
import Interchange.Proofs.Rounding
import Interchange.Proofs.Selection
import Interchange.Proofs.Termination
import Interchange.Proofs.Visiting
import Interchange.Schema.Builder
import Interchange.Value.Json
