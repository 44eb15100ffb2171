import Abacus.Code.Bounded
import Abacus.Interchange
import Abacus.Json.Print
import Abacus.Machine.Run
import Abacus.Proofs.Acceptance
import Abacus.Proofs.Limits
import Abacus.Proofs.Registers
import Abacus.Proofs.Allocation
import Abacus.Proofs.Numbering
import Abacus.Proofs.Relabelling
import Abacus.Proofs.Variants
import Abacus.Proofs.Blame
import Abacus.Proofs.Exchange
import Abacus.Proofs.Embedding
import Abacus.Proofs.Arrivals
import Abacus.Proofs.Chains
import Abacus.Proofs.Settling
import Abacus.Proofs.Shape
import Abacus.Proofs.FixedPoint
import Abacus.Proofs.Reaching
import Abacus.Proofs.Folding
import Abacus.Proofs.Layout
import Abacus.Proofs.Flow
import Abacus.Proofs.DeadCode
import Abacus.Proofs.Listing
import Abacus.Proofs.StepLimit
import Abacus.Proofs.Confinement
import Abacus.Proofs.Framing
import Abacus.Proofs.Isolation
import Abacus.Proofs.Cycles
import Abacus.Proofs.Renumbering
import Abacus.Proofs.Relocation
import Abacus.Proofs.LabelCount
import Abacus.Proofs.LongRuns
