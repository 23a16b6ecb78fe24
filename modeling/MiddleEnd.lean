import MiddleEnd.Listing
import MiddleEnd.Pipeline
import MiddleEnd.Proofs.Promotion.Preservation
import MiddleEnd.Proofs.Report
import MiddleEnd.Proofs.Inlining.Fresh
import MiddleEnd.Proofs.Inlining.Preservation
import MiddleEnd.Proofs.Machine.Restored
import MiddleEnd.Proofs.Builder.Resumed
import MiddleEnd.Proofs.Builder.Sound
import MiddleEnd.Proofs.DominanceFacts
import MiddleEnd.Proofs.Labels
import MiddleEnd.Proofs.Graph.DominatorTree
import MiddleEnd.Proofs.Listing.Initializers
import MiddleEnd.Proofs.Settled
import MiddleEnd.Proofs.Promotion.Sweep
import MiddleEnd.Proofs.Listing.Literal
import MiddleEnd.Proofs.Machine.Elements
import MiddleEnd.Proofs.Machine.Paced
import MiddleEnd.Proofs.Types
import MiddleEnd.Proofs.FiniteSets
