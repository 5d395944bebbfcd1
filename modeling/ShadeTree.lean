import ShadeTree.Description.Json
import ShadeTree.Description.Xml
import ShadeTree.Pool.Holdings
import ShadeTree.Proofs.Folding
import ShadeTree.Proofs.Routes
import ShadeTree.Proofs.Typing
import ShadeTree.Workbench
import ShadeTree.Proofs.Tally
import ShadeTree.Proofs.Ledger
import ShadeTree.Proofs.Custody
import ShadeTree.Proofs.Effect
import ShadeTree.Proofs.Meaning
import ShadeTree.Proofs.Depth
import ShadeTree.Proofs.Keeping
import ShadeTree.Proofs.Studio
import ShadeTree.Proofs.Inlining
import ShadeTree.Proofs.Preparing
import ShadeTree.Proofs.Borrowing
import ShadeTree.Proofs.Gallery
import ShadeTree.Proofs.Tenure
import ShadeTree.Proofs.Upkeep
import ShadeTree.Proofs.Telling
import ShadeTree.Proofs.Teardown
import ShadeTree.Proofs.Isolation
import ShadeTree.Proofs.Writing
import ShadeTree.Proofs.Lobes
import ShadeTree.Proofs.Steadiness
import ShadeTree.Proofs.Representation
import ShadeTree.Proofs.Retention
import ShadeTree.Proofs.Refusals
import ShadeTree.Proofs.Scanning
import ShadeTree.Proofs.Folded
import ShadeTree.Proofs.Missing
import ShadeTree.Proofs.Arithmetic
import ShadeTree.Proofs.Weights
import ShadeTree.Proofs.Paths
import ShadeTree.Proofs.Patterns
import ShadeTree.Proofs.Formats
import ShadeTree.Proofs.Lookups
