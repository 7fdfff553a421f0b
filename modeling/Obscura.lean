import Obscura.Literal.StaticFind
import Obscura.Main
import Obscura.Measure.Report
import Obscura.Storage.Steps
import Obscura.Workload.Counter
import Obscura.Proofs.AccessorPlacement
import Obscura.Proofs.Assignments
import Obscura.Proofs.BlockContents
import Obscura.Proofs.Dispatch
import Obscura.Proofs.Eligibility
import Obscura.Proofs.Grouping
import Obscura.Proofs.Guards
import Obscura.Proofs.HelperPlacement
import Obscura.Proofs.Hygiene
import Obscura.Proofs.ModifierRuns
import Obscura.Proofs.NumberLiterals
import Obscura.Proofs.Predicate
import Obscura.Proofs.Provenance
import Obscura.Proofs.Ranges
import Obscura.Proofs.RenamerHistory
import Obscura.Proofs.Residue
import Obscura.Proofs.Restoring
import Obscura.Proofs.Segments
import Obscura.Proofs.Thinning
