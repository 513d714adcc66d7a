import Isolate.Main
import Isolate.Workspace
import Isolate.Proofs.Matching.Renaming
import Isolate.Proofs.Meaning.Normalize
import Isolate.Proofs.Solving.SolutionSet
import Isolate.Proofs.Solving.Termination
import Isolate.Proofs.Solving.Towers
import Isolate.Proofs.Solving.Skeleton
import Isolate.Proofs.Solving.Growth
import Isolate.Proofs.Isolating.Equivalence
import Isolate.Proofs.Solving.Divisors
import Isolate.Proofs.Matching.Exchange
import Isolate.Proofs.Matching.Unambiguous
import Isolate.Proofs.Matching.Complete
import Isolate.Proofs.Isolating.Progress
import Isolate.Proofs.Solving.Leaves
import Isolate.Proofs.Solving.Record
import Isolate.Proofs.Isolating.Refusal
import Isolate.Proofs.Solving.Frame
import Isolate.Proofs.Solving.Refusals
import Isolate.Proofs.Solving.Skipping
import Isolate.Proofs.Settling.Folding
import Isolate.Proofs.Settling.Identities
import Isolate.Proofs.Matching.AnyPair
import Isolate.Proofs.Reordering.Normalized
import Isolate.Proofs.Analysis.Current
import Isolate.Proofs.Records.Continued
import Isolate.Proofs.Writing.Texts
import Isolate.Proofs.Keeping.History
import Isolate.Proofs.Isolating.Placeholders
import Isolate.Proofs.Isolating.Shrinking
import Isolate.Proofs.Settling.Unnested
import Isolate.Proofs.LikeTerms
import Isolate.Proofs.Matching.Identity
import Isolate.Proofs.Matching.Failing
import Isolate.Proofs.Solving.Paths
import Isolate.Proofs.Writing.Polish
import Isolate.Proofs.Analysis.Levels
import Isolate.Proofs.Tree.Traversals
import Isolate.Proofs.Tree.Occurrences
import Isolate.Proofs.Reordering.Keys
