import PullStream.Main
import PullStream.Proofs.Collecting
import PullStream.Proofs.Composition.Expression
import PullStream.Proofs.Concatenation
import PullStream.Proofs.Cursor.Advance
import PullStream.Proofs.Demand.Pipeline
import PullStream.Proofs.Document.Names
import PullStream.Proofs.Exclusion
import PullStream.Proofs.Extremes
import PullStream.Proofs.Factories
import PullStream.Proofs.Folding
import PullStream.Proofs.Independence.Session
import PullStream.Proofs.Limit
import PullStream.Proofs.LostInput
import PullStream.Proofs.Merging
import PullStream.Proofs.Nested.Joining
import PullStream.Proofs.Opening
import PullStream.Proofs.Range
import PullStream.Proofs.ShortCircuit.Consumers
import PullStream.Proofs.Spreading
import PullStream.Proofs.Tree.Laziness
import PullStream.Proofs.Tree.Panics
import PullStream.Proofs.Tree.Root
import PullStream.Proofs.Window
import PullStream.Reduction
import PullStream.Scalar
import PullStream.Script.TreeSession
