import Collectives.Command.Directory
import Collectives.Main
import Collectives.Phases
import Collectives.Proofs.Channels
import Collectives.Trace.Reader
import Collectives.Proofs.Levels
import Collectives.Proofs.PairPlans
import Collectives.Proofs.Partners
import Collectives.Proofs.Tree
import Collectives.Proofs.Calls
import Collectives.Proofs.Rendezvous
import Collectives.Proofs.Orders
import Collectives.Proofs.Executions
import Collectives.Proofs.World
import Collectives.Proofs.ChainedRounds
import Collectives.Proofs.RingSums
import Collectives.Proofs.ButterflySums
import Collectives.Proofs.Relocation
import Collectives.Proofs.PairedPlans
import Collectives.Proofs.Barrier
import Collectives.Proofs.Labels
import Collectives.Proofs.RingLabels
import Collectives.Proofs.TreeShape
import Collectives.Proofs.TreeSums
import Collectives.Proofs.CompleteExchange
import Collectives.Proofs.Exchanges
import Collectives.Proofs.Windows
import Collectives.Proofs.Loops
import Collectives.Proofs.CollectiveLoops
import Collectives.Proofs.TreeLoops
import Collectives.Proofs.Draws
import Collectives.Proofs.Refusals
import Collectives.Proofs.Blocks
import Collectives.Proofs.SideBySide
import Collectives.Proofs.Acceptance
import Collectives.Proofs.Handles
import Collectives.Proofs.Store
import Collectives.Proofs.GoalText
import Collectives.Proofs.TraceDocuments
import Collectives.Proofs.NestedSplits
import Collectives.Proofs.PhaseRuns
import Collectives.Proofs.Sinks
import Collectives.Proofs.CommandRuns
import Collectives.Proofs.Policies
import Collectives.Proofs.PhaseChains
import Collectives.Proofs.Computations
import Collectives.Proofs.Bytes
import Collectives.Proofs.Depth
import Collectives.Proofs.Symmetry
import Collectives.Proofs.Tallies
import Collectives.Proofs.JsonGrammar
import Collectives.Proofs.Presentations
import Collectives.Proofs.Overrides
import Collectives.Proofs.Truncation
import Collectives.Proofs.PayloadBounds
import Collectives.Proofs.NameEdits
import Collectives.Proofs.WordTree
