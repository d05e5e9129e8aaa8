import PTAuth.Runtime.Temporal
import PTAuth.Pass.PassUtils
import PTAuth.Pass.Decoration
import PTAuth.Pass.Rewrites
import PTAuth.Pass.Walk
import PTAuth.Pass.Slots
import PTAuth.Pass.Arming
import PTAuth.Library.History
import PTAuth.Pass.Placement
import PTAuth.Pass.Coverage
import PTAuth.Runtime.Acceptance
import PTAuth.Runtime.Requests
import PTAuth.Runtime.Realloc
import PTAuth.Runtime.Ledger
import PTAuth.Runtime.Tagging
import PTAuth.Pass.Module
import PTAuth.Pass.Optimizer
import PTAuth.Pass.Freeing
import PTAuth.Pass.Context
import PTAuth.Pass.Replacement
import PTAuth.Pass.ReplacementPhase
import PTAuth.Library.Simulation
import PTAuth.Pass.Semantics
import PTAuth.Pass.Preservation
import PTAuth.Pass.ArgumentChecks
import PTAuth.Pass.Elision
import PTAuth.Pass.Accesses
import PTAuth.Pass.Independence
import PTAuth.Library.Following
import PTAuth.Pass.Sites
import PTAuth.Pass.Verification
import PTAuth.Pass.Following
import PTAuth.Pass.Program
import PTAuth.Pass.Protection
import PTAuth.Pass.ReplacedPrograms
import PTAuth.Pass.RunOnModule
import PTAuth.Pass.UseAfterFree
import PTAuth.Pass.VerifiedPass
