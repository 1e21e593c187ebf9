import Wiring.Batch
import Wiring.Course
import Wiring.Model.Compose
import Wiring.Model.Reading
import Wiring.Model.Writing
import Wiring.Proofs.Ancestry
import Wiring.Proofs.Answers
import Wiring.Proofs.Building
import Wiring.Proofs.Catalogs
import Wiring.Proofs.Derivation
import Wiring.Proofs.Distinct
import Wiring.Proofs.Drawing
import Wiring.Proofs.Extension
import Wiring.Proofs.Failures
import Wiring.Proofs.Freezing
import Wiring.Proofs.Gathering
import Wiring.Proofs.Independence
import Wiring.Proofs.Local
import Wiring.Proofs.Moves
import Wiring.Proofs.Order
import Wiring.Proofs.Outcomes
import Wiring.Proofs.Permutation
import Wiring.Proofs.Rebasing
import Wiring.Proofs.Restriction
import Wiring.Proofs.Settling
import Wiring.Proofs.Slots
import Wiring.Proofs.Stores
import Wiring.Proofs.Supply
import Wiring.Proofs.Surface
import Wiring.Proofs.Threads
import Wiring.Proofs.Wired
import Wiring.Settings.Layers
import Wiring.Proofs.Trees
import Wiring.Proofs.Acceptance
import Wiring.Proofs.Interfaces
import Wiring.Proofs.Reaching
import Wiring.Proofs.Precedence
import Wiring.Proofs.Records
import Wiring.Proofs.RoundTrip
import Wiring.Proofs.Layering
import Wiring.Proofs.Lineage
import Wiring.Proofs.Registration
import Wiring.Proofs.Routes
import Wiring.Proofs.Aliases
import Wiring.Proofs.Walks
import Wiring.Proofs.Traces
import Wiring.Proofs.Supertypes
import Wiring.Proofs.Rounds
import Wiring.Proofs.Loans
import Wiring.Proofs.Demands
import Wiring.Proofs.Missing
import Wiring.Proofs.Conflicts
import Wiring.Proofs.Chains
import Wiring.Proofs.Inclusion
import Wiring.Proofs.Searches
import Wiring.Proofs.Variables
import Wiring.Proofs.Following
import Wiring.Proofs.Bookkeeping
