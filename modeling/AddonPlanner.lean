import AddonPlanner.Form.Text
import AddonPlanner.Session
import AddonPlanner.Proofs.Bounds
import AddonPlanner.Proofs.Bounds.Combination
import AddonPlanner.Proofs.Bounds.Emptiness
import AddonPlanner.Proofs.Keyed
import AddonPlanner.Proofs.Keyed.Operations
import AddonPlanner.Proofs.Text
import AddonPlanner.Proofs.Text.Bytes
import AddonPlanner.Proofs.Version.Tokens
import AddonPlanner.Proofs.Version.Reference
import AddonPlanner.Proofs.Catalog
import AddonPlanner.Proofs.Catalog.Listing
import AddonPlanner.Proofs.Resolution.Closure
import AddonPlanner.Proofs.Resolution.Search
import AddonPlanner.Proofs.Resolution.Verdict
import AddonPlanner.Proofs.Resolution.Trace
import AddonPlanner.Proofs.Resolution.Report
import AddonPlanner.Proofs.Resolution.HostNeeds
import AddonPlanner.Proofs.Resolution.Locality
import AddonPlanner.Proofs.Resolution.Consistent
import AddonPlanner.Proofs.Resolution.Reordered
import AddonPlanner.Proofs.Resolution.Inheritance
import AddonPlanner.Proofs.Resolution.Expansions
import AddonPlanner.Proofs.Dependents
import AddonPlanner.Proofs.Dependents.Graph
import AddonPlanner.Proofs.Removal
import AddonPlanner.Proofs.Removal.Cascade
import AddonPlanner.Proofs.Removal.Dependents
import AddonPlanner.Proofs.Removal.Tolerance
import AddonPlanner.Proofs.Plan.Phases
import AddonPlanner.Proofs.Plan.Outcome
import AddonPlanner.Proofs.Plan.Breakage
import AddonPlanner.Proofs.Plan.Selection
import AddonPlanner.Proofs.Plan.WellFormed
import AddonPlanner.Proofs.Plan.Nothing
import AddonPlanner.Proofs.Plan.Order
import AddonPlanner.Proofs.Plan.Goal
import AddonPlanner.Proofs.Plan.Entries
import AddonPlanner.Proofs.Plan.Exchange
import AddonPlanner.Proofs.Plan.Fetch
import AddonPlanner.Proofs.Plan.Reordered
import AddonPlanner.Proofs.Plan.Rewalk
import AddonPlanner.Proofs.Removal.Larger
import AddonPlanner.Proofs.Review
import AddonPlanner.Proofs.Host
import AddonPlanner.Proofs.Review.Roles
import AddonPlanner.Proofs.Form.Record
import AddonPlanner.Proofs.HostVersion
import AddonPlanner.Proofs.Form.RoundTrip
import AddonPlanner.Proofs.Version.Reading
import AddonPlanner.Proofs.Session
