import FunctionValues.Session
import FunctionValues.Types.Applicability
import FunctionValues.Types.Catalogue
import FunctionValues.Proofs.Stored
import FunctionValues.Proofs.Phases
import FunctionValues.Proofs.Latches
import FunctionValues.Proofs.References
import FunctionValues.Proofs.Sound
import FunctionValues.Proofs.Reachability
import FunctionValues.Proofs.Persistence
import FunctionValues.Proofs.AtMostOnce
import FunctionValues.Proofs.Results
import FunctionValues.Proofs.Solo
import FunctionValues.Proofs.Strides
import FunctionValues.Proofs.WriteOnce
import FunctionValues.Proofs.Runs
import FunctionValues.Proofs.Sessions
import FunctionValues.Proofs.Lockstep
import FunctionValues.Proofs.PolicyAgreement
import FunctionValues.Proofs.Evaluation
import FunctionValues.Proofs.MirroredRuns
import FunctionValues.Proofs.Transparency
import FunctionValues.Proofs.Renumbering
import FunctionValues.Proofs.Invariants
import FunctionValues.Proofs.Vacancies
import FunctionValues.Proofs.Provenance
import FunctionValues.Proofs.Failures
import FunctionValues.Proofs.Sharing
import FunctionValues.Proofs.Purity
import FunctionValues.Proofs.Courses
import FunctionValues.Proofs.Recursion
import FunctionValues.Proofs.Accounts
import FunctionValues.Proofs.Standings
import FunctionValues.Proofs.Followings
import FunctionValues.Proofs.PlainResults
import FunctionValues.Proofs.Ledgers
import FunctionValues.Proofs.Balance
import FunctionValues.Proofs.Sequences
import FunctionValues.Proofs.Schedules
import FunctionValues.Proofs.Enclosure
import FunctionValues.Proofs.Nesting
import FunctionValues.Proofs.Waiting
import FunctionValues.Proofs.Unwinding
import FunctionValues.Proofs.Admissions
import FunctionValues.Proofs.Rememoizing
import FunctionValues.Proofs.Termination
import FunctionValues.Proofs.Occupancy
import FunctionValues.Proofs.Removals
import FunctionValues.Proofs.Episodes
import FunctionValues.Proofs.Bookkeeping
import FunctionValues.Proofs.Chains
import FunctionValues.Proofs.MissingWork
import FunctionValues.Proofs.InnerRuns
import FunctionValues.Proofs.Routing
import FunctionValues.Proofs.Boundaries
import FunctionValues.Proofs.Effects
import FunctionValues.Proofs.Origins
import FunctionValues.Proofs.PartialApplications
import FunctionValues.Proofs.Stacking
import FunctionValues.Proofs.Timelines
import FunctionValues.Proofs.Linearization
import FunctionValues.Proofs.Assignability
import FunctionValues.Proofs.Attachment
import FunctionValues.Proofs.Acceptance
