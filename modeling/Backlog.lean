import Backlog.Proofs.Arrival
import Backlog.Proofs.Comparison
import Backlog.Proofs.Conservation
import Backlog.Proofs.Courses
import Backlog.Proofs.Draining
import Backlog.Proofs.Groups
import Backlog.Proofs.HandOuts
import Backlog.Proofs.Isolation
import Backlog.Proofs.LogNumbers
import Backlog.Proofs.Postponing
import Backlog.Proofs.Punctuality
import Backlog.Proofs.PushOrder
import Backlog.Proofs.Queues
import Backlog.Proofs.Recovery
import Backlog.Proofs.Refusals
import Backlog.Proofs.Retries
import Backlog.Proofs.Selection
import Backlog.Proofs.Sessions
import Backlog.Proofs.Sorting
import Backlog.Proofs.Stalling
import Backlog.Proofs.Statuses
import Backlog.Proofs.Stopping
import Backlog.Proofs.Takeovers
import Backlog.Proofs.Termination
import Backlog.Proofs.TicketLife
import Backlog.Proofs.Verdicts
import Backlog.Proofs.Waiting
import Backlog.Proofs.Waking
