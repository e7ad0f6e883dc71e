import ProgramQueue.Main
import ProgramQueue.Operator.Host
import ProgramQueue.Outside.Record
import ProgramQueue.Push.Prepared
import ProgramQueue.Queue.Locks
import ProgramQueue.Queue.Session
import ProgramQueue.Proofs.Budgets
import ProgramQueue.Proofs.Executions
import ProgramQueue.Proofs.Wakeups
import ProgramQueue.Proofs.Registrations
import ProgramQueue.Proofs.Readability
import ProgramQueue.Proofs.Rereading
import ProgramQueue.Proofs.Finished
import ProgramQueue.Proofs.Crashes
import ProgramQueue.Proofs.Exclusion
import ProgramQueue.Proofs.Successors
import ProgramQueue.Proofs.Completion
import ProgramQueue.Proofs.Ledgers
import ProgramQueue.Proofs.Overtaking
import ProgramQueue.Proofs.Resumption
import ProgramQueue.Proofs.Announcements
import ProgramQueue.Proofs.Codecs
import ProgramQueue.Proofs.Amounts
import ProgramQueue.Proofs.Payments
import ProgramQueue.Proofs.Batches
import ProgramQueue.Proofs.Enrolments
import ProgramQueue.Proofs.Repetition
import ProgramQueue.Proofs.Convergence
import ProgramQueue.Proofs.Claims
import ProgramQueue.Proofs.Failures
import ProgramQueue.Proofs.Reorderings
import ProgramQueue.Proofs.Misfits
import ProgramQueue.Proofs.Thresholds
import ProgramQueue.Proofs.Tolerance
import ProgramQueue.Proofs.Maintenance
import ProgramQueue.Proofs.Attempts
import ProgramQueue.Proofs.Arithmetic
import ProgramQueue.Proofs.Logins
import ProgramQueue.Proofs.Leftovers
import ProgramQueue.Proofs.Waits
