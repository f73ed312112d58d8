import Fibers.Script.CellTrial
import Fibers.Script.Crew
import Fibers.Script.Failures
import Fibers.Script.Session
import Fibers.Script.Watch
import Fibers.Settings.Files
import Fibers.Settings.Workers
import Fibers.Text.Shown
import Fibers.Proofs.Above
import Fibers.Proofs.Cancellation
import Fibers.Proofs.Evaluation
import Fibers.Proofs.Finalization
import Fibers.Proofs.Refinement
import Fibers.Proofs.Reports
import Fibers.Proofs.Atomicity
import Fibers.Proofs.ExitDelivery
import Fibers.Proofs.FailuresKept
import Fibers.Proofs.Blindness
import Fibers.Proofs.Preservation
import Fibers.Proofs.Reuse
import Fibers.Proofs.ScopedFibers
import Fibers.Proofs.Leases
import Fibers.Proofs.Lines
import Fibers.Proofs.Linearizable
import Fibers.Proofs.CompletionOrder
import Fibers.Proofs.NormalForms
import Fibers.Proofs.ParallelResults
import Fibers.Proofs.Unwinding
import Fibers.Proofs.Substitution
import Fibers.Proofs.Queries
import Fibers.Proofs.Merging
import Fibers.Proofs.Announcing
import Fibers.Proofs.Passing
import Fibers.Proofs.Delays
import Fibers.Proofs.Closing
import Fibers.Proofs.Retrying
import Fibers.Proofs.Returning
import Fibers.Proofs.Timekeeping
import Fibers.Proofs.Sleeping
import Fibers.Proofs.Conservation
import Fibers.Proofs.Balance
import Fibers.Proofs.Integrity
