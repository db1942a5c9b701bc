import Crashsafe.Finality
import Crashsafe.Rebuilding
import Crashsafe.ExactlyOnce
import Crashsafe.GraphAgreement
import Crashsafe.Cooldown
import Crashsafe.Punctuality
import Crashsafe.FailFast
import Crashsafe.LedgerMigration
import Crashsafe.TornReads
import Crashsafe.Outcomes
import Crashsafe.Startup
import Crashsafe.CompletionOrder
import Crashsafe.Progress
import Crashsafe.Guards
import Crashsafe.RetryBudget
import Crashsafe.ReleasedLease
import Crashsafe.Timestamps
import Crashsafe.Timeline
import Crashsafe.Rendering
import Crashsafe.EventTimes
import Crashsafe.WriteAhead
import Crashsafe.Recovery
import Crashsafe.WorkerLoop
import Crashsafe.LedgerSummary
import Crashsafe.Library.JsonText
import Crashsafe.Api
import Crashsafe.Columns
import Crashsafe.EndToEnd
import Crashsafe.Polling
import Crashsafe.Supervisor
import Crashsafe.Acknowledgement
