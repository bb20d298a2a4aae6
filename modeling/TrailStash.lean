import TrailStash.Retained
import TrailStash.Wakes
import TrailStash.Ledgers
import TrailStash.Held
import TrailStash.Arrivals
import TrailStash.Registration
import TrailStash.Grants
import TrailStash.Refcount
import TrailStash.LastCall
import TrailStash.Unsubscribe
import TrailStash.Selection
import TrailStash.SweepEffect
import TrailStash.Receipts
import TrailStash.Reclaim
import TrailStash.Admission
import TrailStash.KeyGrammar
import TrailStash.Wire
import TrailStash.FailedSweep
import TrailStash.Auth
import TrailStash.Retries
import TrailStash.Redacted
import TrailStash.Quads
import TrailStash.Push
import TrailStash.Health
import TrailStash.Mailbox
import TrailStash.Server
import TrailStash.Service
import TrailStash.Pushes
import TrailStash.Schedules
import TrailStash.Served
import TrailStash.Transfers
import TrailStash.LogLines
import TrailStash.Repeats
import TrailStash.Strangers
