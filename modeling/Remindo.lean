import Remindo.Bot.Folding
import Remindo.Bot.Manage
import Remindo.Bot.Reminders
import Remindo.Bot.Render
import Remindo.Concurrent.Acceptance
import Remindo.Concurrent.Journal
import Remindo.Concurrent.LastAnswer
import Remindo.Concurrent.Override
import Remindo.Concurrent.Revocation
import Remindo.Domain.Hhmm
import Remindo.Domain.LocalDates
import Remindo.Domain.LocalDays
import Remindo.Domain.Payloads
import Remindo.Domain.Spacing
import Remindo.Domain.WeeklyMoments
import Remindo.Foundation.Constraints
import Remindo.Serial.Accounts
import Remindo.Serial.Alerts
import Remindo.Serial.Audience
import Remindo.Serial.Backfill
import Remindo.Serial.Budget
import Remindo.Serial.Calls
import Remindo.Serial.CatchingUp
import Remindo.Serial.Categories
import Remindo.Serial.Deletion
import Remindo.Serial.DigestBatch
import Remindo.Serial.Digests
import Remindo.Serial.Expiry
import Remindo.Serial.FirstMoment
import Remindo.Serial.Leases
import Remindo.Serial.Leaving
import Remindo.Serial.Messages
import Remindo.Serial.Narrowing
import Remindo.Serial.Others
import Remindo.Serial.Pause
import Remindo.Serial.Repeats
import Remindo.Serial.Replanning
import Remindo.Serial.Retries
import Remindo.Serial.RollUp
import Remindo.Serial.Screens
import Remindo.Serial.Sharing
import Remindo.Serial.Silence
import Remindo.Serial.Today
import Remindo.Serial.Users
import Remindo.Serial.Watermark
import Remindo.Services.Creation
import Remindo.Services.Deletion
import Remindo.Services.History
import Remindo.Services.Onboarding
import Remindo.Services.Taps
import Remindo.Services.Weeks
import Remindo.Worker.Health
