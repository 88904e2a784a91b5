import FerriteSfu.Lib.SetLog
import FerriteSfu.Loop.Rooms
import FerriteSfu.Loop.Offers
import FerriteSfu.Loop.Reports
import FerriteSfu.Loop.Lifecycle
import FerriteSfu.Loop.Messages
import FerriteSfu.Loop.Convergence
import FerriteSfu.Loop.Keyframes
import FerriteSfu.Loop.Capacity
import FerriteSfu.Loop.Speaking
import FerriteSfu.Loop.Blocking
import FerriteSfu.Call.Bystanders
import FerriteSfu.Signal.Orphans
import FerriteSfu.Isolation.Run
import FerriteSfu.Lib.Retry
import FerriteSfu.Loop.Reaping
import FerriteSfu.Report.Delivery
import FerriteSfu.Signal.Refusal
import FerriteSfu.Signal.Dialogue
import FerriteSfu.Call.SpeakingCache
import FerriteSfu.Loop.SpeakingCache
import FerriteSfu.Lib.Since
import FerriteSfu.Call.Grace
import FerriteSfu.Loop.Grace
import FerriteSfu.Lib.Trace
import FerriteSfu.Call.Fanout
import FerriteSfu.Call.Failures
import FerriteSfu.Loop.Fanout
import FerriteSfu.Loop.Agreement
import FerriteSfu.Lib.Lockstep
import FerriteSfu.Loop.Orders
import FerriteSfu.Signal.Authentication
import FerriteSfu.Main.Process
import FerriteSfu.Main.Boot
import FerriteSfu.Main.Shutdown
import FerriteSfu.Signal.Browser
import FerriteSfu.Lib.Lives
import FerriteSfu.Call.Lives
import FerriteSfu.Loop.Lives
import FerriteSfu.Call.Voices
import FerriteSfu.Loop.Voices
import FerriteSfu.Lib.Spacing
import FerriteSfu.Call.Requests
import FerriteSfu.Loop.Requests
import FerriteSfu.Loop.Arrivals
import FerriteSfu.Report.Host
import FerriteSfu.Main.Host
import FerriteSfu.Signal.Progress
import FerriteSfu.Main.Config
import FerriteSfu.Loop.Standstill
import FerriteSfu.Signal.Convergence
import FerriteSfu.Signal.Conclusion
import FerriteSfu.Main.Waiting
