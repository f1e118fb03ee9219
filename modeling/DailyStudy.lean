import DailyStudy.Lib.System
import DailyStudy.Lib.Census
import DailyStudy.Lib.Batch
import DailyStudy.Lib.Slots
import DailyStudy.Lib.Fifo
import DailyStudy.Lib.Selection
import DailyStudy.Lib.Accesses
import DailyStudy.Lib.Wrap
import DailyStudy.Lib.CString
import DailyStudy.Lib.Assoc
import DailyStudy.Sem.Basic
import DailyStudy.Sem.Calls
import DailyStudy.Sem.Proofs.Flow
import DailyStudy.Sem.Proofs.Tickets
import DailyStudy.Cv.Basic
import DailyStudy.Cv.Proofs.Exclusion
import DailyStudy.Cv.Proofs.Queue
import DailyStudy.Cv.Proofs.Wakeup
import DailyStudy.Covering.Basic
import DailyStudy.Covering.Calls
import DailyStudy.Covering.Stream
import DailyStudy.Covering.Proofs.Exclusion
import DailyStudy.Covering.Proofs.Selection
import DailyStudy.Covering.Proofs.Tokens
import DailyStudy.Covering.Proofs.EndFlag
import DailyStudy.Covering.Proofs.Restarts
import DailyStudy.Named.Basic
import DailyStudy.Named.Proofs.Restart
import DailyStudy.Unnamed.Basic
import DailyStudy.Unnamed.Proofs.Overwrite
import DailyStudy.Turns.Basic
import DailyStudy.Turns.Proofs.InTurn
import DailyStudy.Turns.Proofs.Alternation
import DailyStudy.Counters.Basic
import DailyStudy.Counters.Proofs.Slots
import DailyStudy.Counters.Proofs.Predicates
import DailyStudy.Mq.Basic
import DailyStudy.Mq.Proofs.RoundTrip
import DailyStudy.CreateMq.Basic
import DailyStudy.CreateMq.Proofs.Fresh
import DailyStudy.Map.Basic
import DailyStudy.Map.Proofs.Order
import DailyStudy.Map.Proofs.Agreement
import DailyStudy.Instance.Basic
import DailyStudy.Instance.Proofs.Singleton
import DailyStudy.Mac.Basic
import DailyStudy.Mac.Proofs.Selection
import DailyStudy.Sem.Proofs.Single
import DailyStudy.Lib.Once
import DailyStudy.Static.Basic
import DailyStudy.Static.Proofs.Once
import DailyStudy.CallOnce.Basic
import DailyStudy.CallOnce.Proofs.Once
import DailyStudy.CallOnce.Proofs.Output
import DailyStudy.Lib.Locked
import DailyStudy.Queue.Basic
import DailyStudy.Queue.Proofs.Linearizable
import DailyStudy.Instance.Proofs.Joined
import DailyStudy.Unlocked.Basic
import DailyStudy.Unlocked.Proofs.Objects
import DailyStudy.Covering.Proofs.CatchUp
import DailyStudy.Mq.Main
import DailyStudy.Mq.Proofs.Main
import DailyStudy.Sem.Proofs.Settled
import DailyStudy.Cv.Proofs.Settled
import DailyStudy.Turns.Proofs.Finish
import DailyStudy.Threads.Basic
import DailyStudy.Threads.Proofs.Copies
import DailyStudy.Threads.Proofs.References
import DailyStudy.Lib.Ordered
import DailyStudy.Map.Ordered
import DailyStudy.Map.Proofs.Ordered
import DailyStudy.Lib.Text
import DailyStudy.Mac.Main
import DailyStudy.Mac.Proofs.Main
