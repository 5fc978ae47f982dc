import ServiceInfra.Library.Loop
import ServiceInfra.Library.BinarySearch
import ServiceInfra.Library.Chain
import ServiceInfra.Library.Records
import ServiceInfra.Library.Population
import ServiceInfra.Library.StreamParser
import ServiceInfra.Library.BigEndian
import ServiceInfra.Library.PartialRun
import ServiceInfra.Library.TransitionSystem
import ServiceInfra.ByteOrder
import ServiceInfra.FileIo
import ServiceInfra.Zlib
import ServiceInfra.ConnectionPool.Pool
import ServiceInfra.ConnectionPool.Shutdown
import ServiceInfra.ConnectionPool.Bookkeeping
import ServiceInfra.ConnectionPool.Stages
import ServiceInfra.ConnectionPool.Lifetime
import ServiceInfra.ConnectionPool.WakeUps
import ServiceInfra.ConnectionPool.Guards
import ServiceInfra.Net.Message
import ServiceInfra.Net.Decoding
import ServiceInfra.Net.Connection
import ServiceInfra.Net.DecoderBounds
import ServiceInfra.Net.OutputOrder
import ServiceInfra.Net.CursorOverflow
import ServiceInfra.Net.Delivery
import ServiceInfra.Net.HalfClose
import ServiceInfra.Net.Submitted
import ServiceInfra.Segment.Format
import ServiceInfra.Segment.Layout
import ServiceInfra.Segment.Recovery
import ServiceInfra.Segment.Refused
import ServiceInfra.Segment.ScanChain
import ServiceInfra.Segment.SparseIndex
import ServiceInfra.Segment.Seek
import ServiceInfra.Segment.Verdict
import ServiceInfra.Segment.CrashTruncation
import ServiceInfra.Segment.Writer
import ServiceInfra.Segment.Sessions
import ServiceInfra.Segment.AppendFaults
import ServiceInfra.Segment.Repair
import ServiceInfra.Segment.ReadErrors
import ServiceInfra.Segment.FailedRollback
import ServiceInfra.Segment.InteriorDamage
import ServiceInfra.Segment.Durability
import ServiceInfra.CommitLog.Log
import ServiceInfra.CommitLog.Replay
import ServiceInfra.CommitLog.Crash
import ServiceInfra.CommitLog.CorruptLog
import ServiceInfra.CommitLog.ShortReads
import ServiceInfra.CommitLog.Faults
import ServiceInfra.CommitLog.Durability
import ServiceInfra.Reactor.Epoll
import ServiceInfra.Reactor.Effect
import ServiceInfra.Reactor.ExactlyOnce
import ServiceInfra.Reactor.Turns
import ServiceInfra.Reactor.FailingHandler
import ServiceInfra.Reactor.EventLoop
import ServiceInfra.Reactor.GracefulExit
import ServiceInfra.Reactor.WakeUp
import ServiceInfra.Reactor.StaleEvents
import ServiceInfra.Reactor.ReserveFd
import ServiceInfra.Reactor.Streams
import ServiceInfra.Reactor.EndToEnd
import ServiceInfra.ThreadPool.Pool
import ServiceInfra.ThreadPool.Progress
import ServiceInfra.Reactor.Pooled
import ServiceInfra.Client.Bench
import ServiceInfra.Client.Ledger
import ServiceInfra.Client.Verdict
import ServiceInfra.Client.ClosedLoop
import ServiceInfra.Client.Progress
import ServiceInfra.Reactor.Drained
