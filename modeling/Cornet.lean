import Cornet.Concurrency.Combinators
import Cornet.Concurrency.Deadline
import Cornet.Concurrency.DeadlineRuns
import Cornet.Concurrency.Scope
import Cornet.Concurrency.ScopeRuns
import Cornet.Concurrency.Semaphore
import Cornet.Concurrency.SemaphorePermits
import Cornet.Concurrency.Singleflight
import Cornet.Concurrency.SingleflightFlights
import Cornet.Concurrency.SingleflightRuns
import Cornet.Http.Buffer
import Cornet.Http.Client.Connection
import Cornet.Http.Client.Gathering
import Cornet.Http.Client.Listening
import Cornet.Http.Client.Outgoing
import Cornet.Http.Client.Pool
import Cornet.Http.Client.PoolAccounting
import Cornet.Http.Client.PoolFairness
import Cornet.Http.Client.PoolGrants
import Cornet.Http.Client.Redirect
import Cornet.Http.Client.Retarget
import Cornet.Http.Client.Retry
import Cornet.Http.HeaderLines
import Cornet.Http.Recording
import Cornet.Http.Server.Accepting
import Cornet.Http.Server.AcceptingRuns
import Cornet.Http.Server.BodyRules
import Cornet.Http.Server.Flushing
import Cornet.Http.Server.Lengths
import Cornet.Http.Server.Parting
import Cornet.Http.Server.Query
import Cornet.Http.Server.Receive
import Cornet.Http.Server.Router
import Cornet.Http.Server.RouterKeys
import Cornet.Http.Server.TimeoutRuns
import Cornet.Http.Splitting
import Cornet.Http.TokenLists
import Cornet.Http.UrlParts
import Cornet.Machinery.Chain
import Cornet.Machinery.Endian
import Cornet.Machinery.Halt
import Cornet.Machinery.Run
import Cornet.Machinery.Segments
import Cornet.Machinery.Writers
import Cornet.Runtime.ContextState
import Cornet.Runtime.FramePool
import Cornet.Runtime.FramePoolHomes
import Cornet.Runtime.FramePoolRuns
import Cornet.Runtime.IoSlot
import Cornet.Runtime.IoSlotRuns
import Cornet.Runtime.Park
import Cornet.Runtime.Scheduler
import Cornet.Runtime.TimerRunner
import Cornet.Runtime.Uring
import Cornet.Runtime.UringInflight
import Cornet.Runtime.Utask
import Cornet.Tls.Duplex
import Cornet.Tls.Writev
import Cornet.Websocket.Atomicity
import Cornet.Websocket.Codec
import Cornet.Websocket.Finishing
import Cornet.Websocket.Handshake
import Cornet.Websocket.Messages
import Cornet.Websocket.Prompt
import Cornet.Websocket.Sha1
import Cornet.Websocket.Verdicts
