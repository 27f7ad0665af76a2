import Sylar.Lib.Runs
import Sylar.Lib.KeyedSet
import Sylar.Timer.Model
import Sylar.Timer.Order
import Sylar.Timer.Pending
import Sylar.Schedule.Model
import Sylar.Schedule.Conservation
import Sylar.Schedule.Shutdown
import Sylar.IOmanager.Model
import Sylar.IOmanager.Effects
import Sylar.IOmanager.Refusal
import Sylar.IOmanager.Directions
import Sylar.IOmanager.Dispatch
import Sylar.IOmanager.Interest
import Sylar.Hook.Model
import Sylar.IOmanager.Callbacks
import Sylar.Timer.Callbacks
import Sylar.Hook.Steps
import Sylar.Hook.Residue
import Sylar.Hook.Answers
import Sylar.Fd.Manager
import Sylar.Fd.Nonblock
import Sylar.Fd.Transparent
import Sylar.Hook.Timeouts
import Sylar.Config.Model
import Sylar.Config.History
import Sylar.Timer.Threads
import Sylar.Timer.Cancels
import Sylar.Schedule.Idle
import Sylar.Schedule.Current
import Sylar.IOmanager.Threads
import Sylar.IOmanager.Iterators
import Sylar.IOmanager.Mutex
import Sylar.IOmanager.Reentry
import Sylar.Timer.Alone
import Sylar.Timer.Deadlines
import Sylar.Timer.Iterators
import Sylar.Util.Text
import Sylar.Http.Model
import Sylar.Http.Parse
import Sylar.Http.Lazy
import Sylar.Config.Load
import Sylar.Config.LogDefine
import Sylar.Config.TcpServerConf
import Sylar.Lib.HighWater
import Sylar.Schedule.Affinity
import Sylar.Fd.Bounds
import Sylar.Fd.Threads
import Sylar.Hook.Readiness
import Sylar.Hook.Sleep
import Sylar.IOmanager.Counter
import Sylar.IOmanager.Tickle
import Sylar.Hook.Connect
import Sylar.Config.LogUpdate
import Sylar.Config.Lookup
import Sylar.Http.Segments
import Sylar.Http.Message
import Sylar.Lib.HeaderBlock
import Sylar.Http.Dump
import Sylar.Lib.Loop
import Sylar.Log.Formatter
import Sylar.Log.Pattern
import Sylar.Log.Tokens
import Sylar.Log.Logger
import Sylar.Lib.Rfc4291
import Sylar.Net.Address
import Sylar.Net.Ipv6
import Sylar.Net.Lookup
import Sylar.Net.Ssl
import Sylar.Net.Socket
import Sylar.Net.TcpServer
import Sylar.Thread.Semaphore
import Sylar.Schedule.IdleCount
import Sylar.Lib.Progress
import Sylar.Schedule.Empty
import Sylar.Schedule.Progress
import Sylar.Schedule.Overtaking
import Sylar.IOmanager.Expiry
import Sylar.Net.Serving
import Sylar.Hook.Sleeping
import Sylar.Config.Containers
import Sylar.Lib.Spaced
import Sylar.Net.Ipv4
import Sylar.Thread.Startup
import Sylar.Timer.Spacing
import Sylar.Hook.Closing
