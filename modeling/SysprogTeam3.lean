import SysprogTeam3.Foundation.Runs
import SysprogTeam3.Foundation.LinkedList
import SysprogTeam3.Foundation.GroupedLog
import SysprogTeam3.Foundation.ByteOrder
import SysprogTeam3.Foundation.TextInput
import SysprogTeam3.Foundation.Simulation
import SysprogTeam3.Foundation.Composition
import SysprogTeam3.Foundation.Frames
import SysprogTeam3.Foundation.Weights
import SysprogTeam3.Foundation.Threads
import SysprogTeam3.Foundation.WorkService
import SysprogTeam3.ThreadPool.JobQueue
import SysprogTeam3.ThreadPool.Pool
import SysprogTeam3.ThreadPool.Invariants
import SysprogTeam3.ThreadPool.Wakeups
import SysprogTeam3.ThreadPool.Service
import SysprogTeam3.ThreadPool.Progress
import SysprogTeam3.ThreadPool.WaitIdle
import SysprogTeam3.ThreadPool.Shutdown
import SysprogTeam3.FoodSys.Records
import SysprogTeam3.FoodSys.Handlers
import SysprogTeam3.FoodSys.HandlerSpecs
import SysprogTeam3.FoodSys.System
import SysprogTeam3.FoodSys.Protocol
import SysprogTeam3.FoodSys.Pending
import SysprogTeam3.FoodSys.Invariants
import SysprogTeam3.FoodSys.Exclusive
import SysprogTeam3.FoodSys.CookLifecycle
import SysprogTeam3.FoodSys.Identity
import SysprogTeam3.FoodSys.Completion
import SysprogTeam3.FoodSys.SharedOrder
import SysprogTeam3.FoodSys.Waiting
import SysprogTeam3.FoodSys.Settling
import SysprogTeam3.FoodSys.Framing
import SysprogTeam3.FoodSys.JobBuffer
import SysprogTeam3.FoodSys.WorkerRaces
import SysprogTeam3.FoodSys.Atomicity
import SysprogTeam3.FoodSys.PooledServer
import SysprogTeam3.FoodSys.PooledProgress
import SysprogTeam3.FoodSys.FirstFit
import SysprogTeam3.FoodSys.Assignment
import SysprogTeam3.FoodSys.Commuting
import SysprogTeam3.FoodSys.OpenServer
import SysprogTeam3.FoodSys.Isolation
import SysprogTeam3.FoodSys.Tailq
import SysprogTeam3.FoodSys.LinkedServer
import SysprogTeam3.FoodSys.Roles
import SysprogTeam3.FoodSys.Unsolicited
import SysprogTeam3.FoodSys.OrderResult
import SysprogTeam3.FoodSys.Verdict
import SysprogTeam3.FoodSys.Reordering
import SysprogTeam3.FoodSys.MissedItems
import SysprogTeam3.FoodSys.Announcement
import SysprogTeam3.FoodSys.WireFormat
import SysprogTeam3.FoodSys.Indices
import SysprogTeam3.FoodSys.Prompt
import SysprogTeam3.FoodSys.TypedLine
import SysprogTeam3.FoodSys.ReceiveLoop
import SysprogTeam3.FoodSys.CookSession
import SysprogTeam3.FoodSys.Uninitialised
import SysprogTeam3.FoodSys.Delivered
import SysprogTeam3.FoodSys.ByteSystem
import SysprogTeam3.FoodSys.Programs
import SysprogTeam3.FoodSys.PooledPrograms
import SysprogTeam3.FoodSys.PooledSettling
import SysprogTeam3.BasicServer.GroupList
import SysprogTeam3.BasicServer.Refinement
import SysprogTeam3.BasicServer.Sessions
import SysprogTeam3.BasicServer.Search
import SysprogTeam3.BasicServer.Connection
import SysprogTeam3.BasicServer.Lookup
import SysprogTeam3.BasicServer.RoundTrip
