import Mtask.Bson.RoundTrip
import Mtask.Bson.Safety
import Mtask.Cluster.Concat
import Mtask.Cluster.Wire
import Mtask.Datacenter.Waiters
import Mtask.Dispatch.Ownership
import Mtask.Dns.Names
import Mtask.GateService.Dispatch
import Mtask.GateService.SharedPool
import Mtask.GateService.SocketSlots
import Mtask.GlobalNames.Queries
import Mtask.Handle.Launches
import Mtask.Handle.Names
import Mtask.Handle.Reserved
import Mtask.Handle.RwLock
import Mtask.HarborService.Buffers
import Mtask.HarborService.LinkDown
import Mtask.HarborService.NameKeys
import Mtask.Http.Fragmentation
import Mtask.LuaSeri.Blocks
import Mtask.LuaSeri.Untrusted
import Mtask.LuaSocket.Fifo
import Mtask.Lualib.Queue
import Mtask.Lualib.Scheduler.Calls
import Mtask.Lualib.Scheduler.Replies
import Mtask.Lualib.Scheduler.Wakeups
import Mtask.Lualib.Scheduler.Watching
import Mtask.Lualib.Socket.Served
import Mtask.Lualib.SocketChannel.Pairing
import Mtask.Mq.IntQueue
import Mtask.Multicast.Delivery
import Mtask.Multicast.Package
import Mtask.Netpack.Buffers
import Mtask.Netpack.RoundTrip
import Mtask.Redis.Request
import Mtask.ServiceMgr.Unique
import Mtask.Sharedata.Lifetime
import Mtask.Sharedata.ProxyRuns
import Mtask.Sharedata.Updates
import Mtask.Snax.GateClients
import Mtask.Snax.Login
import Mtask.Snax.ResponseRuns
import Mtask.SocketServer.ClosedEvents
import Mtask.SocketServer.Descriptors
import Mtask.SocketServer.Ids
import Mtask.SocketServer.Stream
import Mtask.SocketServer.WriteListRuns
import Mtask.Sproto.CreateBounds
import Mtask.Sproto.DecodeBounds
import Mtask.Sproto.EncodeBounds
import Mtask.Sproto.Unpack
import Mtask.Stm.Lifetime
import Mtask.Timing.Clock
import Mtask.Timing.Due
import Mtask.Timing.Run
