import LmcacheDaos.Lib.Machine
import LmcacheDaos.Lib.SparseFile
import LmcacheDaos.Lib.FileStore
import LmcacheDaos.DfsBinding
import LmcacheDaos.Connector.IoPool
import LmcacheDaos.Connector.Ping
import LmcacheDaos.Connector.Calls
import LmcacheDaos.Connector.Sequential
import LmcacheDaos.Connector.Folding
import LmcacheDaos.Connector.RoundTrip
import LmcacheDaos.Connector.Isolation
import LmcacheDaos.Connector.Interchange
import LmcacheDaos.Connector.RawProtocol
import LmcacheDaos.Connector.DfsProtocol
import LmcacheDaos.Gds.Pool
import LmcacheDaos.Mp.Keys
import LmcacheDaos.Mp.Adapter
import LmcacheDaos.Mp.NoCorruptHit
import LmcacheDaos.Mp.Locks
import LmcacheDaos.Mp.Accounting
import LmcacheDaos.Lib.LittleEndian
import LmcacheDaos.Lib.Crc32
import LmcacheDaos.Serde.V1
import LmcacheDaos.Serde.V2
import LmcacheDaos.Serde.V3
import LmcacheDaos.Serde.Codec
import LmcacheDaos.ObjBinding
import LmcacheDaos.Lib.Program
import LmcacheDaos.Lib.Groups
import LmcacheDaos.Lib.Sha256
import LmcacheDaos.Gds.Backend
import LmcacheDaos.Gds.Publish
import LmcacheDaos.Gds.Known
import LmcacheDaos.Gds.Committed
import LmcacheDaos.Mp.Health
import LmcacheDaos.Mp.Tasks
import LmcacheDaos.Mp.Pools
import LmcacheDaos.Nixl.Request
import LmcacheDaos.Nixl.EventQueues
import LmcacheDaos.Lib.Separator
import LmcacheDaos.Lib.OrderedMap
import LmcacheDaos.Lib.Trace
import LmcacheDaos.Lib.Countdown
import LmcacheDaos.Mp.Names
import LmcacheDaos.Mp.Leftover
import LmcacheDaos.Nixl.Containers
import LmcacheDaos.Nixl.Prepare
import LmcacheDaos.Nixl.Status
import LmcacheDaos.Nixl.Fetch
import LmcacheDaos.Nixl.Grammar
import LmcacheDaos.Nixl.Offsets
import LmcacheDaos.Connector.FileReads
import LmcacheDaos.Connector.Staging
import LmcacheDaos.Connector.Submission
import LmcacheDaos.Connector.Streaming
import LmcacheDaos.Mp.Streaming
import LmcacheDaos.Gds.Store
import LmcacheDaos.Gds.Reads
import LmcacheDaos.Lib.RoundRobin
import LmcacheDaos.Mp.FairQueues
import LmcacheDaos.Mp.Dispatcher
import LmcacheDaos.Mp.Delivery
import LmcacheDaos.Mp.Closing
import LmcacheDaos.Nixl.EqPool
import LmcacheDaos.Mp.Transfer
import LmcacheDaos.Nixl.ThreadPool
import LmcacheDaos.Nixl.Engine
import LmcacheDaos.Gds.PutTasks
import LmcacheDaos.Gds.Handles
import LmcacheDaos.Mp.EarlyPublication
import LmcacheDaos.Mp.Overlap
import LmcacheDaos.Lib.OverlayStore
import LmcacheDaos.Mp.Refinement
import LmcacheDaos.Mp.Shutdown
import LmcacheDaos.Lib.Handles
import LmcacheDaos.Connector.Handles
import LmcacheDaos.DaosEvent
import LmcacheDaos.Lib.PoolMap
import LmcacheDaos.WarmUp
import LmcacheDaos.Connector.Closing
import LmcacheDaos.Mp.StatusLoop
import LmcacheDaos.Mp.EarlyStatus
