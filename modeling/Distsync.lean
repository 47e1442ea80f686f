import Distsync.Trans
import Distsync.Trans.Machine
import Distsync.Redis.ZSet
import Distsync.Redis.Slot
import Distsync.Redis.Reply
import Distsync.Redis.Member
import Distsync.Redis.Cluster
import Distsync.Lua.Single
import Distsync.Lua.Sem
import Distsync.Lua.RW
import Distsync.Lua.RateLimit
import Distsync.Keys
import Distsync.RW
import Distsync.Fencing
import Distsync.Fencing.Shared
import Distsync.Fencing.Destination
import Distsync.Semaphore
import Distsync.Lease
import Distsync.Lease.Key
import Distsync.Lease.Score
import Distsync.Lease.System
import Distsync.Mutex
import Distsync.Semaphore.Lease
import Distsync.RW.Lease
import Distsync.LateRenewal
import Distsync.Server
import Distsync.Server.Release
import Distsync.Server.Verdicts
import Distsync.Server.Replay
import Distsync.RW.Queue
import Distsync.RW.Progress
import Distsync.RW.Reclaim
import Distsync.RWMutex
import Distsync.RWMutex.Canceled
import Distsync.RWMutex.Backoff
import Distsync.RWMutex.Takeover
import Distsync.RWMutex.Settled
import Distsync.Handle
import Distsync.Handle.Release
import Distsync.Renewer
import Distsync.Handle.Background
import Distsync.Handle.Join
import Distsync.RateLimit.Bucket
import Distsync.RateLimit.Sliding
import Distsync.RateLimit.Fixed
import Distsync.RateLimit.Kept
import Distsync.RateLimit.Retry
import Distsync.RateLimiter
import Distsync.Acquire.Progress
import Distsync.Guard
import Distsync.Leader
import Distsync.Heartbeat
import Distsync.Holder
import Distsync.Options
