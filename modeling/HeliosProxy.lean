import HeliosProxy.Journal.CacheWork
import HeliosProxy.Journal.History
import HeliosProxy.Journal.Savepoints
import HeliosProxy.Journal.Follows
import HeliosProxy.Relay.Named
import HeliosProxy.Tenancy.RowFilter
import HeliosProxy.Tenancy.Layouts
import HeliosProxy.Health.CircuitBreaker
import HeliosProxy.Gateway.Mcp
import HeliosProxy.Health.NodeHealth
import HeliosProxy.Relay.Stream
import HeliosProxy.Journal.CommitOrder
import HeliosProxy.Topology.Epochs
import HeliosProxy.Cache.L2Locks
import HeliosProxy.Mirror.Readiness
import HeliosProxy.Journal.ReplayCommitted
import HeliosProxy.Replay.RestoreSet
import HeliosProxy.Edge.Resume
import HeliosProxy.Replay.Acknowledged
import HeliosProxy.Protocol.Codec
import HeliosProxy.Tenancy.ReplayBudget
import HeliosProxy.Tenancy.CancelKeys
import HeliosProxy.Cache.L1Hot
import HeliosProxy.Cache.L3Shards
import HeliosProxy.Cache.KeyMode
import HeliosProxy.Server.CancelMap
import HeliosProxy.Auth.Hba
import HeliosProxy.RateLimit.Concurrency
import HeliosProxy.Pool.EvictOldest
import HeliosProxy.Cache.LogicalSource
import HeliosProxy.Settings.ExtSetCycle
import HeliosProxy.Replay.Decide
import HeliosProxy.Cache.CacheableReads
import HeliosProxy.Topology.SwitchoverBuffer
import HeliosProxy.Cache.SpillFile
import HeliosProxy.RateLimit.TokenBucket
