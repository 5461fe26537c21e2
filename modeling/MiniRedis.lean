import MiniRedis.Benchmark.BaselineFlights
import MiniRedis.Benchmark.SingleLock
import MiniRedis.Benchmark.Workload
import MiniRedis.Cache.Capacity
import MiniRedis.Cache.Memory
import MiniRedis.Cache.ShardLocal
import MiniRedis.Cache.Thinned
import MiniRedis.Concurrency.Commutation
import MiniRedis.Concurrency.Competitive
import MiniRedis.Concurrency.Conservation
import MiniRedis.Concurrency.EvictionLoop
import MiniRedis.Concurrency.ExactExpiry
import MiniRedis.Concurrency.Linearization
import MiniRedis.Concurrency.Liveness
import MiniRedis.Concurrency.LoadOnce
import MiniRedis.Concurrency.LookupCount
import MiniRedis.Concurrency.ReadYourWrites
import MiniRedis.Concurrency.Reaper
import MiniRedis.Concurrency.Retention
import MiniRedis.Concurrency.Scan
import MiniRedis.Concurrency.StaleLoad
import MiniRedis.Concurrency.ThrowingSet
import MiniRedis.Concurrency.Uninterrupted
import MiniRedis.Lib.Fairness
import MiniRedis.Lib.ListedMap
import MiniRedis.Lib.RecencyInclusion
import MiniRedis.Lib.SharedParts
import MiniRedis.Lib.WhileLoop
import MiniRedis.Lib.WorkingSet
import MiniRedis.Persistence.AofQueue
import MiniRedis.Persistence.AofRewrite
import MiniRedis.Persistence.CapacityChange
import MiniRedis.Persistence.Durability
import MiniRedis.Persistence.Encoding
import MiniRedis.Persistence.Lifetime
import MiniRedis.Persistence.PrefixRecovery
import MiniRedis.Persistence.RejectedWrite
import MiniRedis.Persistence.Restart
import MiniRedis.Persistence.SnapshotAndLog
import MiniRedis.Persistence.SnapshotFile
import MiniRedis.Persistence.SnapshotRoundTrip
import MiniRedis.Persistence.TornTail
import MiniRedis.Persistence.WriteOrder
import MiniRedis.Server.Clients
import MiniRedis.Server.Http
import MiniRedis.Server.HttpServer
import MiniRedis.Server.JsonResponses
import MiniRedis.Server.SendAll
import MiniRedis.Server.TcpServer
import MiniRedis.Server.TextPaths
import MiniRedis.Server.TtlRange
import MiniRedis.Text.Grammar
import MiniRedis.Text.Utf8
