import CacheBench.Lib.While
import CacheBench.Lib.Trace
import CacheBench.Lib.FinmapTotal
import CacheBench.Lib.Fair
import CacheBench.Lib.Heap
import CacheBench.Lib.Linearize
import CacheBench.Lib.LossyMap
import CacheBench.Lib.Register
import CacheBench.Lib.Ahead
import CacheBench.Lib.InverseCdf
import CacheBench.Lib.Json
import CacheBench.Lib.Decimal
import CacheBench.Lib.OrderStat
import CacheBench.Store.Evictor
import CacheBench.Store.Cache
import CacheBench.Store.Basic
import CacheBench.Store.Run
import CacheBench.Store.Accounting
import CacheBench.Store.Copy
import CacheBench.Store.LastWrite
import CacheBench.Store.Placeholder
import CacheBench.Store.Reject
import CacheBench.Store.Budget
import CacheBench.Store.Blob
import CacheBench.Store.Impl
import CacheBench.Store.Lifetime
import CacheBench.Store.Fifo
import CacheBench.Store.Touches
import CacheBench.Store.Workload
import CacheBench.Store.Room
import CacheBench.Store.Order
import CacheBench.Store.Reside
import CacheBench.Store.Aligned
import CacheBench.Store.FirstIn
import CacheBench.Store.Reset
import CacheBench.Store.Echo
import CacheBench.Server.Http
import CacheBench.Server.Message
import CacheBench.Server.Handle
import CacheBench.Server.Outcome
import CacheBench.Server.Serve
import CacheBench.Server.WellFormed
import CacheBench.Server.Delete
import CacheBench.Server.Put
import CacheBench.Server.Apart
import CacheBench.Server.Failed
import CacheBench.Server.Networked
import CacheBench.Server.Udp
import CacheBench.Server.Datagram
import CacheBench.Server.Session
import CacheBench.Server.Service
import CacheBench.Server.Pipeline
import CacheBench.Server.Linearizable
import CacheBench.Server.Lossy
import CacheBench.Server.Reside
import CacheBench.Server.Halt
import CacheBench.Server.Live
import CacheBench.Client.Client
import CacheBench.Client.RoundTrip
import CacheBench.Client.SpaceUsed
import CacheBench.Client.Transport
import CacheBench.Client.Workload
import CacheBench.Client.Concurrent
import CacheBench.Bench.Generator
import CacheBench.Bench.Fill
import CacheBench.Bench.Keys
import CacheBench.Bench.Select
import CacheBench.Bench.Locality
import CacheBench.Bench.Zone
import CacheBench.Bench.Driver
import CacheBench.Bench.Performance
import CacheBench.Bench.Warm
import CacheBench.Bench.Networked
