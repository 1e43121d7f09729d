import MultiversionBalancer.Lib.Heap
import MultiversionBalancer.Core.CFloat
import MultiversionBalancer.Upstream.Model
import MultiversionBalancer.Upstream.Construct
import MultiversionBalancer.Upstream.RoundRobin
import MultiversionBalancer.Log.RequestTime
import MultiversionBalancer.Upstream.Queue
import MultiversionBalancer.Lib.Run
import MultiversionBalancer.Upstream.Selection
import MultiversionBalancer.Upstream.Dispatch
import MultiversionBalancer.Upstream.Constructors
import MultiversionBalancer.Upstream.System
import MultiversionBalancer.Upstream.Accounting
import MultiversionBalancer.Upstream.QueueRuns
import MultiversionBalancer.Upstream.Retry
import MultiversionBalancer.Log.Format
import MultiversionBalancer.Log.Reserve
import MultiversionBalancer.Log.Handler
import MultiversionBalancer.Autoscaler.Window
import MultiversionBalancer.Autoscaler.Model
import MultiversionBalancer.Autoscaler.Deployment
import MultiversionBalancer.Autoscaler.Target
import MultiversionBalancer.Upstream.Slots
import MultiversionBalancer.Autoscaler.Convergence
import MultiversionBalancer.Upstream.Stack
import MultiversionBalancer.Http.RequestLine
import MultiversionBalancer.Http.HeaderLine
import MultiversionBalancer.Http.Head
import MultiversionBalancer.Http.Uri
import MultiversionBalancer.Http.UriScan
import MultiversionBalancer.Http.FastPath
import MultiversionBalancer.Http.Normalise
import MultiversionBalancer.Http.Chunked
import MultiversionBalancer.Http.ChunkedFilter
import MultiversionBalancer.Http.ChunkedBody
import MultiversionBalancer.Http2.Block
import MultiversionBalancer.Http2.Framing
import MultiversionBalancer.Http2.Reads
import MultiversionBalancer.Http2.Table
import MultiversionBalancer.Http2.TableQueue
import MultiversionBalancer.Http2.TableRuns
import MultiversionBalancer.Http2.Refused
import MultiversionBalancer.Http2.Control
import MultiversionBalancer.Http2.ControlReads
import MultiversionBalancer.Http2.Huffman
import MultiversionBalancer.Lib.BitString
import MultiversionBalancer.Http2.HuffmanCode
import MultiversionBalancer.Http2.HuffmanRoundTrip
import MultiversionBalancer.Http2.Dependencies
import MultiversionBalancer.Lib.Forest
import MultiversionBalancer.Http2.DependencyQueues
import MultiversionBalancer.Http2.DependencyTree
import MultiversionBalancer.Http2.DependencyRuns
import MultiversionBalancer.Core.ConfToken
import MultiversionBalancer.Core.ConfTokenRuns
import MultiversionBalancer.Core.RadixLookup
import MultiversionBalancer.Http.LimitReq
import MultiversionBalancer.Http.LimitReqBurst
import MultiversionBalancer.Http.LimitReqRate
import MultiversionBalancer.Http.LimitReqWindow
import MultiversionBalancer.Http.RangeBody
import MultiversionBalancer.Http.RangeMultipart
import MultiversionBalancer.Lib.Smooth
import MultiversionBalancer.Stream.RoundRobin
import MultiversionBalancer.Upstream.ConsistentHash
import MultiversionBalancer.Upstream.Keepalive
import MultiversionBalancer.Core.RatFloat
import MultiversionBalancer.Autoscaler.ScaleIn
import MultiversionBalancer.Monitor.Window
import MultiversionBalancer.Core.TwoDecimals
import MultiversionBalancer.Core.Python
import MultiversionBalancer.Monitor.Address
import MultiversionBalancer.Monitor.Parse
import MultiversionBalancer.Log.TopUp
import MultiversionBalancer.Log.Report
import MultiversionBalancer.Log.PredictionRuns
import MultiversionBalancer.Upstream.ServiceTime
import MultiversionBalancer.Log.Membership
import MultiversionBalancer.Log.AverageRuns
import MultiversionBalancer.Upstream.Contest
import MultiversionBalancer.Autoscaler.Cheapest
import MultiversionBalancer.Http.UnsafeUri
import MultiversionBalancer.Http.Host
import MultiversionBalancer.Http2.Strings
import MultiversionBalancer.Core.ResolverName
import MultiversionBalancer.Core.Times
import MultiversionBalancer.Core.ParseTime
import MultiversionBalancer.Core.Inet6RoundTrip
import MultiversionBalancer.Core.Cidr
import MultiversionBalancer.Log.ErrorRuns
import MultiversionBalancer.Core.Numbers
import MultiversionBalancer.Core.Base64
import MultiversionBalancer.Http.Arg
import MultiversionBalancer.Http.EscapeUri
import MultiversionBalancer.Log.EscapeJson
import MultiversionBalancer.Core.ProxyProtocol
import MultiversionBalancer.Core.Vslprintf
import MultiversionBalancer.Core.Hash
import MultiversionBalancer.Core.RadixDelete
import MultiversionBalancer.Core.RwLock
import MultiversionBalancer.Core.SharedMutex
import MultiversionBalancer.Http.SubrequestOrder
import MultiversionBalancer.Core.Crc32
import MultiversionBalancer.Http.LocationTree
import MultiversionBalancer.Upstream.ListingOrder
