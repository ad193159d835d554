import WalStream.Lib.Run
import WalStream.Lib.Lists
import WalStream.Lib.Dict
import WalStream.Lib.Log
import WalStream.Lib.Table
import WalStream.Lib.UniqueTable
import WalStream.Lib.Paging
import WalStream.Lib.Potential
import WalStream.Lib.Simulation
import WalStream.Lib.Redo
import WalStream.Lib.TableStore
import WalStream.Lib.DateTime
import WalStream.Lib.Joined
import WalStream.Lib.Sql
import WalStream.Lib.SqlStatement
import WalStream.Lib.SqlNames
import WalStream.Proto
import WalStream.Models
import WalStream.Source.Event
import WalStream.Source.Redis
import WalStream.Source.RedisWindow
import WalStream.Source.Kafka
import WalStream.Source.Stream
import WalStream.Source.Work
import WalStream.Source.KafkaWindow
import WalStream.Source.Counting
import WalStream.Source.Coverage
import WalStream.Source.History
import WalStream.Ingest.Json
import WalStream.Ingest.Parse
import WalStream.Ingest.Timestamp
import WalStream.Ingest.Process
import WalStream.Ingest.RowMessage
import WalStream.Ingest.Recovery
import WalStream.Ingest.Sequence
import WalStream.Replayer.Applier
import WalStream.Replayer.Query
import WalStream.Replayer.Meaning
import WalStream.Replayer.Convergence
import WalStream.Replayer.Repetition
import WalStream.Replayer.Target
import WalStream.Replayer.Service
import WalStream.Replayer.Encoding
import WalStream.Replayer.Server
import WalStream.Replayer.Dedup
import WalStream.Job.Row
import WalStream.Job.Service
import WalStream.Job.Worker
import WalStream.Job.Routing
import WalStream.Job.System
import WalStream.Job.Lease
import WalStream.Job.Lifecycle
import WalStream.Job.Ownership
import WalStream.Job.Delivery
import WalStream.Job.Accounting
import WalStream.Job.Progress
import WalStream.Job.Selection
import WalStream.Job.Stopping
import WalStream.Job.Termination
import WalStream.Job.Completion
import WalStream.Job.Deletion
import WalStream.Job.Pacing
import WalStream.Job.Listing
import WalStream.Fleet.System
import WalStream.Fleet.Leases
import WalStream.Fleet.Queue
import WalStream.Pipeline.System
import WalStream.Pipeline.Order
import WalStream.Pipeline.Vocabulary
import WalStream.Pipeline.Redelivery
import WalStream.Pipeline.Window
import WalStream.Pipeline.Replication
import WalStream.Pipeline.Capture
import WalStream.Middleware.TokenBucket
import WalStream.Middleware.RateLimit
import WalStream.Middleware.Outages
import WalStream.Middleware.Audit
import WalStream.Control.DedupStore
import WalStream.Frontend.EventStream
import WalStream.Control.EventFeed
import WalStream.Control.Access
import WalStream.Frontend.WebSocket
import WalStream.Frontend.Prometheus
import WalStream.Frontend.PrometheusText
import WalStream.Frontend.Metrics
import WalStream.Frontend.Percentiles
import WalStream.Frontend.Totals
import WalStream.Frontend.Session
import WalStream.Frontend.Lockout
import WalStream.Frontend.Identity
import WalStream.Middleware.Stack
