import HzMq.Library.FramedLog
import HzMq.Library.FileStream
import HzMq.Library.Run
import HzMq.Library.Loop
import HzMq.Library.Trace
import HzMq.Library.Register
import HzMq.Library.KeyedFifo
import HzMq.Library.WordPattern
import HzMq.Library.Separated
import HzMq.Library.HeadedText
import HzMq.Library.Rotation
import HzMq.Library.Refinement
import HzMq.Library.Words
import HzMq.Library.Streams
import HzMq.Library.Handover
import HzMq.Common.Message
import HzMq.Common.Wire
import HzMq.Common.StdString
import HzMq.Common.Queue
import HzMq.Common.ThreadPool
import HzMq.Server.Route
import HzMq.Server.QueueMessage
import HzMq.Server.QueueMessage.Deque
import HzMq.Server.QueueMessage.Recovery
import HzMq.Server.QueueMessage.FileEffects
import HzMq.Server.QueueMessage.CompactLoop
import HzMq.Server.VirtualHost
import HzMq.Server.VirtualHost.Lookup
import HzMq.Server.VirtualHost.Frame
import HzMq.Server.VirtualHost.Files
import HzMq.Server.VirtualHost.Publish
import HzMq.Server.Consumer
import HzMq.Server.Channel
import HzMq.Server.Connection
import HzMq.Server.HostEffects
import HzMq.Server.ManagementHttp
import HzMq.Persistence.Shield
import HzMq.Delivery.ManualAck
import HzMq.Server.VirtualHost.Bindings
import HzMq.Topology.Tables
import HzMq.Topology.Declaration
import HzMq.Topology.Deletion
import HzMq.Topology.Rebinding
import HzMq.Topology.ArgsText
import HzMq.Topology.Isolation
import HzMq.Delivery.Subscriptions
import HzMq.Delivery.RoundRobin
import HzMq.Delivery.FairShare
import HzMq.Delivery.Interleaving
import HzMq.Delivery.Overlap
import HzMq.Delivery.Quiescence
import HzMq.Delivery.Identifiers
import HzMq.Delivery.Confirmation
import HzMq.Delivery.Routing
import HzMq.Delivery.PublishEx
import HzMq.Delivery.Acknowledge
import HzMq.Delivery.Tasks
import HzMq.Delivery.TopicMatching
import HzMq.Delivery.TopicProtocol
import HzMq.Delivery.Widening
import HzMq.Delivery.Fifo
import HzMq.Delivery.DeadLetter
import HzMq.Delivery.DeadLetterContent
import HzMq.Delivery.Accounting
import HzMq.Persistence.Backed
import HzMq.Persistence.Operations
import HzMq.Persistence.Session
import HzMq.Persistence.Restart
import HzMq.Persistence.Compaction
import HzMq.Persistence.TornTail
import HzMq.Persistence.Scanner
import HzMq.Persistence.FailedWrite
import HzMq.Persistence.CompactionFailure
import HzMq.Persistence.CrashRecovery
import HzMq.Liveness.Timeout
import HzMq.Liveness.TaskExecution
import HzMq.Management.Requests
import HzMq.Service.Model
import HzMq.Service.View
import HzMq.Management.Responses
import HzMq.Service.Refinement
import HzMq.Service.Noninterference
import HzMq.Protocol.Session
import HzMq.Protocol.Channels
import HzMq.Protocol.SessionRefinement
import HzMq.Client.Command
import HzMq.Client.System
import HzMq.Client.Numbering
import HzMq.Client.Delivery
import HzMq.Client.Provenance
import HzMq.Persistence.Synced
import HzMq.Durability.Restarts
import HzMq.Durability.Crash
import HzMq.Threaded.Progress
