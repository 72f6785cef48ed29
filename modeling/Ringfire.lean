import Ringfire.Blackboard.Consistency
import Ringfire.Blob.Delivery
import Ringfire.Blob.Position
import Ringfire.Files.Adopt
import Ringfire.Layout.Alignment
import Ringfire.Layout.Connect
import Ringfire.Layout.Signature
import Ringfire.Mpmc.Queue
import Ringfire.Python.Agreement
import Ringfire.Python.BlackboardCalls
import Ringfire.Python.Blob
import Ringfire.Python.Handover
import Ringfire.Python.Header
import Ringfire.Python.Producer
import Ringfire.Replication.Atomic
import Ringfire.Replication.Budget
import Ringfire.Replication.ByteStream
import Ringfire.Replication.Coverage
import Ringfire.Replication.CrashDelivery
import Ringfire.Replication.Descriptor
import Ringfire.Replication.FrameHeader
import Ringfire.Replication.Hub
import Ringfire.Replication.Mirror
import Ringfire.Replication.MirrorStep
import Ringfire.Replication.Peers
import Ringfire.Replication.Range
import Ringfire.Replication.Reconnect
import Ringfire.Replication.Requests
import Ringfire.Replication.Resume
import Ringfire.Replication.Sparse
import Ringfire.Replication.UdpDelivery
import Ringfire.Ring.Blocking
import Ringfire.Ring.Gate
import Ringfire.Ring.Lossless
import Ringfire.Ring.Multiplexer
import Ringfire.Ring.OffsetPath
import Ringfire.Ring.Ownership
import Ringfire.Ring.Positions
import Ringfire.Ring.Priority
import Ringfire.Ring.RawConsumer
import Ringfire.Ring.Restart
import Ringfire.Ring.SeekLossless
