import IscsiFuse.Library.Machine
import IscsiFuse.Library.ByteImage
import IscsiFuse.Library.OrdMap
import IscsiFuse.Library.Tiling
import IscsiFuse.Iscsi.Chunks
import IscsiFuse.Block.Dirty
import IscsiFuse.Block.Worker
import IscsiFuse.Block.WorkerSteps
import IscsiFuse.Block.Coherence
import IscsiFuse.Block.Transitions
import IscsiFuse.Block.FlushCommands
import IscsiFuse.Block.LastWriter
import IscsiFuse.Block.ReadYourWrites
import IscsiFuse.Block.Durability
import IscsiFuse.Iscsi.Pdu
import IscsiFuse.Iscsi.Command
import IscsiFuse.Iscsi.Read
import IscsiFuse.Iscsi.IttPool
import IscsiFuse.Iscsi.Session
import IscsiFuse.Iscsi.SessionSteps
import IscsiFuse.Iscsi.Sequence
import IscsiFuse.Iscsi.Window
import IscsiFuse.Iscsi.Routing
import IscsiFuse.Iscsi.WriteData
import IscsiFuse.Iscsi.ScsiWrite
import IscsiFuse.Iscsi.StatSn
import IscsiFuse.Iscsi.Transport
import IscsiFuse.Iscsi.Submit
import IscsiFuse.Iscsi.Wire
import IscsiFuse.Iscsi.Lun
import IscsiFuse.Iscsi.SendLimits
import IscsiFuse.Iscsi.Receiver
import IscsiFuse.Block.ReadLength
import IscsiFuse.Block.Fetches
import IscsiFuse.Block.FlushTasks
import IscsiFuse.Block.PartialWrite
import IscsiFuse.Iscsi.EndToEnd
import IscsiFuse.Iscsi.WriteRefinement
import IscsiFuse.Library.KeyedFold
import IscsiFuse.Iscsi.Negotiation
import IscsiFuse.Iscsi.OperationalText
import IscsiFuse.Iscsi.LoginPhases
import IscsiFuse.Iscsi.Capacity
import IscsiFuse.Iscsi.Chunking
import IscsiFuse.Iscsi.Completion
import IscsiFuse.Iscsi.Burst
import IscsiFuse.Block.CachedRead
import IscsiFuse.Block.Geometry
import IscsiFuse.Iscsi.Digests
import IscsiFuse.Block.Accounting
import IscsiFuse.Block.Alignment
import IscsiFuse.Block.ReadaheadWindow
import IscsiFuse.Iscsi.Allocation
import IscsiFuse.Iscsi.FailedSubmit
import IscsiFuse.Iscsi.HeaderCodec
import IscsiFuse.Iscsi.KeyValueText
import IscsiFuse.Iscsi.RaggedWrite
import IscsiFuse.Iscsi.SerialOrder
import IscsiFuse.Library.Linearizable
import IscsiFuse.Block.WriteThrough
import IscsiFuse.Block.BlockDevice
import IscsiFuse.Block.ConcurrentCalls
import IscsiFuse.Block.SharedDurability
import IscsiFuse.Iscsi.ReadData
import IscsiFuse.Block.FlushRefinement
import IscsiFuse.Iscsi.BurstErrors
import IscsiFuse.Library.Fairness
import IscsiFuse.Block.Progress
import IscsiFuse.Block.ServiceTime
import IscsiFuse.Block.Liveness
import IscsiFuse.Library.Framing
import IscsiFuse.Iscsi.Replies
import IscsiFuse.Iscsi.Connection
import IscsiFuse.Iscsi.LoginAgreement
import IscsiFuse.Iscsi.OddErrors
