import Eraft.RaftContext
import Eraft.BaseQuorum
import Eraft.BaseRun
import Eraft.BaseTermLog
import Eraft.NodeSend
import Eraft.NodeOutcome
import Eraft.NodeRole
import Eraft.NodeVote
import Eraft.NodeQuorum
import Eraft.Cluster
import Eraft.ClusterElection
import Eraft.ClusterPlay
import Eraft.NodeLog
import Eraft.ClusterLog
import Eraft.ClusterBallot
import Eraft.ClusterMatch
import Eraft.ClusterCommit
import Eraft.BaseRetry
import Eraft.RepairProbe
import Eraft.Repair
import Eraft.RawNode
import Eraft.NodeStable
import Eraft.ReadyRun
import Eraft.ReadyStable
import Eraft.ReadyDeliver
import Eraft.ReadyHardState
import Eraft.ReadySnapshot
import Eraft.ConfMembers
import Eraft.ConfNext
import Eraft.ConfPending
import Eraft.BaseRing
import Eraft.CircularBuffer
import Eraft.UnboundedBuffer
import Eraft.AsyncBuffer
import Eraft.AsyncSession
import Eraft.BaseDecimal
import Eraft.ReplyFormat
import Eraft.ProtoParser
import Eraft.StreamSocket
import Eraft.NodeTally
import Eraft.NodeAppend
import Eraft.NodeReorder
import Eraft.NodeSnapshot
import Eraft.NodeCommit
import Eraft.RingQueue
import Eraft.SendThread
import Eraft.ThreadPool
import Eraft.BaseIndexed
import Eraft.StorageLog
import Eraft.LogTerm
import Eraft.SendHistory
import Eraft.NodeLeader
import Eraft.NodeTimer
import Eraft.NodePace
import Eraft.ParserResume
import Eraft.UnboundedQueue
import Eraft.ParserNumber
import Eraft.PoolMonitor
import Eraft.RingOffset
import Eraft.BaseGlob
import Eraft.GlobRegex
import Eraft.GlobMatch
import Eraft.BasePaging
import Eraft.ScanCommand
import Eraft.ScanEngine
import Eraft.ScanLoop
import Eraft.NodeBare
import Eraft.ClusterSafe
import Eraft.Group
import Eraft.GroupDeliver
import Eraft.GroupOrigin
import Eraft.BaseCode
import Eraft.CommandReply
import Eraft.CommandExecute
import Eraft.ServerClient
import Eraft.Server
import Eraft.ServerRun
import Eraft.NodePrompt
import Eraft.ClusterPrompt
import Eraft.NodeTransfer
import Eraft.ClusterTransfer
import Eraft.PoolShutdown
import Eraft.ClusterTenure
import Eraft.ClusterTotal
import Eraft.GroupTotal
import Eraft.CommandFault
