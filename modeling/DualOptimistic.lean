import DualOptimistic.Data.OrdMap
import DualOptimistic.Data.Search
import DualOptimistic.Data.Quorum
import DualOptimistic.Data.WaveRule
import DualOptimistic.Consensus.DagState
import DualOptimistic.Consensus.DeliveryOrder
import DualOptimistic.Consensus.Agreement
import DualOptimistic.Consensus.Certificates
import DualOptimistic.Shadow.Validation
import DualOptimistic.Shadow.Cascade
import DualOptimistic.Shadow.Incarnations
import DualOptimistic.Shadow.Reexecution
import DualOptimistic.Shadow.FinalOrder
import DualOptimistic.Shadow.Notification
import DualOptimistic.Shadow.Commutation
import DualOptimistic.Shadow.Serializability
import DualOptimistic.Consensus.OneLeader
import DualOptimistic.Consensus.Payload
import DualOptimistic.Consensus.CommitPath
import DualOptimistic.Consensus.LeaderSchedule
import DualOptimistic.Consensus.OpenNetwork
import DualOptimistic.Scheduler.QueueRuns
import DualOptimistic.Scheduler.HandingOut
import DualOptimistic.Scheduler.Backlog
import DualOptimistic.Scheduler.Pausing
import DualOptimistic.Scheduler.OpenDispatch
import DualOptimistic.Scheduler.Hysteresis
import DualOptimistic.Scheduler.RoundOrder
import DualOptimistic.Scheduler.Delivery
import DualOptimistic.Scheduler.Confirmation
import DualOptimistic.Node.EndToEnd
import DualOptimistic.Node.NodeConfig
import DualOptimistic.Consensus.Clock
import DualOptimistic.Consensus.Reachability
import DualOptimistic.Consensus.Bookkeeping
import DualOptimistic.Consensus.Preimage
import DualOptimistic.Consensus.RoundArithmetic
