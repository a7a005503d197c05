import CppPaxos.Library.Machine
import CppPaxos.Library.Network
import CppPaxos.Library.Gossip
import CppPaxos.Library.Log
import CppPaxos.Library.Convergence
import CppPaxos.Library.Voting
import CppPaxos.Library.Table
import CppPaxos.Library.Wire
import CppPaxos.Library.Framing
import CppPaxos.Library.Smoothing
import CppPaxos.Library.Windows
import CppPaxos.Library.Sampling
import CppPaxos.Library.Channel
import CppPaxos.ProposalID
import CppPaxos.Messenger
import CppPaxos.Acceptor
import CppPaxos.AcceptorInvariant
import CppPaxos.PromiseQuorum
import CppPaxos.CrashRecovery
import CppPaxos.Proposer
import CppPaxos.ProposerSteps
import CppPaxos.ProposerNumbers
import CppPaxos.ProposerBallots
import CppPaxos.Learner
import CppPaxos.LearnerQuorum
import CppPaxos.LearnerDecision
import CppPaxos.LearnerBooks
import CppPaxos.NodeLeadership
import CppPaxos.StaleReplies
import CppPaxos.Cluster
import CppPaxos.Agreement
import CppPaxos.Validity
import CppPaxos.DurableCluster
import CppPaxos.CrashAgreement
import CppPaxos.Progress
import CppPaxos.NodeSteps
import CppPaxos.NodeNotices
import CppPaxos.InactiveNode
import CppPaxos.NodeCluster
import CppPaxos.NodeElection
import CppPaxos.NodeValues
import CppPaxos.SplitVote
import CppPaxos.Electability
import CppPaxos.HeartbeatConvergence
import CppPaxos.Timer
import CppPaxos.Server
import CppPaxos.PulseTimer
import CppPaxos.Punctuality
import CppPaxos.UnsetMembers
import CppPaxos.AcceptorRequests
import CppPaxos.ValueSelection
import CppPaxos.Outbidding
import CppPaxos.RefusedLeader
import CppPaxos.Peer
import CppPaxos.Proto
import CppPaxos.ServerNetwork
import CppPaxos.NetworkSteps
import CppPaxos.SocketMaps
import CppPaxos.AcceptorSelection
import CppPaxos.Broadcast
import CppPaxos.QuorumSends
import CppPaxos.Connections
import CppPaxos.Packets
import CppPaxos.PacketFraming
import CppPaxos.EventLoop
import CppPaxos.TimerCadence
import CppPaxos.PingCadence
import CppPaxos.PeerKnowledge
import CppPaxos.PeerRecords
import CppPaxos.ServerCluster
import CppPaxos.Discovery
import CppPaxos.IdleNodes
import CppPaxos.ClusterBroadcast
import CppPaxos.TimedDiscovery
import CppPaxos.MessageStream
