import CppPaxos.Acceptor
import CppPaxos.Learner
import CppPaxos.Proposer

/-!
# The node

`paxos/paxos_node.h` and `paxos/paxos_node.cpp`. A node has the three roles and keeps
its own record of who the leader is. That record and the leader flag of its proposer
are updated by different functions under different guards.
-/

namespace CppPaxos

open Machines MessengerCall

/-- `class PaxosNode`. -/
structure PaxosNode where
  /-- `m_proposer`. -/
  proposer : Proposer
  /-- `m_acceptor`. -/
  acceptor : Acceptor
  /-- `m_learner`. -/
  learner : Learner
  /-- `m_nodeUID`. -/
  nodeUID : Str
  /-- `m_leaderUID`. -/
  leaderUID : Str
  /-- `m_leaderProposalID`. -/
  leaderProposalID : ProposalID
  /-- `m_lastHeartbeatTimestamp`, in microseconds. -/
  lastHeartbeatTimestamp : UInt64
  /-- `m_heartbeatTimeout`, in microseconds. -/
  heartbeatTimeout : UInt64
  /-- `m_acquiringLeadership`: the node is asking the cluster for the leadership. -/
  acquiringLeadership : Bool
  /-- `m_acceptNACKs`: the acceptors that refused an accept request. -/
  acceptNACKs : Finset Str

/-- The first contents of the members that no constructor sets. -/
structure PaxosNode.Unset where
  leader : Bool
  proposerActive : Bool
  acceptorActive : Bool
  learnerActive : Bool

namespace PaxosNode

/-- The constructor. The clock is read by the acceptor first and then by the node; the `int`
arguments are converted to the unsigned 64-bit members. -/
def new (nodeUID : Str) (quorumSize heartbeatTimeout livenessWindow : Int) (leaderUID : Str)
    (acceptorNow now : UInt64) (unset : Unset) : PaxosNode where
  proposer :=
    let proposer :=
      Proposer.new nodeUID (UInt64.ofInt quorumSize).toNat unset.leader unset.proposerActive
    if ¬leaderUID.isEmpty ∧ nodeUID = leaderUID then proposer.setLeader true else proposer
  acceptor := .new nodeUID (UInt64.ofInt livenessWindow) acceptorNow unset.acceptorActive
  learner := .new quorumSize unset.learnerActive
  nodeUID := nodeUID
  leaderUID := leaderUID
  leaderProposalID := .empty
  lastHeartbeatTimestamp := now
  heartbeatTimeout := UInt64.ofInt heartbeatTimeout
  acquiringLeadership := false
  acceptNACKs := ∅

/-- `getMyProposalID`. -/
def getMyProposalID (N : PaxosNode) : ProposalID := N.proposer.proposalID

/-- `isLeader`. -/
def isLeader (N : PaxosNode) : Bool := N.proposer.leader

/-- `isActive`. -/
def isActive (N : PaxosNode) : Bool :=
  N.proposer.active && N.acceptor.active && N.learner.active

/-- `setActive`. -/
def setActive (N : PaxosNode) (active : Bool) : PaxosNode :=
  { N with
    proposer := N.proposer.setActive active
    acceptor := N.acceptor.setActive active
    learner := N.learner.setActive active }

/-- `setLeaderProposalID`. -/
def setLeaderProposalID (N : PaxosNode) (newLeaderUID : ProposalID) : PaxosNode :=
  { N with leaderProposalID := newLeaderUID }

/-- `prepare`. -/
def prepare (N : PaxosNode) (incrementProposalNumber : Bool) : PaxosNode × List MessengerCall :=
  let (proposer, sent) := N.proposer.prepare incrementProposalNumber
  ({ N with
      acceptNACKs := if incrementProposalNumber then ∅ else N.acceptNACKs
      proposer := proposer }, sent)

/-- `isLeaderAlive`; the subtraction is on unsigned 64-bit numbers. -/
def isLeaderAlive (N : PaxosNode) (now : UInt64) : Bool :=
  now - N.lastHeartbeatTimestamp ≤ N.heartbeatTimeout

/-- `isPrepareExpire`. -/
def isPrepareExpire (N : PaxosNode) (now : UInt64) : Bool := N.acceptor.isPrepareExpire now

/-- `acquireLeadership`. -/
def acquireLeadership (N : PaxosNode) (now : UInt64) : PaxosNode × List MessengerCall :=
  if N.isLeaderAlive now then ({ N with acquiringLeadership := false }, [])
  else { N with acquiringLeadership := true }.prepare true

/-- `pollLiveness`, with the readings of the clock by `isLeaderAlive`, by `isPrepareExpire` and
by `acquireLeadership`. -/
def pollLiveness (N : PaxosNode) (aliveNow expireNow acquireNow : UInt64) :
    PaxosNode × List MessengerCall :=
  if ¬N.isLeaderAlive aliveNow ∧ N.isPrepareExpire expireNow then
    if N.acquiringLeadership then N.prepare true else N.acquireLeadership acquireNow
  else (N, [])

/-- The branch of `receiveHeartbeat` that adopts the named leader. -/
def adoptLeader (N : PaxosNode) (localLeaderUID : Str) (localLeaderProposalID : ProposalID) :
    PaxosNode × List MessengerCall :=
  let oldLeaderUID := N.leaderUID
  let N := { N with
    acquiringLeadership := false
    leaderUID := localLeaderUID
    leaderProposalID := localLeaderProposalID }
  if N.proposer.leader ∧ localLeaderUID ≠ N.proposer.proposerUID then
    ({ N with
        proposer :=
          (N.proposer.setLeader false).observeProposal localLeaderUID localLeaderProposalID },
      [onLeadershipLost, onLeadershipChange oldLeaderUID localLeaderUID])
  else (N, [onLeadershipChange oldLeaderUID localLeaderUID])

/-- `receiveHeartbeat`; `now` is the reading of the clock at its end. -/
def receiveHeartbeat (N : PaxosNode) (now : UInt64) (localLeaderUID : Str)
    (localLeaderProposalID : ProposalID) : PaxosNode × List MessengerCall :=
  let (N, sent) :=
    if ¬N.leaderProposalID.isValid ∨ localLeaderProposalID > N.leaderProposalID then
      N.adoptLeader localLeaderUID localLeaderProposalID
    else (N, [])
  if N.leaderProposalID.isValid ∧ N.leaderProposalID = localLeaderProposalID then
    ({ N with lastHeartbeatTimestamp := now }, sent)
  else (N, sent)

/-- `pulse`. -/
def pulse (N : PaxosNode) (now : UInt64) : PaxosNode × List MessengerCall :=
  if N.proposer.leader then
    let (N, sent) := N.receiveHeartbeat now N.proposer.proposerUID N.proposer.proposalID
    (N, sent ++ [sendHeartbeat N.proposer.proposerUID N.proposer.proposalID])
  else (N, [])

/-- `receivePrepare`. -/
def receivePrepare (N : PaxosNode) (now : UInt64) (fromUID : Str) (proposalID : ProposalID) :
    PaxosNode × List MessengerCall :=
  let (acceptor, sent) := N.acceptor.receivePrepare now fromUID proposalID
  ({ N with acceptor := acceptor }, sent)

/-- `receivePromise`; `now` is the reading of the clock by `pulse`. The previous leader reported
is the node itself, as in the source. -/
def receivePromise (N : PaxosNode) (now : UInt64) (fromUID : Str)
    (proposalID prevAcceptedID : ProposalID) (prevAcceptedValue : Str) :
    PaxosNode × List MessengerCall :=
  let preLeaderID := N.leaderUID
  let (proposer, sent) :=
    N.proposer.receivePromise fromUID proposalID prevAcceptedID prevAcceptedValue
  let N := { N with proposer := proposer }
  if preLeaderID.isEmpty ∧ N.proposer.leader then
    let oldLeaderUID := N.proposer.proposerUID
    let N := { N with
      leaderUID := N.proposer.proposerUID
      leaderProposalID := N.proposer.proposalID
      acquiringLeadership := false }
    let (N, beat) := N.pulse now
    (N, sent ++ beat ++ [onLeadershipChange oldLeaderUID N.leaderUID])
  else (N, sent)

/-- `receivePrepareNACK`. It prepares again whichever request the answer is to. -/
def receivePrepareNACK (N : PaxosNode) (fromUID : Str) (proposalID promisedID : ProposalID) :
    PaxosNode × List MessengerCall :=
  let N := { N with proposer := N.proposer.receivePrepareNACK fromUID proposalID promisedID }
  if N.acquiringLeadership then N.prepare true else (N, [])

/-- `receiveAcceptNACK`. -/
def receiveAcceptNACK (N : PaxosNode) (fromUID : Str) (proposalID promisedID : ProposalID) :
    PaxosNode × List MessengerCall :=
  let N := { N with proposer := N.proposer.receiveAcceptNACK fromUID proposalID promisedID }
  let N :=
    if proposalID = N.proposer.proposalID then
      { N with acceptNACKs := insert fromUID N.acceptNACKs }
    else N
  if N.proposer.leader ∧ N.acceptNACKs.card ≥ N.proposer.quorumSize then
    ({ N with
        proposer := (N.proposer.setLeader false).observeProposal fromUID proposalID
        leaderUID := []
        leaderProposalID := .empty },
      [onLeadershipLost, onLeadershipChange N.proposer.proposerUID []])
  else (N, [])

end PaxosNode

/-- A call of a member function of `PaxosNode` that changes its state or calls the messenger. -/
inductive NodeCall
  | setActive (active : Bool)
  | setLeaderProposalID (newLeaderUID : ProposalID)
  | prepare (incrementProposalNumber : Bool)
  | pollLiveness (aliveNow expireNow acquireNow : UInt64)
  | receiveHeartbeat (now : UInt64) (localLeaderUID : Str) (localLeaderProposalID : ProposalID)
  | pulse (now : UInt64)
  | acquireLeadership (now : UInt64)
  | receivePrepare (now : UInt64) (fromUID : Str) (proposalID : ProposalID)
  | receivePromise (now : UInt64) (fromUID : Str) (proposalID prevAcceptedID : ProposalID)
      (prevAcceptedValue : Str)
  | receivePrepareNACK (fromUID : Str) (proposalID promisedID : ProposalID)
  | receiveAcceptNACK (fromUID : Str) (proposalID promisedID : ProposalID)
  deriving DecidableEq

namespace PaxosNode

/-- The node as a machine. -/
def machine : Machine PaxosNode NodeCall MessengerCall where
  step N
    | .setActive active => (N.setActive active, [])
    | .setLeaderProposalID newLeaderUID => (N.setLeaderProposalID newLeaderUID, [])
    | .prepare incrementProposalNumber => N.prepare incrementProposalNumber
    | .pollLiveness aliveNow expireNow acquireNow => N.pollLiveness aliveNow expireNow acquireNow
    | .receiveHeartbeat now localLeaderUID localLeaderProposalID =>
      N.receiveHeartbeat now localLeaderUID localLeaderProposalID
    | .pulse now => N.pulse now
    | .acquireLeadership now => N.acquireLeadership now
    | .receivePrepare now fromUID proposalID => N.receivePrepare now fromUID proposalID
    | .receivePromise now fromUID proposalID prevAcceptedID prevAcceptedValue =>
      N.receivePromise now fromUID proposalID prevAcceptedID prevAcceptedValue
    | .receivePrepareNACK fromUID proposalID promisedID =>
      N.receivePrepareNACK fromUID proposalID promisedID
    | .receiveAcceptNACK fromUID proposalID promisedID =>
      N.receiveAcceptNACK fromUID proposalID promisedID

end PaxosNode

end CppPaxos
