import CppPaxos.Messenger
import CppPaxos.Library.Machine
import Mathlib.Data.Finset.Card
import Mathlib.Data.Finset.Insert

/-!
# The proposer

`paxos/proposer.h` and `paxos/proposer.cpp`. A proposer collects promises for its
proposal ID, takes over the value reported with the highest accepted ID, and is the
leader once a quorum has promised. Whatever foreign ID it sees goes through
`observeProposal`, which raises the number of the proposal ID and nothing else.
-/

namespace CppPaxos

open Machines MessengerCall

/-- `class Proposer`. -/
structure Proposer where
  /-- `m_proposerUID`. -/
  proposerUID : Str
  /-- `m_quorumSize`, the least number of acceptors that count as a majority. -/
  quorumSize : ℕ
  /-- `m_proposalID`. -/
  proposalID : ProposalID
  /-- `m_proposedValue`. -/
  proposedValue : Str
  /-- `m_lastAcceptedID`: the largest accepted ID that a promise has reported. -/
  lastAcceptedID : ProposalID
  /-- `m_promisesReceived`: the acceptors that promised the current prepare request. -/
  promisesReceived : Finset Str
  /-- `m_leader`. -/
  leader : Bool
  /-- `m_active`. -/
  active : Bool
  deriving DecidableEq

namespace Proposer

/-- The constructor. It leaves `m_leader` and `m_active` unset, so their first contents are
arguments; `quorumSize` is the argument as converted to `size_t`. -/
def new (proposerUID : Str) (quorumSize : ℕ) (leader active : Bool) : Proposer where
  proposerUID := proposerUID
  quorumSize := quorumSize
  proposalID := ⟨0, proposerUID⟩
  proposedValue := []
  lastAcceptedID := .empty
  promisesReceived := ∅
  leader := leader
  active := active

/-- `prepare`. -/
def prepare (P : Proposer) (incrementProposalNumber : Bool) : Proposer × List MessengerCall :=
  let P :=
    if incrementProposalNumber then
      { P with
        leader := false
        active := true
        promisesReceived := ∅
        proposalID := P.proposalID.incrementNumber }
    else P
  (P, if P.active then [sendPrepare P.proposalID] else [])

/-- `setProposal`: the first value stays. -/
def setProposal (P : Proposer) (value : Str) : Proposer × List MessengerCall :=
  if P.proposedValue.isEmpty then
    ({ P with proposedValue := value },
      if P.leader ∧ P.active then [sendAccept P.proposalID value] else [])
  else (P, [])

/-- `observeProposal` takes over the number of a larger ID. The promises received and the
leader flag are left as they are. -/
def observeProposal (P : Proposer) (_fromUID : Str) (proposalID : ProposalID) : Proposer :=
  if proposalID > P.proposalID then
    { P with proposalID := P.proposalID.setNumber proposalID.getNumber }
  else P

/-- The bookkeeping of `receivePromise` for one more promise: its sender is counted, and a
larger accepted ID than any before is taken over together with its value. -/
def countPromise (P : Proposer) (fromUID : Str) (prevAcceptedID : ProposalID)
    (prevAcceptedValue : Str) : Proposer :=
  let P := { P with promisesReceived := insert fromUID P.promisesReceived }
  if ¬P.lastAcceptedID.isValid ∨ prevAcceptedID > P.lastAcceptedID then
    { P with
      lastAcceptedID := prevAcceptedID
      proposedValue := if ¬prevAcceptedValue.isEmpty then prevAcceptedValue else P.proposedValue }
  else P

/-- `receivePromise`. The test for `m_leader` in its guard is commented out in the source. -/
def receivePromise (P : Proposer) (fromUID : Str) (proposalID prevAcceptedID : ProposalID)
    (prevAcceptedValue : Str) : Proposer × List MessengerCall :=
  let P := P.observeProposal fromUID proposalID
  if proposalID ≠ P.proposalID ∨ fromUID ∈ P.promisesReceived then (P, [])
  else
    let P := P.countPromise fromUID prevAcceptedID prevAcceptedValue
    if P.promisesReceived.card ≥ P.quorumSize then
      ({ P with leader := true },
        onLeadershipAcquired ::
          if ¬P.proposedValue.isEmpty ∧ P.active then [sendAccept P.proposalID P.proposedValue]
          else [])
    else (P, [])

/-- `receivePrepareNACK`. -/
def receivePrepareNACK (P : Proposer) (fromUID : Str) (_proposalID promisedID : ProposalID) :
    Proposer :=
  P.observeProposal fromUID promisedID

/-- `receiveAcceptNACK`. -/
def receiveAcceptNACK (P : Proposer) (fromUID : Str) (_proposalID promisedID : ProposalID) :
    Proposer :=
  P.observeProposal fromUID promisedID

/-- `resendAccept`. -/
def resendAccept (P : Proposer) : Proposer × List MessengerCall :=
  (P, if P.leader ∧ P.active ∧ ¬P.proposedValue.isEmpty then
    [sendAccept P.proposalID P.proposedValue] else [])

/-- `setLeader`. -/
def setLeader (P : Proposer) (leader : Bool) : Proposer := { P with leader := leader }

/-- `setActive`. -/
def setActive (P : Proposer) (active : Bool) : Proposer := { P with active := active }

end Proposer

/-- A call of a member function of `Proposer` that changes its state or sends a message. -/
inductive ProposerCall
  | prepare (incrementProposalNumber : Bool)
  | setProposal (value : Str)
  | receivePromise (fromUID : Str) (proposalID prevAcceptedID : ProposalID)
      (prevAcceptedValue : Str)
  | receivePrepareNACK (fromUID : Str) (proposalID promisedID : ProposalID)
  | receiveAcceptNACK (fromUID : Str) (proposalID promisedID : ProposalID)
  | observeProposal (fromUID : Str) (proposalID : ProposalID)
  | resendAccept
  | setLeader (leader : Bool)
  | setActive (active : Bool)
  deriving DecidableEq, Repr

namespace Proposer

/-- The proposer as a machine. -/
def machine : Machine Proposer ProposerCall MessengerCall where
  step P
    | .prepare incrementProposalNumber => P.prepare incrementProposalNumber
    | .setProposal value => P.setProposal value
    | .receivePromise fromUID proposalID prevAcceptedID prevAcceptedValue =>
      P.receivePromise fromUID proposalID prevAcceptedID prevAcceptedValue
    | .receivePrepareNACK fromUID proposalID promisedID =>
      (P.receivePrepareNACK fromUID proposalID promisedID, [])
    | .receiveAcceptNACK fromUID proposalID promisedID =>
      (P.receiveAcceptNACK fromUID proposalID promisedID, [])
    | .observeProposal fromUID proposalID => (P.observeProposal fromUID proposalID, [])
    | .resendAccept => P.resendAccept
    | .setLeader leader => (P.setLeader leader, [])
    | .setActive active => (P.setActive active, [])

end Proposer

end CppPaxos
