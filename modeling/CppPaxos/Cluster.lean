import CppPaxos.Acceptor
import CppPaxos.ProposerSteps
import Mathlib.Data.Fintype.Card

/-!
# Proposers and acceptors on a network

Any number of proposers and finitely many acceptors, joined by a network that keeps
everything ever sent: a message may be delivered at any later time, to any of its
addressees, many times or never. Requests go to all acceptors, and an answer goes to
the proposer whose UID it names.
-/

namespace CppPaxos

open Machines MessengerCall

/-- The parties of a run. Each group has distinct UIDs, and two quorums of acceptors meet. -/
structure Setup (κ ι : Type*) [Fintype ι] where
  proposerUID : κ → Str
  acceptorUID : ι → Str
  /-- The quorum size of all proposers. -/
  quorumSize : ℕ
  /-- The liveness window of each acceptor. -/
  livenessWindow : ι → UInt64
  /-- The reading of the clock by the constructor of each acceptor. -/
  startedAt : ι → UInt64
  proposerUID_injective : Function.Injective proposerUID
  proposerUID_ne_nil : ∀ k, proposerUID k ≠ []
  acceptorUID_injective : Function.Injective acceptorUID
  majority : Fintype.card ι < 2 * quorumSize

/-- The states of the parties and the messages that each of them has ever sent. -/
structure Cluster (κ ι : Type*) where
  proposers : κ → Proposer
  acceptors : ι → Acceptor
  requests : κ → List MessengerCall
  answers : ι → List MessengerCall

/-- A call of a member function of one of the parties, by its owner or for a delivered message. -/
inductive ClusterAction (κ ι : Type*)
  | proposer (k : κ) (call : ProposerCall)
  | acceptor (i : ι) (call : AcceptorCall)

namespace Cluster

variable {κ ι : Type*} [DecidableEq κ] [DecidableEq ι]

/-- The cluster as a machine. -/
def machine : Machine (Cluster κ ι) (ClusterAction κ ι) MessengerCall where
  step C
    | .proposer k call =>
      let (P, sent) := Proposer.machine.step (C.proposers k) call
      ({ C with
          proposers := Function.update C.proposers k P
          requests := Function.update C.requests k (C.requests k ++ sent) }, sent)
    | .acceptor i call =>
      let (A, sent) := Acceptor.machine.step (C.acceptors i) call
      ({ C with
          acceptors := Function.update C.acceptors i A
          answers := Function.update C.answers i (C.answers i ++ sent) }, sent)

/-- A call of a proposer changes only it and what it has requested. -/
theorem next_proposer (C : Cluster κ ι) (k : κ) (call : ProposerCall) :
    machine.next C (.proposer k call) =
      { C with
        proposers := Function.update C.proposers k (Proposer.machine.next (C.proposers k) call)
        requests := Function.update C.requests k
          (C.requests k ++ Proposer.machine.emits (C.proposers k) call) } := rfl

/-- A call of an acceptor changes only it and what it has answered. -/
theorem next_acceptor (C : Cluster κ ι) (i : ι) (call : AcceptorCall) :
    machine.next C (.acceptor i call) =
      { C with
        acceptors := Function.update C.acceptors i (Acceptor.machine.next (C.acceptors i) call)
        answers := Function.update C.answers i
          (C.answers i ++ Acceptor.machine.emits (C.acceptors i) call) } := rfl

/-- No call makes the 32-bit number of a proposer wrap around. -/
def NoWrap (C : Cluster κ ι) : ClusterAction κ ι → Prop
  | .proposer k call => (C.proposers k).NoWrap call
  | .acceptor _ _ => True

instance (C : Cluster κ ι) : DecidablePred C.NoWrap
  | .proposer k call => inferInstanceAs (Decidable ((C.proposers k).NoWrap call))
  | .acceptor _ _ => isTrue trivial

end Cluster

namespace Setup

variable {κ ι : Type*} [Fintype ι] (S : Setup κ ι)

/-- The start: all parties are new and active, nobody leads and nothing has been sent. -/
def start : Cluster κ ι where
  proposers k := .new (S.proposerUID k) S.quorumSize false true
  acceptors i := .new (S.acceptorUID i) (S.livenessWindow i) (S.startedAt i) true
  requests _ := []
  answers _ := []

/-- What may be called on a proposer: `prepare`, `setProposal` with a value, `resendAccept`, and
the delivery of an answer that some acceptor has sent to this proposer. -/
def ProposerEnabled (C : Cluster κ ι) (k : κ) : ProposerCall → Prop
  | .prepare _ | .resendAccept => True
  | .setProposal value => value ≠ []
  | .receivePromise fromUID p r w =>
    ∃ i, S.acceptorUID i = fromUID ∧ sendPromise (S.proposerUID k) p r w ∈ C.answers i
  | .receivePrepareNACK fromUID p promisedID =>
    ∃ i, S.acceptorUID i = fromUID ∧
      sendPrepareNACK (S.proposerUID k) p promisedID ∈ C.answers i
  | .receiveAcceptNACK fromUID p promisedID =>
    ∃ i, S.acceptorUID i = fromUID ∧
      sendAcceptNACK (S.proposerUID k) p promisedID ∈ C.answers i
  | .observeProposal .. | .setLeader _ | .setActive _ => False

/-- What may be called on an acceptor: `persisted`, and the delivery of a request that some
proposer has sent. -/
def AcceptorEnabled (C : Cluster κ ι) : AcceptorCall → Prop
  | .receivePrepare _ fromUID p => ∃ k, S.proposerUID k = fromUID ∧ sendPrepare p ∈ C.requests k
  | .receiveAcceptRequest fromUID p v =>
    ∃ k, S.proposerUID k = fromUID ∧ sendAccept p v ∈ C.requests k
  | .persisted => True
  | .setActive _ => False

/-- What may happen next in a cluster. -/
def Enabled (C : Cluster κ ι) : ClusterAction κ ι → Prop
  | .proposer k call => S.ProposerEnabled C k call
  | .acceptor _ call => S.AcceptorEnabled C call

instance (C : Cluster κ ι) (k : κ) : DecidablePred (S.ProposerEnabled C k)
  | .prepare _ | .resendAccept => isTrue trivial
  | .setProposal value => inferInstanceAs (Decidable (value ≠ []))
  | .receivePromise .. | .receivePrepareNACK .. | .receiveAcceptNACK .. =>
    inferInstanceAs (Decidable (∃ i, _ ∧ _ ∈ C.answers i))
  | .observeProposal .. | .setLeader _ | .setActive _ => isFalse not_false

instance [Fintype κ] (C : Cluster κ ι) : DecidablePred (S.AcceptorEnabled C)
  | .receivePrepare .. | .receiveAcceptRequest .. =>
    inferInstanceAs (Decidable (∃ k, _ ∧ _ ∈ C.requests k))
  | .persisted => isTrue trivial
  | .setActive _ => isFalse not_false

instance [Fintype κ] (C : Cluster κ ι) : DecidablePred (S.Enabled C)
  | .proposer k call => inferInstanceAs (Decidable (S.ProposerEnabled C k call))
  | .acceptor _ call => inferInstanceAs (Decidable (S.AcceptorEnabled C call))

/-- A majority is not empty. -/
theorem quorumSize_pos : 0 < S.quorumSize := by
  have hmajority := S.majority
  omega

variable [DecidableEq κ] [DecidableEq ι]

/-- A quorum of acceptors held the accepted pair `(p, v)`, each at some moment of the run. -/
def HeldByQuorum (acts : List (ClusterAction κ ι)) (p : ProposalID) (v : Str) : Prop :=
  ∃ holders : Finset ι, S.quorumSize ≤ holders.card ∧ ∀ i ∈ holders,
    ∃ C, Cluster.machine.Visits S.start acts C ∧ (C.acceptors i).acceptedPair = some (p, v)

/-- A quorum of acceptors that hold a pair together hold it at some moment each. -/
theorem heldByQuorum_at {acts pre : List (ClusterAction κ ι)} (hpre : pre <+: acts)
    {p : ProposalID} {v : Str} (holders : Finset ι) (hquorum : S.quorumSize ≤ holders.card)
    (h : ∀ i ∈ holders,
      ((Cluster.machine.run S.start pre).acceptors i).acceptedPair = some (p, v)) :
    S.HeldByQuorum acts p v :=
  ⟨holders, hquorum, fun i hi => ⟨_, ⟨pre, hpre, rfl⟩, h i hi⟩⟩

/-- Pairs held by quorums carry one value. -/
def Agreement (acts : List (ClusterAction κ ι)) : Prop :=
  ∀ p v p' v', S.HeldByQuorum acts p v → S.HeldByQuorum acts p' v' → v = v'

end Setup

end CppPaxos
