import CppPaxos.Cluster
import CppPaxos.CrashRecovery
import CppPaxos.LearnerQuorum
import CppPaxos.ProposerBallots

/-!
# Proposers, crashing acceptors and learners on a network

The three roles together, each acceptor with the durable copy its owner keeps. An
acceptor may crash at any moment and recover from that copy; messages may be lost,
duplicated, delayed and delivered out of order, and a message sent by an incarnation
of an acceptor may arrive during a later one. The owners may pause and resume the
proposers and acceptors, and may tell a proposer of any ID they have observed.
-/

namespace CppPaxos

open Machines MessengerCall

/-- The parties, and the messages that each of them has ever sent. -/
structure DurableCluster (κ ι ν : Type*) where
  proposers : κ → Proposer
  hosts : ι → Host
  learners : ν → Learner
  requests : κ → List MessengerCall
  answers : ι → List MessengerCall
  resolutions : ν → List MessengerCall

/-- A call of a member function of one of the parties, or the crash of an acceptor. -/
inductive DurableAction (κ ι ν : Type*)
  | proposer (k : κ) (call : ProposerCall)
  | host (i : ι) (act : HostAction)
  | learner (n : ν) (report : Report)

namespace DurableCluster

variable {κ ι ν : Type*}

/-- Some proposer has sent the accept request. -/
def Proposed (C : DurableCluster κ ι ν) (b : ProposalID) (v : Str) : Prop :=
  ∃ k, sendAccept b v ∈ C.requests k

/-- An acceptor has sent a permit for `p` with the value `v`, to whatever proposer. -/
def Permitted (C : DurableCluster κ ι ν) (i : ι) (p : ProposalID) (v : Str) : Prop :=
  ∃ toUID, sendPermit toUID p v ∈ C.answers i

/-- The call sends a permit for `p` with the value `v`. -/
def permitsFor (p : ProposalID) (v : Str) : MessengerCall → Bool
  | sendPermit _ p' v' => p' = p ∧ v' = v
  | _ => false

/-- A permit for the pair is among the answers. -/
theorem permitted_iff {C : DurableCluster κ ι ν} {i : ι} {p : ProposalID} {v : Str} :
    C.Permitted i p v ↔ ∃ call ∈ C.answers i, permitsFor p v call := by
  constructor
  · rintro ⟨toUID, hsent⟩
    exact ⟨_, hsent, by simp [permitsFor]⟩
  · rintro ⟨call, hsent, hpermit⟩
    cases call with
    | sendPermit toUID p' v' =>
      simp only [permitsFor, decide_eq_true_eq] at hpermit
      obtain ⟨rfl, rfl⟩ := hpermit
      exact ⟨toUID, hsent⟩
    | _ => simp [permitsFor] at hpermit

instance (C : DurableCluster κ ι ν) (i : ι) (p : ProposalID) (v : Str) :
    Decidable (C.Permitted i p v) :=
  decidable_of_iff _ permitted_iff.symm

section Machine

variable [DecidableEq κ] [DecidableEq ι] [DecidableEq ν]

/-- The cluster as a machine. -/
def machine : Machine (DurableCluster κ ι ν) (DurableAction κ ι ν) MessengerCall where
  step C
    | .proposer k call =>
      let (P, sent) := Proposer.machine.step (C.proposers k) call
      ({ C with
          proposers := Function.update C.proposers k P
          requests := Function.update C.requests k (C.requests k ++ sent) }, sent)
    | .host i act =>
      let (H, sent) := Host.machine.step (C.hosts i) act
      ({ C with
          hosts := Function.update C.hosts i H
          answers := Function.update C.answers i (C.answers i ++ sent) }, sent)
    | .learner n report =>
      let (L, sent) := Learner.machine.step (C.learners n) report
      ({ C with
          learners := Function.update C.learners n L
          resolutions := Function.update C.resolutions n (C.resolutions n ++ sent) }, sent)

/-- A call of a proposer changes only it and what it has requested. -/
theorem next_proposer (C : DurableCluster κ ι ν) (k : κ) (call : ProposerCall) :
    machine.next C (.proposer k call) =
      { C with
        proposers := Function.update C.proposers k (Proposer.machine.next (C.proposers k) call)
        requests := Function.update C.requests k
          (C.requests k ++ Proposer.machine.emits (C.proposers k) call) } := rfl

/-- An action of a host changes only it and what it has answered. -/
theorem next_host (C : DurableCluster κ ι ν) (i : ι) (act : HostAction) :
    machine.next C (.host i act) =
      { C with
        hosts := Function.update C.hosts i (Host.machine.next (C.hosts i) act)
        answers := Function.update C.answers i
          (C.answers i ++ Host.machine.emits (C.hosts i) act) } := rfl

/-- A report changes only the learner and what it has resolved. -/
theorem next_learner (C : DurableCluster κ ι ν) (n : ν) (report : Report) :
    machine.next C (.learner n report) =
      { C with
        learners := Function.update C.learners n (Learner.machine.next (C.learners n) report)
        resolutions := Function.update C.resolutions n
          (C.resolutions n ++ Learner.machine.emits (C.learners n) report) } := rfl

/-- The history variables of the proposers: which of them hold promises for an earlier ID. -/
def staleAfter (C : DurableCluster κ ι ν) (act : DurableAction κ ι ν) (stale : κ → Bool) :
    κ → Bool :=
  match act with
  | .proposer k call => Function.update stale k ((C.proposers k).staleAfter call (stale k))
  | .host _ _ | .learner _ _ => stale

/-- The cluster with the history variables of its proposers. -/
def trackedMachine :
    Machine (DurableCluster κ ι ν × (κ → Bool)) (DurableAction κ ι ν) MessengerCall :=
  machine.withGhost staleAfter

/-- One step of the cluster, with what is tracked of its proposers. -/
theorem trackedMachine_next (X : DurableCluster κ ι ν × (κ → Bool)) (act : DurableAction κ ι ν) :
    trackedMachine.next X act = (machine.next X.1 act, X.1.staleAfter act X.2) := rfl

/-- Tracking does not change the run. -/
theorem trackedMachine_run_fst (X : DurableCluster κ ι ν × (κ → Bool))
    (acts : List (DurableAction κ ι ν)) : (trackedMachine.run X acts).1 = machine.run X.1 acts :=
  Machine.withGhost_run_fst X acts

end Machine

/-- The action runs into none of the flaws of the roles: a number that wraps around, promises for
an earlier ID counted or used, a value replaced under a sitting leader, a duplicate answered ahead
of the disk, a count found in uninitialised memory. -/
def AvoidsFlaws (X : DurableCluster κ ι ν × (κ → Bool)) : DurableAction κ ι ν → Prop
  | .proposer k call =>
    (X.1.proposers k).NoWrap call ∧ Proposer.UsesFresh (X.1.proposers k, X.2 k) call ∧
      (X.1.proposers k).KeepsValue call
  | .host i act => (X.1.hosts i).AnswersFromDisk act
  | .learner n report => (X.1.learners n).FindsNoVotes report

instance (X : DurableCluster κ ι ν × (κ → Bool)) : DecidablePred (AvoidsFlaws X)
  | .proposer _ _ => inferInstanceAs (Decidable (_ ∧ _ ∧ _))
  | .host i act => inferInstanceAs (Decidable ((X.1.hosts i).AnswersFromDisk act))
  | .learner n report => inferInstanceAs (Decidable ((X.1.learners n).FindsNoVotes report))

end DurableCluster

namespace Setup

variable {κ ι ν : Type*} [Fintype ι] (S : Setup κ ι)

/-- The start: all parties are new and active, nobody leads and nothing has been sent. -/
def durableStart : DurableCluster κ ι ν where
  proposers k := .new (S.proposerUID k) S.quorumSize false true
  hosts i := .new (S.acceptorUID i) (S.livenessWindow i) (S.startedAt i) true
  learners _ := .new S.quorumSize true
  requests _ := []
  answers _ := []
  resolutions _ := []

/-- What may happen at a proposer: any call of its owner but `setLeader` or an empty proposal, and
the delivery of an answer that some acceptor has sent to it. -/
def DurableProposerEnabled (C : DurableCluster κ ι ν) (k : κ) : ProposerCall → Prop
  | .prepare _ | .resendAccept | .setActive _ | .observeProposal .. => True
  | .setProposal value => value ≠ []
  | .setLeader _ => False
  | .receivePromise fromUID p r w =>
    ∃ i, S.acceptorUID i = fromUID ∧ sendPromise (S.proposerUID k) p r w ∈ C.answers i
  | .receivePrepareNACK fromUID p promisedID =>
    ∃ i, S.acceptorUID i = fromUID ∧
      sendPrepareNACK (S.proposerUID k) p promisedID ∈ C.answers i
  | .receiveAcceptNACK fromUID p promisedID =>
    ∃ i, S.acceptorUID i = fromUID ∧
      sendAcceptNACK (S.proposerUID k) p promisedID ∈ C.answers i

/-- What may happen to an acceptor: any call of its owner, a crash, and the delivery of a request
that some proposer has sent. -/
def HostEnabled (C : DurableCluster κ ι ν) : HostAction → Prop
  | .call (.receivePrepare _ fromUID p) =>
    ∃ k, S.proposerUID k = fromUID ∧ sendPrepare p ∈ C.requests k
  | .call (.receiveAcceptRequest fromUID p v) =>
    ∃ k, S.proposerUID k = fromUID ∧ sendAccept p v ∈ C.requests k
  | .call .persisted | .call (.setActive _) | .crash _ _ _ => True

/-- A learner may be told of any permit that an acceptor has sent. -/
def LearnerEnabled (C : DurableCluster κ ι ν) (r : Report) : Prop :=
  ∃ i, S.acceptorUID i = r.fromUID ∧ C.Permitted i r.proposalID r.acceptedValue

/-- What may happen next. -/
def DurableEnabled (C : DurableCluster κ ι ν) : DurableAction κ ι ν → Prop
  | .proposer k call => S.DurableProposerEnabled C k call
  | .host _ act => S.HostEnabled C act
  | .learner _ report => S.LearnerEnabled C report

instance (C : DurableCluster κ ι ν) (k : κ) : DecidablePred (S.DurableProposerEnabled C k)
  | .prepare _ | .resendAccept | .setActive _ | .observeProposal .. => isTrue trivial
  | .setProposal value => inferInstanceAs (Decidable (value ≠ []))
  | .setLeader _ => isFalse not_false
  | .receivePromise .. | .receivePrepareNACK .. | .receiveAcceptNACK .. =>
    inferInstanceAs (Decidable (∃ i, _ ∧ _ ∈ C.answers i))

instance [Fintype κ] (C : DurableCluster κ ι ν) : DecidablePred (S.HostEnabled C)
  | .call (.receivePrepare ..) | .call (.receiveAcceptRequest ..) =>
    inferInstanceAs (Decidable (∃ k, _ ∧ _ ∈ C.requests k))
  | .call .persisted | .call (.setActive _) | .crash _ _ _ => isTrue trivial

instance (C : DurableCluster κ ι ν) : DecidablePred (S.LearnerEnabled C) := fun r =>
  inferInstanceAs (Decidable (∃ i, S.acceptorUID i = r.fromUID ∧ _))

instance [Fintype κ] (C : DurableCluster κ ι ν) : DecidablePred (S.DurableEnabled C)
  | .proposer k call => inferInstanceAs (Decidable (S.DurableProposerEnabled C k call))
  | .host _ act => inferInstanceAs (Decidable (S.HostEnabled C act))
  | .learner _ report => inferInstanceAs (Decidable (S.LearnerEnabled C report))

/-- What is enabled on an acceptor is a matter of the requests sent. -/
theorem HostEnabled.of_eq {S : Setup κ ι} {C C' : DurableCluster κ ι ν} {act : HostAction}
    (h : S.HostEnabled C act) (hrequests : C'.requests = C.requests) : S.HostEnabled C' act := by
  cases act with
  | crash => trivial
  | call call =>
    cases call with
    | receivePrepare | receiveAcceptRequest => simpa only [HostEnabled, hrequests] using h
    | persisted | setActive => trivial

/-- A quorum of acceptors has sent permits for `p` with the value `v`, each in whichever of its
incarnations. -/
def Decided (C : DurableCluster κ ι ν) (p : ProposalID) (v : Str) : Prop :=
  ∃ Q : Finset ι, S.quorumSize ≤ Q.card ∧ ∀ i ∈ Q, C.Permitted i p v

variable [DecidableEq κ] [DecidableEq ι] [DecidableEq ν]

/-- The runs in which only what may happen does, and no flaw of the roles is run into. -/
abbrev SoundRun (acts : List (DurableAction κ ι ν)) : Prop :=
  DurableCluster.trackedMachine.Admits
    (fun X act => S.DurableEnabled X.1 act ∧ DurableCluster.AvoidsFlaws X act)
    (S.durableStart, fun _ => false) acts

end Setup

end CppPaxos
