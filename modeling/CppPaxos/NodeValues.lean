import CppPaxos.NodeElection

/-!
# A cluster of nodes accepts nothing

The node composes the first phase of the protocol only. No function of the node gives
its proposer a value, none hands an accept request to its acceptor, and none tells its
learner of a permit. What follows for the cluster is an invariant of all nodes together:
values would have to come from promises, and promises report what acceptors have accepted.
-/

namespace CppPaxos

open Machines MessengerCall

/-- The call belongs to the second phase of the protocol, or reports its result. -/
def MessengerCall.isSecondPhase : MessengerCall → Bool
  | .sendAccept .. | .sendPermit .. | .sendAcceptNACK .. | .onResolution .. => true
  | _ => false

/-- A proposer that has no value and gets none sends no accept request. -/
theorem Proposer.run_without_value {P : Proposer} (hvalue : P.proposedValue = [])
    {calls : List ProposerCall}
    (hcalls : ∀ call ∈ calls, (∀ v, call ≠ .setProposal v) ∧
      ∀ u p r w, call = .receivePromise u p r w → w = []) :
    (machine.run P calls).proposedValue = [] ∧
      ∀ m ∈ machine.trace P calls, ¬m.isSecondPhase := by
  refine (Machine.admits_const_iff.mpr hcalls).emits_only
    (I := fun (P : Proposer) => P.proposedValue = []) hvalue ?_
  rintro P call hP ⟨hset, hpromise⟩
  have hnext : (machine.next P call).proposedValue = [] := by
    rcases P.proposedValue_next call with hkept | hnew
    · exact hkept.trans hP
    · cases call with
      | setProposal v => exact absurd rfl (hset v)
      | receivePromise u p r w =>
        have hw : w = (machine.next P (.receivePromise u p r w)).proposedValue := by
          simpa [ProposerCall.value] using hnew
        rw [← hw]
        exact hpromise u p r w rfl
      | _ => simp [ProposerCall.value] at hnew
  refine ⟨hnext, fun m hm => ?_⟩
  rcases emits_cases hm with ⟨p, rfl⟩ | ⟨p, v, rfl⟩ | rfl
  · exact Bool.false_ne_true
  · obtain ⟨-, hv, -, -⟩ := (sendAccept_mem_cases hm).1
    rcases (sendAccept_mem_cases hm).2 with
      ⟨u, r, w, -, -, hne⟩ | ⟨rfl, -, -⟩ | ⟨-, -, hne, -⟩
    · exact absurd (hv.trans hnext) hne
    · exact absurd rfl (hset v)
    · exact absurd hP hne
  · exact Bool.false_ne_true

/-- A prepare request leaves the accepted pair alone, and a promise in answer to it reports that
pair. -/
theorem Acceptor.receivePrepare_accepted (A : Acceptor) (now : UInt64) (u : Str) (p : ProposalID) :
    (A.receivePrepare now u p).1.acceptedID = A.acceptedID ∧
      (A.receivePrepare now u p).1.acceptedValue = A.acceptedValue ∧
      ∀ m ∈ (A.receivePrepare now u p).2, m = sendPromise u p A.acceptedID A.acceptedValue ∨
        m = sendPrepareNACK u p A.promisedID := by
  unfold receivePrepare
  split_ifs <;> simp

namespace PaxosNode

/-- A node does not resolve anything. -/
theorem onResolution_notMem_emits (N : PaxosNode) (call : NodeCall) (p : ProposalID) (v : Str) :
    onResolution p v ∉ machine.emits N call := by
  have hproposer : ∀ P c, onResolution p v ∉ Proposer.machine.emits P c := by
    intro P c hsent
    rcases Proposer.emits_cases hsent with ⟨p', heq⟩ | ⟨p', v, heq⟩ | heq <;> cases heq
  have hpulse : ∀ (N : PaxosNode) now, onResolution p v ∉ (N.pulse now).2 := by
    intro N now hsent
    by_cases hleader : N.proposer.leader
    · rw [pulse_snd_of_leader hleader] at hsent
      simp at hsent
    · simp [pulse_snd_of_not_leader hleader] at hsent
  intro h
  by_cases hcontends : call.Contends
  · rw [Machine.emits] at h
    obtain ⟨acquiring, hstep | hstep⟩ := N.step_of_contends hcontends
    · rw [hstep] at h
      cases h
    · rw [hstep] at h
      exact hproposer _ (.prepare true) h
  cases call with
  | pollLiveness | acquireLeadership | receivePrepareNACK => exact hcontends trivial
  | setActive | setLeaderProposalID => cases h
  | prepare increment => exact hproposer N.proposer (.prepare increment) h
  | receivePrepare now u' p' =>
    rcases (N.acceptor.receivePrepare_accepted now u' p').2.2 _ h with heq | heq <;> cases heq
  | receiveHeartbeat now uid id =>
    have hsent : onResolution p v ∈ (N.receiveHeartbeat now uid id).2 := h
    rw [receiveHeartbeat_snd] at hsent
    split_ifs at hsent <;> simp at hsent
  | receiveAcceptNACK u' p' id =>
    have hsent : onResolution p v ∈ (N.receiveAcceptNACK u' p' id).2 := h
    rw [receiveAcceptNACK_eq] at hsent
    split_ifs at hsent <;> simp at hsent
  | pulse now => exact hpulse N now h
  | receivePromise now u' p' r w =>
    have hsent : onResolution p v ∈ (N.receivePromise now u' p' r w).2 := h
    rw [N.receivePromise_eq now u' p' r w Prod.mk.eta.symm] at hsent
    split_ifs at hsent
    · simp only [List.mem_append, List.mem_singleton, reduceCtorEq, or_false] at hsent
      rcases hsent with hsent | hbeat
      · exact hproposer N.proposer (.receivePromise u' p' r w) hsent
      · exact hpulse _ now hbeat
    · exact hproposer N.proposer (.receivePromise u' p' r w) hsent

/-- What a node sends of the second phase comes from its proposer. -/
theorem of_isSecondPhase_mem {N : PaxosNode} {call : NodeCall} {m : MessengerCall}
    (hm : m.isSecondPhase) (h : m ∈ machine.emits N call) :
    m ∈ Proposer.machine.trace N.proposer (N.proposerCalls call) := by
  cases m with
  | sendAccept p v => exact of_isRequest_mem rfl h
  | sendPermit | sendAcceptNACK =>
    obtain ⟨now, u, p, -, hsent⟩ := of_isAnswer_mem rfl h
    rcases (N.acceptor.receivePrepare_accepted now u p).2.2 _ hsent with heq | heq <;> cases heq
  | onResolution p v => exact absurd h (N.onResolution_notMem_emits call p v)
  | _ => cases hm

/-- A node never gives its proposer a value. -/
theorem setProposal_notMem_proposerCalls (N : PaxosNode) (call : NodeCall) (v : Str) :
    .setProposal v ∉ N.proposerCalls call := by
  cases call with
  | setActive | setLeaderProposalID | prepare | pulse | receivePrepare | receivePromise =>
    simp [proposerCalls]
  | _ =>
    simp only [proposerCalls]
    split_ifs <;> simp

end PaxosNode

namespace NodeSetup

variable {ι : Type*} {S : NodeSetup ι}

/-- What is known of one node and of what it has sent: it has no value of its own, has accepted
none and learnt none. -/
structure ValueFacts (sent : ι → List MessengerCall) (i : ι) (N : PaxosNode) : Prop where
  proposedValue : N.proposer.proposedValue = []
  acceptedID : N.acceptor.acceptedID = .empty
  acceptedValue : N.acceptor.acceptedValue = []
  learner : N.learner.finalValue = []
  promise : ∀ u p r w, sendPromise u p r w ∈ sent i → r = .empty ∧ w = []
  silent : ∀ m ∈ sent i, ¬m.isSecondPhase

/-- The facts hold at the start. -/
theorem valueFacts_start (i : ι) : ValueFacts S.start.sent i (S.start.parties i) := by
  refine ⟨?_, rfl, rfl, rfl, ?_, ?_⟩ <;> simp [start, PaxosNode.new, Proposer.new]

/-- They are a matter of the node and of what it has sent. -/
theorem ValueFacts.of_sent_eq {sent sent' : ι → List MessengerCall} {i : ι} {N : PaxosNode}
    (h : ValueFacts sent i N) (hself : sent' i = sent i) : ValueFacts sent' i N := by
  refine ⟨h.proposedValue, h.acceptedID, h.acceptedValue, h.learner, ?_, ?_⟩
  · rw [hself]
    exact h.promise
  · rw [hself]
    exact h.silent

/-- One call of a node keeps its facts: the promises it hears of report nothing. -/
theorem ValueFacts.next [DecidableEq ι] {C : NodeCluster ι} {i : ι} {call : NodeCall}
    (h : ∀ j, ValueFacts C.sent j (C.parties j)) (henabled : S.Enabled C (i, call)) :
    ValueFacts ((PaxosNode.machine.network ι).next C (i, call)).sent i
      (PaxosNode.machine.next (C.parties i) call) := by
  have hcalls : ∀ c ∈ (C.parties i).proposerCalls call, (∀ v, c ≠ .setProposal v) ∧
      ∀ u p r w, c = .receivePromise u p r w → w = [] := by
    intro c hc
    refine ⟨fun v hset => ?_, fun u p r w hpromise => ?_⟩
    · exact (C.parties i).setProposal_notMem_proposerCalls call v (hset ▸ hc)
    · obtain ⟨now, rfl⟩ := PaxosNode.of_receivePromise_mem (hpromise ▸ hc)
      obtain ⟨j, -, hsent⟩ := henabled
      exact ((h j).promise _ p r w hsent).2
  obtain ⟨hvalue, hsilent⟩ := Proposer.run_without_value (h i).proposedValue hcalls
  obtain ⟨hacceptor, hlearner⟩ := (C.parties i).next_roles call
  have haccepted : (PaxosNode.machine.next (C.parties i) call).acceptor.acceptedID = .empty ∧
      (PaxosNode.machine.next (C.parties i) call).acceptor.acceptedValue = [] := by
    rw [hacceptor]
    cases call with
    | receivePrepare now u p =>
      obtain ⟨hid, hvalue, -⟩ := (C.parties i).acceptor.receivePrepare_accepted now u p
      exact ⟨hid.trans (h i).acceptedID, hvalue.trans (h i).acceptedValue⟩
    | _ => exact ⟨(h i).acceptedID, (h i).acceptedValue⟩
  refine ⟨?_, haccepted.1, haccepted.2, ?_, fun u p r w hp => ?_, fun m hm hsecond => ?_⟩
  · rw [PaxosNode.next_proposer]
    exact hvalue
  · rw [hlearner]
    cases call with
    | _ => exact (h i).learner
  · rw [Machine.network_next_sent_self] at hp
    rcases List.mem_append.mp hp with hold | hnew
    · exact (h i).promise u p r w hold
    · obtain ⟨now, u', p', -, hsent⟩ := PaxosNode.of_isAnswer_mem rfl hnew
      rcases ((C.parties i).acceptor.receivePrepare_accepted now u' p').2.2 _ hsent with heq | heq
      · rw [sendPromise.injEq] at heq
        exact ⟨heq.2.2.1.trans (h i).acceptedID, heq.2.2.2.trans (h i).acceptedValue⟩
      · cases heq
  · rw [Machine.network_next_sent_self] at hm
    rcases List.mem_append.mp hm with hold | hnew
    · exact (h i).silent m hold hsecond
    · exact hsilent m (PaxosNode.of_isSecondPhase_mem hsecond hnew) hsecond

/-- **Nothing is accepted.** In no run of a cluster of nodes, whatever their flags, is a value
proposed, accepted or learnt, or a message of the second phase sent, and every promise reports that
nothing has been accepted. -/
theorem nothing_accepted [DecidableEq ι] {acts : List (ι × NodeCall)}
    (hrun : (PaxosNode.machine.network ι).Admits S.Enabled S.start acts) (i : ι) :
    let C := (PaxosNode.machine.network ι).run S.start acts
    (C.parties i).proposer.proposedValue = [] ∧ (C.parties i).acceptor.acceptedPair = none ∧
      ¬(C.parties i).learner.isComplete ∧ (∀ m ∈ C.sent i, ¬m.isSecondPhase) ∧
      ∀ u p r w, sendPromise u p r w ∈ C.sent i → r = .empty ∧ w = [] := by
  have h := hrun.network_invariant (I := ValueFacts) valueFacts_start
    (fun _ _ _ _ h hself _ => h.of_sent_eq hself)
    (fun _ _ _ h henabled => ValueFacts.next h henabled)
    i
  refine ⟨h.proposedValue, ?_, ?_, h.silent, h.promise⟩
  · simp [Acceptor.acceptedPair, h.acceptedID]
  · simp [Learner.isComplete, h.learner]

/-- Not even a node that has promised, in a run in which a leader is elected. -/
theorem nothing_accepted_electedThenRival :
    let C := (PaxosNode.machine.network (Fin 3)).run threeNodes.start
      (electedThenRival 0 1 2 ⟨1, [65]⟩ ⟨2, [67]⟩)
    (C.parties 1).acceptor.promisedID = ⟨1, [65]⟩ ∧ (C.parties 1).acceptor.acceptedPair = none :=
  ⟨by decide, (nothing_accepted (by decide) 1).2.1⟩

end NodeSetup

end CppPaxos
