import CppPaxos.NodeSteps

/-!
# A node that has been set inactive

`setActive(false)` silences the three roles. The acceptor and the learner stay silent
until they are set active again. The proposer goes back to its initial state with every
new ballot, and that state is active.
-/

namespace CppPaxos

open Machines MessengerCall

/-- The call sends a request of a proposer. -/
def MessengerCall.isRequest : MessengerCall → Bool
  | .sendPrepare _ | .sendAccept .. => true
  | _ => false

/-- The call sends an answer of an acceptor. -/
def MessengerCall.isAnswer : MessengerCall → Bool
  | .sendPromise .. | .sendPermit .. | .sendPrepareNACK .. | .sendAcceptNACK .. => true
  | _ => false

/-- A call after which a proposer is inactive sends no request. -/
theorem Proposer.not_isRequest_of_inactive {P : Proposer} {call : ProposerCall}
    (h : (machine.next P call).active = false) {m : MessengerCall}
    (hm : m ∈ machine.emits P call) : ¬m.isRequest := by
  have hnotice : m = onLeadershipAcquired → ¬m.isRequest := by
    rintro rfl
    exact Bool.false_ne_true
  rcases emits_cases hm with ⟨p, rfl⟩ | ⟨p, v, rfl⟩ | hacquired
  · cases call with
    | prepare increment =>
      cases increment with
      | true => cases h
      | false =>
        have hinactive : P.active = false := h
        simp [Machine.emits, machine, prepare, hinactive] at hm
    | setProposal v =>
      simp only [Machine.emits, machine, setProposal] at hm
      split_ifs at hm <;> simp at hm
    | receivePromise u p' r w =>
      simp only [Machine.emits, machine] at hm
      rcases P.receivePromise_cases u p' r w with ⟨-, heq⟩ | ⟨-, -, heq⟩ | ⟨-, -, heq⟩
      · simp [heq] at hm
      · simp [heq] at hm
      · rw [heq] at hm
        split_ifs at hm <;> simp at hm
    | resendAccept =>
      simp only [Machine.emits, machine, resendAccept] at hm
      split_ifs at hm <;> simp at hm
    | receivePrepareNACK | receiveAcceptNACK | observeProposal | setLeader | setActive =>
      simp [Machine.emits, machine] at hm
  · rw [(of_sendAccept_mem hm).2.2.2] at h
    cases h
  · exact hnotice hacquired

/-- A proposer is set active by `setActive(true)` and by a new ballot. -/
theorem Proposer.active_next {P : Proposer} {call : ProposerCall} (h : P.active = false)
    (hprepare : call ≠ .prepare true) (hset : call ≠ .setActive true) :
    (machine.next P call).active = false := by
  cases call with
  | prepare increment =>
    cases increment with
    | true => exact absurd rfl hprepare
    | false => exact h
  | setProposal v =>
    simp only [Machine.next, machine, setProposal]
    split <;> exact h
  | receivePromise u p r w => exact (P.receivePromise_active u p r w).trans h
  | receivePrepareNACK u p id | receiveAcceptNACK u p id | observeProposal u id =>
    exact (P.observeProposal_active u id).trans h
  | resendAccept | setLeader => exact h
  | setActive active =>
    cases active with
    | true => exact absurd rfl hset
    | false => rfl

/-- An inactive proposer that begins no new ballot and is not set active stays silent. -/
theorem Proposer.silent_run {P : Proposer} (h : P.active = false) {calls : List ProposerCall}
    (hcalls : ∀ call ∈ calls, call ≠ .prepare true ∧ call ≠ .setActive true) :
    (machine.run P calls).active = false ∧ ∀ m ∈ machine.trace P calls, ¬m.isRequest := by
  refine (Machine.admits_const_iff.mpr hcalls).emits_only
    (I := fun (Q : Proposer) => Q.active = false) h ?_
  intro Q call hQ hcall
  have hinactive := active_next hQ hcall.1 hcall.2
  exact ⟨hinactive, fun m hm => not_isRequest_of_inactive hinactive hm⟩

/-- An acceptor is set active by `setActive(true)` only. -/
theorem Acceptor.active_next {A : Acceptor} {call : AcceptorCall} (h : A.active = false)
    (hset : call ≠ .setActive true) : (machine.next A call).active = false := by
  cases call with
  | receivePrepare now u p =>
    simp only [Machine.next, machine, receivePrepare]
    split_ifs <;> exact h
  | receiveAcceptRequest u p v =>
    simp only [Machine.next, machine, receiveAcceptRequest]
    split_ifs <;> exact h
  | persisted => exact h
  | setActive active =>
    cases active with
    | true => exact absurd rfl hset
    | false => rfl

/-- An inactive acceptor that is not set active stays silent. -/
theorem Acceptor.silent_run {A : Acceptor} (h : A.active = false) {calls : List AcceptorCall}
    (hcalls : ∀ call ∈ calls, call ≠ .setActive true) :
    (machine.run A calls).active = false ∧ ∀ m, m ∉ machine.trace A calls := by
  refine (Machine.admits_const_iff.mpr hcalls).emits_only
    (I := fun (B : Acceptor) => B.active = false) h ?_
  intro B call hB hcall
  refine ⟨active_next hB hcall, fun m hm => ?_⟩
  rw [(emits_cases hm).1] at hB
  cases hB

/-- Requests are messages. -/
theorem MessengerCall.isMessage_of_isRequest {m : MessengerCall} (h : m.isRequest) :
    m.isMessage := by
  cases m <;> first | rfl | cases h

/-- So are answers. -/
theorem MessengerCall.isMessage_of_isAnswer {m : MessengerCall} (h : m.isAnswer) :
    m.isMessage := by
  cases m <;> first | rfl | cases h

namespace PaxosNode

/-- The acceptor and the learner are inactive at every moment, and the acceptor answers nothing. -/
structure AcceptorRetired (N : PaxosNode) (calls : List NodeCall) : Prop where
  acceptor : ∀ pre, pre <+: calls → (machine.run N pre).acceptor.active = false
  learner : ∀ pre, pre <+: calls → (machine.run N pre).learner.active = false
  silent : ∀ m ∈ machine.trace N calls, ¬m.isAnswer

/-- The proposer is inactive at every moment, and requests nothing. -/
structure ProposerRetired (N : PaxosNode) (calls : List NodeCall) : Prop where
  proposer : ∀ pre, pre <+: calls → (machine.run N pre).proposer.active = false
  silent : ∀ m ∈ machine.trace N calls, ¬m.isRequest

section Step

variable {N : PaxosNode} {call : NodeCall} (hset : call ≠ .setActive true)

include hset

/-- One call leaves an inactive acceptor and learner inactive and answers nothing. -/
theorem acceptorRetired_step (hacceptor : N.acceptor.active = false)
    (hlearner : N.learner.active = false) :
    (machine.next N call).acceptor.active = false ∧ (machine.next N call).learner.active = false ∧
      ∀ m ∈ machine.emits N call, ¬m.isAnswer := by
  have hcalls : ∀ c ∈ acceptorCalls call, c ≠ .setActive true := by
    cases call with
    | setActive active => simpa [acceptorCalls] using hset
    | _ => simp [acceptorCalls]
  obtain ⟨hinactive, hsilent⟩ := Acceptor.silent_run hacceptor hcalls
  obtain ⟨hacceptor', hlearner'⟩ := N.next_roles call
  refine ⟨by rw [hacceptor', hinactive], ?_, fun m hm hanswer => ?_⟩
  · rw [hlearner']
    cases call with
    | setActive active =>
      cases active with
      | true => exact absurd rfl hset
      | false => rfl
    | _ => exact hlearner
  · rcases emits_cases hm with hproposer | hnothing | ⟨u, p, rfl⟩ | hnotice
    · obtain ⟨pre, c, -, hsent⟩ := Machine.mem_trace_iff.mp hproposer
      rcases Proposer.emits_cases hsent with ⟨p, rfl⟩ | ⟨p, v, rfl⟩ | rfl <;> cases hanswer
    · exact hsilent m hnothing
    · cases hanswer
    · exact hnotice (MessengerCall.isMessage_of_isAnswer hanswer)

/-- Without a new ballot, one call leaves an inactive proposer inactive and requests nothing. -/
theorem proposerRetired_step (hproposer : N.proposer.active = false)
    (hstarts : ¬N.StartsBallot call) :
    (machine.next N call).proposer.active = false ∧ ∀ m ∈ machine.emits N call, ¬m.isRequest := by
  have hcalls : ∀ c ∈ N.proposerCalls call, c ≠ .prepare true ∧ c ≠ .setActive true := by
    cases call with
    | setActive active => simpa [proposerCalls] using hset
    | prepare increment => simpa [proposerCalls, StartsBallot] using hstarts
    | setLeaderProposalID | pulse | receivePrepare | receivePromise => simp [proposerCalls]
    | pollLiveness | acquireLeadership | receivePrepareNACK =>
      simp [proposerCalls, if_neg hstarts]
    | receiveHeartbeat | receiveAcceptNACK =>
      simp only [proposerCalls]
      split_ifs <;> simp
  obtain ⟨hinactive, hsilent⟩ := Proposer.silent_run hproposer hcalls
  refine ⟨by rw [next_proposer, hinactive], fun m hm hrequest => ?_⟩
  rcases emits_cases hm with hsent | hanswer | ⟨u, p, rfl⟩ | hnotice
  · exact hsilent m hsent hrequest
  · obtain ⟨pre, c, -, hsent⟩ := Machine.mem_trace_iff.mp hanswer
    rcases (Acceptor.emits_cases hsent).2 with
      ⟨u, p, rfl⟩ | ⟨u, p, rfl⟩ | ⟨u, p, id, rfl⟩ | ⟨u, p, id, rfl⟩ <;> cases hrequest
  · cases hrequest
  · exact hnotice (MessengerCall.isMessage_of_isRequest hrequest)

end Step

/-- A new ballot makes the proposer active. -/
theorem active_of_startsBallot {N : PaxosNode} {call : NodeCall} (h : N.StartsBallot call) :
    (machine.next N call).proposer.active = true := by
  obtain ⟨acquiring, hstep⟩ := step_of_startsBallot h
  rw [Machine.next, hstep]
  rfl

/-- **An inactive node**, in any state and until it is set active again: its acceptor and its
learner stay inactive and answer nothing, and its proposer stays inactive and requests nothing
exactly if no call begins a new ballot. -/
theorem inactive_retired {N : PaxosNode} {calls : List NodeCall}
    (hcalls : ∀ call ∈ calls, call ≠ .setActive true) :
    (N.setActive false).AcceptorRetired calls ∧
      ((N.setActive false).ProposerRetired calls ↔
        machine.Admits (fun N call => ¬N.StartsBallot call) (N.setActive false) calls) := by
  have hadmits : machine.Admits (fun _ call => call ≠ .setActive true) (N.setActive false) calls :=
    Machine.admits_const_iff.mpr hcalls
  constructor
  · have hretired : ∀ pre, pre <+: calls →
        ((machine.run (N.setActive false) pre).acceptor.active = false ∧
          (machine.run (N.setActive false) pre).learner.active = false) ∧
        ∀ m ∈ machine.trace (N.setActive false) pre, ¬m.isAnswer := by
      intro pre hpre
      refine (hadmits.of_prefix hpre).emits_only
        (I := fun N => N.acceptor.active = false ∧ N.learner.active = false) ⟨rfl, rfl⟩ ?_
      intro N call hN hset
      obtain ⟨hacceptor, hlearner, hsilent⟩ := acceptorRetired_step hset hN.1 hN.2
      exact ⟨⟨hacceptor, hlearner⟩, hsilent⟩
    exact ⟨fun pre hpre => (hretired pre hpre).1.1, fun pre hpre => (hretired pre hpre).1.2,
      (hretired calls List.prefix_rfl).2⟩
  constructor
  · intro h
    refine Machine.admits_iff_forall_prefix.mpr fun pre call hpre hstarts => ?_
    have hinactive := h.proposer _ hpre
    rw [Machine.run_concat, active_of_startsBallot hstarts] at hinactive
    cases hinactive
  · intro h
    have hboth := hadmits.and h
    have hretired : ∀ pre, pre <+: calls →
        (machine.run (N.setActive false) pre).proposer.active = false ∧
          ∀ m ∈ machine.trace (N.setActive false) pre, ¬m.isRequest := by
      intro pre hpre
      refine (hboth.of_prefix hpre).emits_only
        (I := fun N => N.proposer.active = false) rfl ?_
      exact fun N call hN hcall => proposerRetired_step hcall.1 hN hcall.2
    exact ⟨fun pre hpre => (hretired pre hpre).1, (hretired calls List.prefix_rfl).2⟩

/-- Node A handles a request of B and a promise while it is inactive. -/
theorem inactive_retired_nodeA :
    (nodeA.setActive false).AcceptorRetired
        [.receivePrepare 0 [66] ⟨1, [66]⟩, .receivePromise 0 [49] ⟨0, [65]⟩ .empty []] ∧
      (nodeA.setActive false).ProposerRetired
        [.receivePrepare 0 [66] ⟨1, [66]⟩, .receivePromise 0 [49] ⟨0, [65]⟩ .empty []] := by
  obtain ⟨hacceptor, hproposer⟩ := @inactive_retired nodeA
    [.receivePrepare 0 [66] ⟨1, [66]⟩, .receivePromise 0 [49] ⟨0, [65]⟩ .empty []] (by decide)
  exact ⟨hacceptor, hproposer.mpr (by decide)⟩

/-- A node that has been set inactive asks for the leadership when its leader is silent, and is
active again. -/
theorem inactive_node_prepares :
    ¬((nodeA.setActive false).AcceptorRetired [.acquireLeadership 200000] ∧
      (nodeA.setActive false).ProposerRetired [.acquireLeadership 200000]) := by
  rintro ⟨-, h⟩
  exact absurd (h.silent (sendPrepare ⟨1, [65]⟩) (by decide)) (by decide)

end PaxosNode

end CppPaxos
