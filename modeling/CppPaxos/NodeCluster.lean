import CppPaxos.AcceptorInvariant
import CppPaxos.InactiveNode
import CppPaxos.Library.Network
import CppPaxos.NodeNotices
import Mathlib.Data.Fintype.Card

/-!
# A cluster of nodes

Nodes on a network, each with the three roles as `PaxosNode` composes them: the node
hands prepare requests to its acceptor and promises and refusals to its proposer, and
nothing else reaches the roles. `persisted` is never called, so an active acceptor that
has recorded a promise never records another one, and answers repeated requests for it.
-/

namespace CppPaxos

open Machines MessengerCall

/-- The constructor arguments of the nodes, which know of no leader at the start. -/
structure NodeSetup (ι : Type*) where
  nodeUID : ι → Str
  quorumSize : Int
  heartbeatTimeout : ι → Int
  livenessWindow : ι → Int
  /-- The readings of the clock by the constructors. -/
  acceptorNow : ι → UInt64
  now : ι → UInt64
  unset : ι → PaxosNode.Unset
  nodeUID_injective : Function.Injective nodeUID
  nodeUID_ne_nil : ∀ i, nodeUID i ≠ []

/-- The nodes and what they have sent. -/
abbrev NodeCluster (ι : Type*) := Network ι PaxosNode MessengerCall

namespace NodeSetup

variable {ι : Type*} (S : NodeSetup ι)

/-- The start: nothing has been sent. -/
def start : NodeCluster ι where
  parties i := .new (S.nodeUID i) S.quorumSize (S.heartbeatTimeout i) (S.livenessWindow i) []
    (S.acceptorNow i) (S.now i) (S.unset i)
  sent _ := []

/-- What may happen at a node: any call of its owner, and the delivery of a message that some node
has sent, if the message is for all or names this node. -/
def Enabled (C : NodeCluster ι) : ι × NodeCall → Prop
  | (_, .receiveHeartbeat _ uid id) => ∃ j, sendHeartbeat uid id ∈ C.sent j
  | (_, .receivePrepare _ fromUID p) => ∃ j, S.nodeUID j = fromUID ∧ sendPrepare p ∈ C.sent j
  | (i, .receivePromise _ fromUID p r w) =>
    ∃ j, S.nodeUID j = fromUID ∧ sendPromise (S.nodeUID i) p r w ∈ C.sent j
  | (i, .receivePrepareNACK fromUID p id) =>
    ∃ j, S.nodeUID j = fromUID ∧ sendPrepareNACK (S.nodeUID i) p id ∈ C.sent j
  | (i, .receiveAcceptNACK fromUID p id) =>
    ∃ j, S.nodeUID j = fromUID ∧ sendAcceptNACK (S.nodeUID i) p id ∈ C.sent j
  | (_, .setActive _) | (_, .setLeaderProposalID _) | (_, .prepare _) | (_, .pollLiveness ..)
  | (_, .pulse _) | (_, .acquireLeadership _) => True

instance [Fintype ι] (C : NodeCluster ι) : DecidablePred (S.Enabled C)
  | (_, .receiveHeartbeat ..) => inferInstanceAs (Decidable (∃ j, _ ∈ C.sent j))
  | (_, .receivePrepare ..) | (_, .receivePromise ..) | (_, .receivePrepareNACK ..)
  | (_, .receiveAcceptNACK ..) => inferInstanceAs (Decidable (∃ j, _ ∧ _ ∈ C.sent j))
  | (_, .setActive _) | (_, .setLeaderProposalID _) | (_, .prepare _) | (_, .pollLiveness ..)
  | (_, .pulse _) | (_, .acquireLeadership _) => isTrue trivial

end NodeSetup

/-! ### What a node hands to its roles -/

/-- The constants of a proposer stay the same through any calls. -/
theorem Proposer.run_constants (P : Proposer) (calls : List ProposerCall) :
    (machine.run P calls).proposerUID = P.proposerUID ∧
      (machine.run P calls).quorumSize = P.quorumSize ∧
      (machine.run P calls).proposalID.uid = P.proposalID.uid := by
  induction calls generalizing P with
  | nil => exact ⟨rfl, rfl, rfl⟩
  | cons call calls ih =>
    obtain ⟨huid, hsize, hid⟩ := ih (machine.next P call)
    rw [Machine.run_cons, huid, hsize, hid]
    exact P.next_constants call

/-- The prepare requests of a proposer carry its UID. -/
theorem Proposer.uid_of_sendPrepare_mem {P : Proposer} {calls : List ProposerCall} {p : ProposalID}
    (h : sendPrepare p ∈ machine.trace P calls) : p.uid = P.proposalID.uid := by
  obtain ⟨pre, call, -, hsent⟩ := Machine.mem_trace_iff.mp h
  rw [of_sendPrepare_mem hsent, next_proposalID_uid]
  exact (P.run_constants pre).2.2

/-- A promise held after some calls was held before, or is received in one of them. -/
theorem Proposer.promisesReceived_run {P : Proposer} {calls : List ProposerCall} {u : Str}
    (h : u ∈ (machine.run P calls).promisesReceived) :
    u ∈ P.promisesReceived ∨ ∃ p r w, .receivePromise u p r w ∈ calls := by
  induction calls generalizing P with
  | nil => exact Or.inl h
  | cons call calls ih =>
    rcases ih h with hheld | ⟨p, r, w, hcall⟩
    · rcases promisesReceived_next_cases hheld with ⟨hbefore, -⟩ | ⟨p, r, w, rfl, -⟩
      · exact Or.inl hbefore
      · exact Or.inr ⟨p, r, w, List.mem_cons_self⟩
    · exact Or.inr ⟨p, r, w, List.mem_cons_of_mem _ hcall⟩

namespace PaxosNode

/-- A node hands a promise to its proposer only when it receives it. -/
theorem of_receivePromise_mem {N : PaxosNode} {call : NodeCall} {u : Str} {p r : ProposalID}
    {w : Str} (h : .receivePromise u p r w ∈ N.proposerCalls call) :
    ∃ now, call = .receivePromise now u p r w := by
  cases call with
  | receivePromise now u' p' r' w' =>
    simp only [proposerCalls, List.mem_singleton, ProposerCall.receivePromise.injEq] at h
    obtain ⟨rfl, rfl, rfl, rfl⟩ := h
    exact ⟨now, rfl⟩
  | setActive | setLeaderProposalID | prepare | pulse | receivePrepare =>
    simp [proposerCalls] at h
  | pollLiveness | acquireLeadership | receiveHeartbeat | receivePrepareNACK | receiveAcceptNACK =>
    simp only [proposerCalls] at h
    split_ifs at h <;> simp at h

/-- A node answers only as its acceptor does, to a prepare request that it receives. -/
theorem of_isAnswer_mem {N : PaxosNode} {call : NodeCall} {m : MessengerCall} (hm : m.isAnswer)
    (h : m ∈ machine.emits N call) :
    ∃ now u p, call = .receivePrepare now u p ∧ m ∈ (N.acceptor.receivePrepare now u p).2 := by
  rcases emits_cases h with hproposer | hacceptor | ⟨u, p, rfl⟩ | hnotice
  · obtain ⟨pre, c, -, hsent⟩ := Machine.mem_trace_iff.mp hproposer
    rcases Proposer.emits_cases hsent with ⟨p, rfl⟩ | ⟨p, v, rfl⟩ | rfl <;> cases hm
  · cases call with
    | receivePrepare now u p =>
      have hsent : m ∈ Acceptor.machine.emits N.acceptor (.receivePrepare now u p) := by
        simpa [acceptorCalls] using hacceptor
      exact ⟨now, u, p, rfl, hsent⟩
    | setActive active =>
      simp [acceptorCalls, Machine.emits, Acceptor.machine] at hacceptor
    | _ => simp [acceptorCalls] at hacceptor
  · cases hm
  · exact absurd (MessengerCall.isMessage_of_isAnswer hm) hnotice

/-- The requests of a node are those of its proposer. -/
theorem of_isRequest_mem {N : PaxosNode} {call : NodeCall} {m : MessengerCall} (hm : m.isRequest)
    (h : m ∈ machine.emits N call) :
    m ∈ Proposer.machine.trace N.proposer (N.proposerCalls call) := by
  rcases emits_cases h with hproposer | hacceptor | ⟨u, p, rfl⟩ | hnotice
  · exact hproposer
  · obtain ⟨pre, c, -, hsent⟩ := Machine.mem_trace_iff.mp hacceptor
    rcases (Acceptor.emits_cases hsent).2 with
      ⟨u, p, rfl⟩ | ⟨u, p, rfl⟩ | ⟨u, p, id, rfl⟩ | ⟨u, p, id, rfl⟩ <;> cases hm
  · cases hm
  · exact absurd (MessengerCall.isMessage_of_isRequest hm) hnotice

/-- A contending call tells the proposer of a refusal, if it is one, and may prepare. -/
theorem step_of_contends (N : PaxosNode) {call : NodeCall} (h : call.Contends) :
    ∃ acquiring,
      machine.step N call =
        ({ N with proposer := N.heard call, acquiringLeadership := acquiring }, []) ∨
      machine.step N call =
        { N with proposer := N.heard call, acquiringLeadership := acquiring }.prepare true := by
  by_cases hstarts : N.StartsBallot call
  · exact (step_of_startsBallot hstarts).imp fun _ => Or.inr
  · exact (step_of_not_startsBallot hstarts h).imp fun _ => Or.inl

/-- Only a leader sends heartbeats, with its own UID. -/
theorem of_sendHeartbeat_mem_pulse {N : PaxosNode} {now : UInt64} {u : Str} {p : ProposalID}
    (h : sendHeartbeat u p ∈ (N.pulse now).2) : u = N.proposer.proposerUID ∧ N.proposer.leader := by
  by_cases hleader : N.proposer.leader
  · rw [pulse_snd_of_leader hleader, List.mem_append, List.mem_singleton] at h
    rcases h with hchange | hbeat
    · simp at hchange
    · rw [sendHeartbeat.injEq] at hbeat
      exact ⟨hbeat.1, hleader⟩
  · simp [pulse_snd_of_not_leader hleader] at h

/-- A heartbeat is sent by a leader, in its own name. -/
theorem of_sendHeartbeat_mem {N : PaxosNode} {call : NodeCall} {u : Str} {p : ProposalID}
    (h : sendHeartbeat u p ∈ machine.emits N call) :
    u = N.proposer.proposerUID ∧ (machine.next N call).proposer.leader := by
  have hproposer : ∀ P c, sendHeartbeat u p ∉ Proposer.machine.emits P c := by
    intro P c hsent
    rcases Proposer.emits_cases hsent with ⟨p', heq⟩ | ⟨p', v, heq⟩ | heq <;> cases heq
  by_cases hcontends : call.Contends
  · rw [Machine.emits] at h
    obtain ⟨acquiring, hstep | hstep⟩ := N.step_of_contends hcontends
    · rw [hstep] at h
      cases h
    · rw [hstep] at h
      exact absurd h (hproposer _ (.prepare true))
  cases call with
  | pollLiveness | acquireLeadership | receivePrepareNACK => exact absurd trivial hcontends
  | setActive | setLeaderProposalID => cases h
  | prepare increment => exact absurd h (hproposer N.proposer (.prepare increment))
  | receivePrepare now u' p' =>
    have hsent : sendHeartbeat u p ∈
        Acceptor.machine.emits N.acceptor (.receivePrepare now u' p') :=
      h
    rcases (Acceptor.emits_cases hsent).2 with
      ⟨_, _, heq⟩ | ⟨_, _, heq⟩ | ⟨_, _, _, heq⟩ | ⟨_, _, _, heq⟩ <;> cases heq
  | receiveHeartbeat now uid id =>
    have hsent : sendHeartbeat u p ∈ (N.receiveHeartbeat now uid id).2 := h
    rw [receiveHeartbeat_snd] at hsent
    split_ifs at hsent <;> simp at hsent
  | receiveAcceptNACK u' p' id =>
    have hsent : sendHeartbeat u p ∈ (N.receiveAcceptNACK u' p' id).2 := h
    rw [receiveAcceptNACK_eq] at hsent
    split_ifs at hsent <;> simp at hsent
  | pulse now =>
    obtain ⟨hu, hleader⟩ := of_sendHeartbeat_mem_pulse h
    have hsame : (machine.next N (.pulse now)).proposer = N.proposer := N.pulse_proposer now
    rw [hsame]
    exact ⟨hu, hleader⟩
  | receivePromise now u' p' r w =>
    have hsent : sendHeartbeat u p ∈ (N.receivePromise now u' p' r w).2 := h
    have huid := (N.proposer.next_constants (.receivePromise u' p' r w)).1
    have hnext := next_proposer N (.receivePromise now u' p' r w)
    rw [N.receivePromise_eq now u' p' r w Prod.mk.eta.symm] at hsent
    split_ifs at hsent
    · simp only [List.mem_append, List.mem_singleton, reduceCtorEq, or_false] at hsent
      rcases hsent with hsent | hbeat
      · exact absurd hsent (hproposer N.proposer (.receivePromise u' p' r w))
      · obtain ⟨hu, hleader⟩ := of_sendHeartbeat_mem_pulse hbeat
        rw [hnext]
        exact ⟨hu.trans huid, hleader⟩
    · exact absurd hsent (hproposer N.proposer (.receivePromise u' p' r w))

/-- A node comes to acknowledge a leader by a heartbeat, or by leading itself. -/
theorem leaderUID_next_cases (N : PaxosNode) (call : NodeCall) :
    (machine.next N call).leaderUID = N.leaderUID ∨ (machine.next N call).leaderUID = [] ∨
      (∃ now id, call = .receiveHeartbeat now (machine.next N call).leaderUID id) ∨
      (machine.next N call).proposer.leader ∧
        (machine.next N call).leaderUID = N.proposer.proposerUID := by
  have hpulse : ∀ (N : PaxosNode) now, (N.pulse now).1.leaderUID = N.leaderUID ∨
      N.proposer.leader ∧ (N.pulse now).1.leaderUID = N.proposer.proposerUID := by
    intro N now
    by_cases hleader : N.proposer.leader
    · rw [pulse_of_leader hleader]
      by_cases hadopts : N.Adopts N.proposer.proposalID
      · exact Or.inr ⟨hleader, (N.receiveHeartbeat_of_adopts now _ _ hadopts).1⟩
      · exact Or.inl (N.receiveHeartbeat_of_not_adopts now _ _ hadopts).1
    · rw [pulse_of_not_leader hleader]
      exact Or.inl rfl
  by_cases hcontends : call.Contends
  · rw [Machine.next]
    obtain ⟨acquiring, hstep | hstep⟩ := N.step_of_contends hcontends <;> rw [hstep]
    · exact Or.inl rfl
    · exact Or.inl rfl
  cases call with
  | pollLiveness | acquireLeadership | receivePrepareNACK => exact absurd trivial hcontends
  | setActive | setLeaderProposalID | prepare | receivePrepare => exact Or.inl rfl
  | receiveHeartbeat now uid id =>
    simp only [Machine.next, machine]
    by_cases hadopts : N.Adopts id
    · rw [(N.receiveHeartbeat_of_adopts now uid id hadopts).1]
      exact Or.inr (Or.inr (Or.inl ⟨now, id, rfl⟩))
    · exact Or.inl (N.receiveHeartbeat_of_not_adopts now uid id hadopts).1
  | receiveAcceptNACK u p id =>
    simp only [Machine.next, machine, receiveAcceptNACK_eq]
    split_ifs
    · exact Or.inr (Or.inl rfl)
    · exact Or.inl rfl
  | pulse now =>
    have hsame : (machine.next N (.pulse now)).proposer = N.proposer := N.pulse_proposer now
    rw [hsame]
    exact (hpulse N now).imp_right fun h => Or.inr (Or.inr h)
  | receivePromise now u p r w =>
    have huid := (N.proposer.next_constants (.receivePromise u p r w)).1
    rw [next_proposer N (.receivePromise now u p r w)]
    simp only [Machine.next, machine]
    rw [N.receivePromise_fst now u p r w rfl]
    split_ifs with hself
    · have hself' : ((N.acknowledgeSelf (N.proposer.receivePromise u p r w).1).pulse
          now).1.leaderUID = N.proposer.proposerUID := by
        rcases hpulse (N.acknowledgeSelf (N.proposer.receivePromise u p r w).1) now with
          hsame | ⟨-, hsame⟩
        · exact hsame.trans huid
        · exact hsame.trans huid
      exact Or.inr (Or.inr (Or.inr ⟨hself.2, hself'⟩))
    · exact Or.inl rfl

end PaxosNode

end CppPaxos
