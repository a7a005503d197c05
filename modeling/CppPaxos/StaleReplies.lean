import CppPaxos.NodeLeadership

/-!
# Replies to superseded requests

Under delay and duplication a node keeps receiving answers to requests that it has
superseded. The proposer filters them, and the node acts after that. The theorem says
for every state of the node whether such an answer has an effect.
-/

namespace CppPaxos

open Machines MessengerCall

namespace PaxosNode

/-- The call delivers an answer to an earlier request, and a refusal reports no larger ID. -/
def StaleReply (N : PaxosNode) : NodeCall → Prop
  | .receivePromise _ _ proposalID _ _ => proposalID < N.getMyProposalID
  | .receivePrepareNACK _ proposalID promisedID | .receiveAcceptNACK _ proposalID promisedID =>
    proposalID < N.getMyProposalID ∧ promisedID ≤ N.getMyProposalID
  | _ => False

instance (N : PaxosNode) : DecidablePred N.StaleReply
  | .receivePromise _ _ proposalID _ _ => inferInstanceAs (Decidable (proposalID < _))
  | .receivePrepareNACK .. | .receiveAcceptNACK .. => inferInstanceAs (Decidable (_ ∧ _))
  | .setActive _ | .setLeaderProposalID _ | .prepare _ | .pollLiveness .. | .receiveHeartbeat ..
  | .pulse _ | .acquireLeadership _ | .receivePrepare .. => isFalse not_false

/-- The call leaves the ballot and the leadership of the node as they are and sends nothing. -/
structure Harmless (N : PaxosNode) (call : NodeCall) : Prop where
  proposalID : (machine.next N call).proposer.proposalID = N.proposer.proposalID
  promisesReceived : (machine.next N call).proposer.promisesReceived = N.proposer.promisesReceived
  leader : (machine.next N call).proposer.leader = N.proposer.leader
  proposedValue : (machine.next N call).proposer.proposedValue = N.proposer.proposedValue
  leaderUID : (machine.next N call).leaderUID = N.leaderUID
  leaderProposalID : (machine.next N call).leaderProposalID = N.leaderProposalID
  silent : ∀ m ∈ machine.emits N call, ¬m.isMessage

/-- What the node does after the proposer has filtered the answer: it acknowledges itself, or
prepares again, or steps down, without a look at the request that was answered. -/
def ActsAnyway (N : PaxosNode) : NodeCall → Prop
  | .receivePromise .. => N.leaderUID = [] ∧ N.proposer.leader
  | .receivePrepareNACK .. => N.acquiringLeadership
  | .receiveAcceptNACK .. => N.proposer.leader ∧ N.proposer.quorumSize ≤ N.acceptNACKs.card
  | _ => False

instance (N : PaxosNode) : DecidablePred N.ActsAnyway
  | .receivePromise .. | .receiveAcceptNACK .. => inferInstanceAs (Decidable (_ ∧ _))
  | .receivePrepareNACK .. => inferInstanceAs (Decidable (N.acquiringLeadership = true))
  | .setActive _ | .setLeaderProposalID _ | .prepare _ | .pollLiveness .. | .receiveHeartbeat ..
  | .pulse _ | .acquireLeadership _ | .receivePrepare .. => isFalse not_false

/-- A call without effect is harmless. -/
theorem harmless_of_step_eq {N : PaxosNode} {call : NodeCall} (h : machine.step N call = (N, [])) :
    N.Harmless call := by
  have hnext : machine.next N call = N := by rw [Machine.next, h]
  have hemits : machine.emits N call = [] := by rw [Machine.emits, h]
  exact ⟨by rw [hnext], by rw [hnext], by rw [hnext], by rw [hnext], by rw [hnext], by rw [hnext],
    by simp [hemits]⟩

/-- An ID that is not larger is observed without effect. -/
theorem observeProposal_of_le {P : Proposer} {id : ProposalID} (h : id ≤ P.proposalID)
    (fromUID : Str) : P.observeProposal fromUID id = P :=
  P.observeProposal_of_not_raises fromUID id fun hraises => absurd hraises.1 (not_lt.mpr h)

/-- The proposer ignores a promise for a smaller ID. -/
theorem receivePromise_of_lt {P : Proposer} {p : ProposalID} (h : p < P.proposalID) (u : Str)
    (r : ProposalID) (w : Str) : P.receivePromise u p r w = (P, []) := by
  have hobserve := observeProposal_of_le h.le u
  have hignored : ¬P.Counts u p := by
    intro hcounts
    have hid := hcounts.1
    rw [hobserve] at hid
    exact h.ne hid
  rcases P.receivePromise_cases u p r w with ⟨-, heq⟩ | ⟨hcounts, -⟩ | ⟨hcounts, -⟩
  · rw [heq, hobserve]
  · exact absurd hcounts hignored
  · exact absurd hcounts hignored

/-- A pulse of a leader sends a heartbeat with its own ID. -/
theorem sendHeartbeat_mem_pulse {N : PaxosNode} (h : N.proposer.leader) (now : UInt64) :
    sendHeartbeat N.proposer.proposerUID N.proposer.proposalID ∈ (N.pulse now).2 := by
  have hproposer := N.pulse_proposer now
  rw [pulse_of_leader h] at hproposer
  simp only [pulse, h, if_true, hproposer]
  exact List.mem_append_right _ (List.mem_singleton_self _)

/-- A stale promise does harm exactly if a leader acknowledges itself at it. -/
theorem stale_promise_harmless_iff {N : PaxosNode} {now : UInt64} {u : Str} {p r : ProposalID}
    {w : Str} (h : p < N.proposer.proposalID) :
    N.Harmless (.receivePromise now u p r w) ↔ ¬(N.leaderUID = [] ∧ N.proposer.leader) := by
  have hproposer := receivePromise_of_lt h u r w
  constructor
  · intro hharmless hacts
    have hsent : sendHeartbeat N.proposer.proposerUID N.proposer.proposalID ∈
        machine.emits N (.receivePromise now u p r w) := by
      have hbeat := sendHeartbeat_mem_pulse (N := { N with
        leaderUID := N.proposer.proposerUID
        leaderProposalID := N.proposer.proposalID
        acquiringLeadership := false }) hacts.2 now
      simp only [Machine.emits, machine, receivePromise, hproposer, List.isEmpty_iff]
      rw [if_pos hacts]
      exact List.mem_append_left _ (List.mem_append_right _ hbeat)
    exact absurd rfl (hharmless.silent _ hsent)
  · intro hacts
    apply harmless_of_step_eq
    simp only [machine, receivePromise, hproposer, List.isEmpty_iff]
    rw [if_neg hacts]

/-- A stale refusal of a prepare request does harm exactly if it begins a new ballot. -/
theorem stale_prepareNACK_harmless_iff {N : PaxosNode} {u : Str} {p id : ProposalID}
    (hid : id ≤ N.proposer.proposalID) :
    N.Harmless (.receivePrepareNACK u p id) ↔ ¬N.acquiringLeadership := by
  have hobserve := observeProposal_of_le hid u
  constructor
  · intro hharmless hacquiring
    have hincremented : N.proposer.proposalID.incrementNumber = N.proposer.proposalID := by
      have hsame := hharmless.proposalID
      simp only [Machine.next, machine, receivePrepareNACK_eq, hobserve, hacquiring,
        if_true] at hsame
      exact hsame
    have hnumber : N.proposer.proposalID.number + 1 = N.proposer.proposalID.number :=
      congrArg ProposalID.number hincremented
    simp at hnumber
  · intro hacquiring
    apply harmless_of_step_eq
    simp only [machine, receivePrepareNACK_eq, hobserve]
    rw [if_neg hacquiring]

/-- A stale refusal of an accept request does harm exactly if the leader steps down at it. -/
theorem stale_acceptNACK_harmless_iff {N : PaxosNode} {u : Str} {p id : ProposalID}
    (hp : p < N.proposer.proposalID) (hid : id ≤ N.proposer.proposalID) :
    N.Harmless (.receiveAcceptNACK u p id) ↔
      ¬(N.proposer.leader ∧ N.proposer.quorumSize ≤ N.acceptNACKs.card) := by
  have hobserve := observeProposal_of_le hid u
  have hother : ¬p = N.proposer.proposalID := hp.ne
  constructor
  · intro hharmless hacts
    have hdemoted : (machine.next N (.receiveAcceptNACK u p id)).proposer.leader = false := by
      simp [Machine.next, machine, receiveAcceptNACK, Proposer.receiveAcceptNACK, hobserve, hother,
        hacts, Proposer.setLeader]
    rw [hharmless.leader, hacts.1] at hdemoted
    cases hdemoted
  · intro hacts
    apply harmless_of_step_eq
    simp only [machine, receiveAcceptNACK, Proposer.receiveAcceptNACK, hobserve, hother, if_false,
      ge_iff_le]
    rw [if_neg hacts]

/-- **Stale replies.** In every state of a node, a stale reply is harmless exactly if the node does
not act on replies of its kind whatever they answer. -/
theorem harmless_iff {N : PaxosNode} {call : NodeCall} (h : N.StaleReply call) :
    N.Harmless call ↔ ¬N.ActsAnyway call := by
  cases call with
  | receivePromise now u p r w => exact stale_promise_harmless_iff h
  | receivePrepareNACK u p id => exact stale_prepareNACK_harmless_iff h.2
  | receiveAcceptNACK u p id => exact stale_acceptNACK_harmless_iff h.1 h.2
  | _ => exact absurd h not_false

/-- The leader ignores a refusal of an earlier ID. -/
theorem harmless_iff_electedNode :
    (machine.run nodeA electedNode).Harmless (.receiveAcceptNACK [51] ⟨0, [65]⟩ ⟨0, [66]⟩) :=
  (harmless_iff (by decide)).mpr (by decide)

/-- The node asks for the leadership with (1, A) and is refused by two acceptors that have promised
(3, B). The first refusal makes it ask again with (4, A), and the second, which answers (1, A)
like the first, makes it give that up for (5, A). -/
theorem stale_prepareNACK_prepares_again :
    let N := machine.run nodeA
      [.acquireLeadership 200000, .receivePrepareNACK [49] ⟨1, [65]⟩ ⟨3, [66]⟩]
    let call := NodeCall.receivePrepareNACK [50] ⟨1, [65]⟩ ⟨3, [66]⟩
    N.StaleReply call ∧ ¬N.Harmless call := by
  refine ⟨by decide, fun h => ?_⟩
  have hid := h.proposalID
  exact absurd hid (by decide)

end PaxosNode

end CppPaxos
