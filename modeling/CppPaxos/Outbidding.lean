import CppPaxos.NodeSteps
import CppPaxos.ProposerNumbers

/-!
# Ballots above the leaders acknowledged

A node adopts the ID of a leader from a heartbeat, but its proposer observes that ID only if
the node was the leader itself. A follower may adopt an ID far above its own, and its next
ballot is then below it. It is above as long as each ID that is only adopted is below the
next ID of the proposer.
-/

namespace CppPaxos

open Machines MessengerCall

namespace Proposer

/-- The next ballot of the proposer is above `id`. -/
def Outbids (P : Proposer) (id : ProposalID) : Prop :=
  id.number.toNat ≤ P.proposalID.number.toNat ∨
    id.number.toNat = P.proposalID.number.toNat + 1 ∧ id.uid < P.proposalID.uid

instance (P : Proposer) (id : ProposalID) : Decidable (P.Outbids id) :=
  inferInstanceAs (Decidable (_ ∨ _))

/-- If the number does not wrap around, this compares `id` to the next ID. -/
theorem outbids_iff {P : Proposer} {id : ProposalID}
    (hwrap : P.proposalID.number ≠ UInt32.ofNat (UInt32.size - 1)) :
    P.Outbids id ↔ id < P.proposalID.incrementNumber := by
  have hnext : P.proposalID.incrementNumber.number.toNat = P.proposalID.number.toNat + 1 := by
    have hlt := P.proposalID.number.toNat_lt_size
    have hne : P.proposalID.number.toNat ≠ UInt32.size - 1 := fun hmax =>
      hwrap (UInt32.toNat_inj.mp hmax)
    simp only [ProposalID.incrementNumber, UInt32.toNat_add, UInt32.toNat_one]
    simp only [UInt32.size] at hlt hne
    omega
  rw [ProposalID.lt_iff, ← UInt32.toNat_inj, hnext, Outbids, Nat.lt_succ_iff]
  rfl

/-- A number that is not below the one of the ID outbids it. -/
theorem Outbids.of_number_le {P : Proposer} {id : ProposalID}
    (h : id.number.toNat ≤ P.proposalID.number.toNat) : P.Outbids id := Or.inl h

/-- A proposer that has gone on still outbids what it did. -/
theorem Outbids.mono {P P' : Proposer} {id : ProposalID} (h : P.Outbids id)
    (hle : P.proposalID ≤ P'.proposalID) (huid : P'.proposalID.uid = P.proposalID.uid) :
    P'.Outbids id := by
  have hnumber := ProposalID.number_le_of_le hle
  rw [Outbids, huid]
  rcases h with hnot | ⟨hnext, hless⟩
  · exact Or.inl (hnot.trans hnumber)
  · by_cases hsame : P'.proposalID.number.toNat = P.proposalID.number.toNat
    · exact Or.inr ⟨by rw [hnext, hsame], hless⟩
    · exact Or.inl (by omega)

/-- A run without wrap-around goes on. -/
theorem run_goes_on {P : Proposer} {calls : List ProposerCall}
    (hwrap : machine.Admits NoWrap P calls) :
    P.proposalID ≤ (machine.run P calls).proposalID ∧
      (machine.run P calls).proposalID.uid = P.proposalID.uid := by
  refine hwrap.invariant
    (I := fun Q => P.proposalID ≤ Q.proposalID ∧ Q.proposalID.uid = P.proposalID.uid)
    ⟨le_rfl, rfl⟩ ?_
  intro Q call ⟨hle, huid⟩ hcall
  exact ⟨hle.trans (le_next_proposalID hcall), (Q.next_proposalID_uid call).trans huid⟩

end Proposer

namespace PaxosNode

/-- No call of the node makes the number of its proposer wrap around. -/
def NoWrap (N : PaxosNode) (call : NodeCall) : Prop :=
  Proposer.machine.Admits Proposer.NoWrap N.proposer (N.proposerCalls call)

instance (N : PaxosNode) (call : NodeCall) : Decidable (N.NoWrap call) :=
  inferInstanceAs (Decidable (Proposer.machine.Admits Proposer.NoWrap N.proposer _))

/-- Each new ballot is above every ID that the node acknowledged before. -/
def OutbidsLeaders (N : PaxosNode) (calls : List NodeCall) : Prop :=
  ∀ pre call, pre ++ [call] <+: calls → (machine.run N pre).StartsBallot call →
    ∀ p, sendPrepare p ∈ machine.emits (machine.run N pre) call →
      ∀ earlier, earlier <+: pre → (machine.run N earlier).leaderProposalID < p

/-- An adopted heartbeat demotes a leading node, or the next ballot of the proposer is above its
ID. The same goes for an ID that is set from outside. -/
def AdoptsOutbid (N : PaxosNode) : NodeCall → Prop
  | .receiveHeartbeat _ localLeaderUID localLeaderProposalID =>
    N.Adopts localLeaderProposalID →
      (N.proposer.leader ∧ localLeaderUID ≠ N.proposer.proposerUID) ∨
        N.proposer.Outbids localLeaderProposalID
  | .setLeaderProposalID newLeaderUID => N.proposer.Outbids newLeaderUID
  | _ => True

instance (N : PaxosNode) : DecidablePred N.AdoptsOutbid
  | .receiveHeartbeat .. => inferInstanceAs (Decidable (_ → _))
  | .setLeaderProposalID _ => inferInstanceAs (Decidable (N.proposer.Outbids _))
  | .setActive _ | .prepare _ | .pollLiveness .. | .pulse _ | .acquireLeadership _
  | .receivePrepare .. | .receivePromise .. | .receivePrepareNACK .. | .receiveAcceptNACK .. =>
    isTrue trivial

/-- The proposer of a node goes on at each call. -/
theorem outbids_next {N : PaxosNode} {call : NodeCall} (hwrap : N.NoWrap call) {id : ProposalID}
    (h : N.proposer.Outbids id) : (machine.next N call).proposer.Outbids id := by
  obtain ⟨hle, huid⟩ := Proposer.run_goes_on hwrap
  rw [next_proposer]
  exact h.mono hle huid

/-- A pulse acknowledges the node itself, or changes nothing. -/
theorem pulse_leaderProposalID (N : PaxosNode) (now : UInt64) :
    (N.pulse now).1.leaderProposalID = N.leaderProposalID ∨
      (N.pulse now).1.leaderProposalID = N.proposer.proposalID := by
  by_cases hleader : N.proposer.leader
  · rw [pulse_of_leader hleader]
    by_cases hadopts : N.Adopts N.proposer.proposalID
    · exact Or.inr (N.receiveHeartbeat_of_adopts now _ _ hadopts).2.1
    · exact Or.inl (N.receiveHeartbeat_of_not_adopts now _ _ hadopts).2.1
  · rw [pulse_of_not_leader hleader]
    exact Or.inl rfl

/-- Campaigns leave the ID of the leader. -/
theorem Campaigns.leaderProposalID {N : PaxosNode} {after : PaxosNode × List MessengerCall}
    (h : N.Campaigns after) : after.1.leaderProposalID = N.leaderProposalID := by
  obtain ⟨acquiring, rfl | rfl⟩ := h <;> rfl

/-- A node that receives a promise still acknowledges the ID it did, or else its own. -/
theorem receivePromise_leaderProposalID (N : PaxosNode) (now : UInt64) (u : Str)
    (p r : ProposalID) (w : Str) :
    (N.receivePromise now u p r w).1.leaderProposalID = N.leaderProposalID ∨
      (N.receivePromise now u p r w).1.leaderProposalID =
        (N.receivePromise now u p r w).1.proposer.proposalID := by
  rw [N.receivePromise_fst now u p r w rfl]
  by_cases hself : N.leaderUID = [] ∧ (N.proposer.receivePromise u p r w).1.leader
  · right
    rw [if_pos hself, pulse_proposer]
    rcases (N.acknowledgeSelf _).pulse_leaderProposalID now with hsame | hsame
    · rw [hsame]
      rfl
    · rw [hsame]
  · left
    rw [if_neg hself]

/-- After each call the proposer outbids the ID that the node acknowledges. -/
theorem outbids_leader_next {N : PaxosNode} {call : NodeCall} (hwrap : N.NoWrap call)
    (hcall : N.AdoptsOutbid call) (h : N.proposer.Outbids N.leaderProposalID) :
    (machine.next N call).proposer.Outbids (machine.next N call).leaderProposalID := by
  have hkept : (machine.next N call).leaderProposalID = N.leaderProposalID →
      (machine.next N call).proposer.Outbids (machine.next N call).leaderProposalID := by
    intro hsame
    rw [hsame]
    exact outbids_next hwrap h
  have hown : (machine.next N call).leaderProposalID =
        (machine.next N call).proposer.proposalID →
      (machine.next N call).proposer.Outbids (machine.next N call).leaderProposalID := by
    intro hsame
    rw [hsame]
    exact Proposer.Outbids.of_number_le le_rfl
  cases call with
  | setActive | receivePrepare | prepare => exact hkept rfl
  | setLeaderProposalID => exact hcall
  | pollLiveness aliveNow expireNow acquireNow =>
    exact hkept (N.pollLiveness_campaigns aliveNow expireNow acquireNow).leaderProposalID
  | acquireLeadership now => exact hkept (N.acquireLeadership_campaigns now).leaderProposalID
  | receivePrepareNACK u p id =>
    refine hkept ?_
    simp only [Machine.next, machine, receivePrepareNACK_eq]
    split_ifs <;> rfl
  | pulse now =>
    have hproposer : (machine.next N (.pulse now)).proposer = N.proposer := N.pulse_proposer now
    rcases N.pulse_leaderProposalID now with hsame | hself
    · exact hkept hsame
    · exact hown (by rw [hproposer]; exact hself)
  | receiveHeartbeat now uid id =>
    by_cases hadopts : N.Adopts id
    · obtain ⟨-, hid, hproposer⟩ := N.receiveHeartbeat_of_adopts now uid id hadopts
      change (N.receiveHeartbeat now uid id).1.proposer.Outbids
        (N.receiveHeartbeat now uid id).1.leaderProposalID
      rw [hid, hproposer]
      by_cases hdemotes : N.proposer.leader ∧ uid ≠ N.proposer.proposerUID
      · rw [if_pos hdemotes]
        exact Proposer.Outbids.of_number_le (Proposer.number_le_observeProposal _ uid id)
      · rw [if_neg hdemotes]
        exact (hcall hadopts).resolve_left hdemotes
    · exact hkept (N.receiveHeartbeat_of_not_adopts now uid id hadopts).2.1
  | receivePromise now u p r w =>
    rcases N.receivePromise_leaderProposalID now u p r w with hsame | hself
    · exact hkept hsame
    · exact hown hself
  | receiveAcceptNACK u p id =>
    by_cases hdown : N.StepsDown u p id
    · have hnone : (machine.next N (.receiveAcceptNACK u p id)).leaderProposalID = .empty := by
        simp only [Machine.next, machine, receiveAcceptNACK_eq, if_pos hdown]
      rw [hnone]
      exact Proposer.Outbids.of_number_le (Nat.zero_le _)
    · refine hkept ?_
      simp only [Machine.next, machine, receiveAcceptNACK_eq, if_neg hdown]

/-- The last call on the proposer begins the ballot, after the proposer has heard of a refusal. -/
theorem proposerCalls_of_startsBallot {N : PaxosNode} {call : NodeCall}
    (h : N.StartsBallot call) : ∃ before, N.proposerCalls call = before ++ [.prepare true] ∧
      Proposer.machine.run N.proposer before = N.heard call := by
  cases call with
  | prepare increment =>
    have hincrement : increment = true := h
    exact ⟨[], by rw [hincrement]; rfl, rfl⟩
  | pollLiveness | acquireLeadership => exact ⟨[], if_pos h, rfl⟩
  | receivePrepareNACK u p id =>
    refine ⟨[.receivePrepareNACK u p id], ?_, rfl⟩
    rw [proposerCalls, if_pos h]
    rfl
  | _ => exact absurd h not_false

/-- A new ballot is above what the proposer outbids before it. -/
theorem lt_of_startsBallot {N : PaxosNode} {call : NodeCall} (hstarts : N.StartsBallot call)
    (hwrap : N.NoWrap call) {p id : ProposalID} (hsent : sendPrepare p ∈ machine.emits N call)
    (h : N.proposer.Outbids id) : id < p := by
  obtain ⟨acquiring, hstep⟩ := step_of_startsBallot hstarts
  have hp : p = (N.heard call).proposalID.incrementNumber := by
    rw [Machine.emits, hstep] at hsent
    simpa [prepare, Proposer.prepare] using hsent
  obtain ⟨before, hcalls, hheard⟩ := proposerCalls_of_startsBallot hstarts
  rw [NoWrap, hcalls] at hwrap
  obtain ⟨hbefore, hlast⟩ := Proposer.machine.admits_concat.mp hwrap
  obtain ⟨hle, huid⟩ := Proposer.run_goes_on hbefore
  rw [hheard] at hle huid hlast
  rw [hp]
  exact (Proposer.outbids_iff (hlast rfl)).mp (h.mono hle huid)

/-- **A node outbids every leader it has acknowledged**, in every run without wrap-around in which
each adopted heartbeat demotes a leading node or has an ID that the next ballot is above. -/
theorem run_outbidsLeaders {nodeUID : Str} {quorumSize heartbeatTimeout livenessWindow : Int}
    {leaderUID : Str} {acceptorNow now : UInt64} {unset : Unset} {calls : List NodeCall}
    {N : PaxosNode}
    (hN : new nodeUID quorumSize heartbeatTimeout livenessWindow leaderUID acceptorNow now
      unset = N)
    (hwrap : machine.Admits NoWrap N calls) (hcalls : machine.Admits AdoptsOutbid N calls) :
    N.OutbidsLeaders calls := by
  have hstart : N.leaderProposalID = .empty := by rw [← hN]; rfl
  have houtbids : ∀ pre, pre <+: calls → ∀ earlier, earlier <+: pre →
      (machine.run N pre).proposer.Outbids (machine.run N earlier).leaderProposalID := by
    intro pre hpre
    have hboth := (hwrap.of_prefix hpre).and (hcalls.of_prefix hpre)
    refine hboth.induction (I := fun acts M => ∀ earlier, earlier <+: acts →
      M.proposer.Outbids (machine.run N earlier).leaderProposalID) ?_ ?_
    · intro earlier hearlier
      rw [List.prefix_nil.mp hearlier, Machine.run_nil, hstart]
      exact Proposer.Outbids.of_number_le (Nat.zero_le _)
    · intro acts call hacts ⟨hnowrap, hcall⟩ earlier hearlier
      rcases List.prefix_concat_iff.mp hearlier with rfl | hbefore
      · rw [Machine.run_concat]
        exact outbids_leader_next hnowrap hcall (hacts acts List.prefix_rfl)
      · exact outbids_next hnowrap (hacts earlier hbefore)
  intro pre call hpre hstarts p hsent earlier hearlier
  have hprefix : pre <+: calls := (List.prefix_append _ _).trans hpre
  exact lt_of_startsBallot hstarts (hwrap.allowed_of_prefix hpre) hsent
    (houtbids pre hprefix earlier hearlier)

/-- A node at (1, A) acknowledges a leader at (2, 1), which its next ballot is above, and then
begins that ballot. -/
theorem run_outbidsLeaders_next_number :
    nodeA.OutbidsLeaders [.prepare true, .receiveHeartbeat 0 [49] ⟨2, [49]⟩, .prepare true] :=
  run_outbidsLeaders rfl (by decide) (by decide)

/-- A node that has not begun any ballot acknowledges a leader at (5, B). Its next ballot is at
(1, A). -/
theorem ballot_below_acknowledged_leader :
    let calls : List NodeCall := [.receiveHeartbeat 0 [66] ⟨5, [66]⟩, .prepare true]
    machine.Admits NoWrap nodeA calls ∧ ¬nodeA.OutbidsLeaders calls := by
  refine ⟨by decide, fun h => ?_⟩
  have hlt := h [.receiveHeartbeat 0 [66] ⟨5, [66]⟩] (.prepare true) List.prefix_rfl rfl
    ⟨1, [65]⟩ (by decide) [.receiveHeartbeat 0 [66] ⟨5, [66]⟩] List.prefix_rfl
  exact absurd hlt (by decide)

end PaxosNode

end CppPaxos
