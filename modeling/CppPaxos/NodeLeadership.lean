import CppPaxos.PaxosNode
import CppPaxos.ProposerSteps

/-!
# A leader and the leader it acknowledges

A node records leadership twice: in the leader flag of its proposer, and as the leader
that it acknowledges. After a pulse the two agree as long as the acknowledged ID is not
above the node's own. The functions keep it so except in two branches, which this
module names.
-/

namespace CppPaxos

open Machines MessengerCall

/-- The calls of an election: a heartbeat names a leader by a valid ID of that leader, and the
acknowledged ID is not set from outside. -/
def NodeCall.Electoral : NodeCall → Prop
  | .receiveHeartbeat _ localLeaderUID localLeaderProposalID =>
    localLeaderProposalID.isValid ∧ localLeaderProposalID.uid = localLeaderUID
  | .setLeaderProposalID _ => False
  | _ => True

instance : DecidablePred NodeCall.Electoral
  | .receiveHeartbeat .. => inferInstanceAs (Decidable (_ ∧ _))
  | .setLeaderProposalID _ => isFalse not_false
  | .setActive _ | .prepare _ | .pollLiveness .. | .pulse _ | .acquireLeadership _
  | .receivePrepare .. | .receivePromise .. | .receivePrepareNACK .. | .receiveAcceptNACK .. =>
    isTrue trivial

namespace PaxosNode

/-- A pulse in this state leaves a node that is no leader, or that acknowledges itself with its
own proposal ID. -/
def PulseConfirms (N : PaxosNode) (now : UInt64) : Prop :=
  ¬(N.pulse now).1.isLeader ∨
    ((N.pulse now).1.leaderUID = N.nodeUID ∧
      (N.pulse now).1.leaderProposalID = (N.pulse now).1.getMyProposalID)

/-- The node's UIDs agree, and a valid acknowledged ID belongs to the acknowledged leader. -/
structure Wellnamed (N : PaxosNode) : Prop where
  proposer : N.proposer.proposerUID = N.nodeUID
  proposalID : N.proposer.proposalID.uid = N.nodeUID
  leader : N.leaderProposalID.isValid → N.leaderProposalID.uid = N.leaderUID

/-- A leader acknowledges no ID above its own. -/
def Unrivalled (N : PaxosNode) : Prop :=
  N.proposer.leader → N.leaderProposalID.isValid → N.leaderProposalID ≤ N.proposer.proposalID

/-- The two branches in which a leader may come to acknowledge an ID above its own are not taken
so: a promise that makes a leader, for a node that acknowledges a leader, is for an ID not below
the acknowledged one; and a heartbeat that names a leading node itself is not above its ID. -/
def KeepsUnrivalled (N : PaxosNode) : NodeCall → Prop
  | .receivePromise _ fromUID proposalID _ _ =>
    N.leaderUID ≠ [] → N.proposer.Counts fromUID proposalID →
      N.proposer.quorumSize ≤ (insert fromUID N.proposer.promisesReceived).card →
        N.leaderProposalID.isValid → N.leaderProposalID ≤ proposalID
  | .receiveHeartbeat _ localLeaderUID localLeaderProposalID =>
    N.proposer.leader → localLeaderUID = N.nodeUID → localLeaderProposalID ≤ N.proposer.proposalID
  | _ => True

instance (N : PaxosNode) : DecidablePred N.KeepsUnrivalled
  | .receivePromise .. => inferInstanceAs (Decidable (_ → _ → _ → _ → _))
  | .receiveHeartbeat .. => inferInstanceAs (Decidable (_ → _ → _))
  | .setActive _ | .setLeaderProposalID _ | .prepare _ | .pollLiveness .. | .pulse _
  | .acquireLeadership _ | .receivePrepare .. | .receivePrepareNACK .. | .receiveAcceptNACK .. =>
    isTrue trivial

section Heartbeat

variable (N : PaxosNode) (now : UInt64) (uid : Str) (id : ProposalID)

/-- The heartbeat is adopted: there is no valid acknowledged ID, or it is smaller. -/
def Adopts (N : PaxosNode) (id : ProposalID) : Prop :=
  ¬N.leaderProposalID.isValid ∨ N.leaderProposalID < id

instance (N : PaxosNode) (id : ProposalID) : Decidable (N.Adopts id) :=
  inferInstanceAs (Decidable (_ ∨ _))

/-- Everything that an adopted heartbeat does. -/
theorem receiveHeartbeat_eq_of_adopts (h : N.Adopts id) :
    N.receiveHeartbeat now uid id =
      ({ N with
          proposer :=
            if N.proposer.leader ∧ uid ≠ N.proposer.proposerUID then
              (N.proposer.setLeader false).observeProposal uid id
            else N.proposer
          leaderUID := uid
          leaderProposalID := id
          lastHeartbeatTimestamp := if id.isValid then now else N.lastHeartbeatTimestamp
          acquiringLeadership := false },
        if N.proposer.leader ∧ uid ≠ N.proposer.proposerUID then
          [onLeadershipLost, onLeadershipChange N.leaderUID uid]
        else [onLeadershipChange N.leaderUID uid]) := by
  have hguard : ¬N.leaderProposalID.isValid ∨ id > N.leaderProposalID := h
  unfold receiveHeartbeat adoptLeader
  simp only [if_pos hguard]
  by_cases hdemotes : N.proposer.leader ∧ uid ≠ N.proposer.proposerUID
  · simp only [if_pos hdemotes, and_true]
    split_ifs <;> rfl
  · simp only [if_neg hdemotes, and_true]
    split_ifs <;> rfl

/-- Everything that a heartbeat does that is not adopted. -/
theorem receiveHeartbeat_eq_of_not_adopts (h : ¬N.Adopts id) :
    N.receiveHeartbeat now uid id =
      ({ N with
          lastHeartbeatTimestamp :=
            if N.leaderProposalID = id then now else N.lastHeartbeatTimestamp }, []) := by
  have hguard : ¬(¬N.leaderProposalID.isValid ∨ id > N.leaderProposalID) := h
  have hvalid : N.leaderProposalID.isValid := by
    by_contra hinvalid
    exact hguard (Or.inl hinvalid)
  unfold receiveHeartbeat
  simp only [if_neg hguard]
  by_cases hsame : N.leaderProposalID = id
  · rw [if_pos ⟨hvalid, hsame⟩, if_pos hsame]
  · rw [if_neg fun hboth => hsame hboth.2, if_neg hsame]

/-- A heartbeat leaves the UID of the node. -/
theorem receiveHeartbeat_nodeUID : (N.receiveHeartbeat now uid id).1.nodeUID = N.nodeUID := by
  by_cases hadopts : N.Adopts id
  · rw [N.receiveHeartbeat_eq_of_adopts now uid id hadopts]
  · rw [N.receiveHeartbeat_eq_of_not_adopts now uid id hadopts]

/-- An adopted heartbeat replaces the acknowledged leader. -/
theorem receiveHeartbeat_of_adopts (h : N.Adopts id) :
    (N.receiveHeartbeat now uid id).1.leaderUID = uid ∧
      (N.receiveHeartbeat now uid id).1.leaderProposalID = id ∧
      (N.receiveHeartbeat now uid id).1.proposer =
        if N.proposer.leader ∧ uid ≠ N.proposer.proposerUID then
          (N.proposer.setLeader false).observeProposal uid id
        else N.proposer := by
  rw [N.receiveHeartbeat_eq_of_adopts now uid id h]
  exact ⟨rfl, rfl, rfl⟩

/-- A heartbeat that is not adopted changes neither the acknowledged leader nor the proposer. -/
theorem receiveHeartbeat_of_not_adopts (h : ¬N.Adopts id) :
    (N.receiveHeartbeat now uid id).1.leaderUID = N.leaderUID ∧
      (N.receiveHeartbeat now uid id).1.leaderProposalID = N.leaderProposalID ∧
      (N.receiveHeartbeat now uid id).1.proposer = N.proposer := by
  rw [N.receiveHeartbeat_eq_of_not_adopts now uid id h]
  exact ⟨rfl, rfl, rfl⟩

end Heartbeat

/-- A pulse of a leader is a heartbeat that it sends itself. -/
theorem pulse_of_leader {N : PaxosNode} (h : N.proposer.leader) (now : UInt64) :
    (N.pulse now).1 =
      (N.receiveHeartbeat now N.proposer.proposerUID N.proposer.proposalID).1 := by
  simp [pulse, h]

/-- A pulse does nothing to a node that does not lead. -/
theorem pulse_of_not_leader {N : PaxosNode} (h : ¬N.proposer.leader) (now : UInt64) :
    (N.pulse now).1 = N := by
  simp [pulse, h]

/-- A pulse leaves the proposer as it is. -/
theorem pulse_proposer (N : PaxosNode) (now : UInt64) : (N.pulse now).1.proposer = N.proposer := by
  by_cases hleader : N.proposer.leader
  · rw [pulse_of_leader hleader]
    by_cases hadopts : N.Adopts N.proposer.proposalID
    · rw [(N.receiveHeartbeat_of_adopts now _ _ hadopts).2.2]
      simp
    · exact (N.receiveHeartbeat_of_not_adopts now _ _ hadopts).2.2
  · rw [pulse_of_not_leader hleader]

/-- A pulse confirms the node's leadership exactly if it acknowledges no ID above its own. -/
theorem pulseConfirms_iff {N : PaxosNode} (hnamed : N.Wellnamed) (now : UInt64) :
    N.PulseConfirms now ↔ N.Unrivalled := by
  unfold PulseConfirms Unrivalled isLeader getMyProposalID
  rw [pulse_proposer]
  by_cases hleader : N.proposer.leader
  · simp only [hleader, not_true, false_or, true_imp_iff]
    rw [pulse_of_leader hleader]
    by_cases hadopts : N.Adopts N.proposer.proposalID
    · obtain ⟨huid, hid, -⟩ := N.receiveHeartbeat_of_adopts now N.proposer.proposerUID _ hadopts
      rw [huid, hid]
      refine ⟨fun _ hvalid => ?_, fun _ => ⟨hnamed.proposer, rfl⟩⟩
      exact (hadopts.resolve_left (not_not.mpr hvalid)).le
    · obtain ⟨huid, hid, -⟩ :=
        N.receiveHeartbeat_of_not_adopts now N.proposer.proposerUID _ hadopts
      rw [huid, hid]
      unfold Adopts at hadopts
      rw [not_or, not_not, not_lt] at hadopts
      refine ⟨fun h _ => h.2.le, fun h => ?_⟩
      have hsame : N.leaderProposalID = N.proposer.proposalID :=
        le_antisymm (h hadopts.1) hadopts.2
      refine ⟨?_, hsame⟩
      rw [← hnamed.leader hadopts.1, hsame, hnamed.proposalID]
  · simp [hleader]

/-! ### What the other functions do to the two records -/

/-- What a node does about a leader that may have died: it notes whether it is acquiring the
leadership, and may prepare a new ballot. -/
def Campaigns (N : PaxosNode) (after : PaxosNode × List MessengerCall) : Prop :=
  ∃ acquiring, after = ({ N with acquiringLeadership := acquiring }, []) ∨
    after = { N with acquiringLeadership := acquiring }.prepare true

/-- `acquireLeadership` waits or begins a new ballot. -/
theorem acquireLeadership_campaigns (N : PaxosNode) (now : UInt64) :
    N.Campaigns (N.acquireLeadership now) := by
  unfold acquireLeadership
  split
  · exact ⟨false, Or.inl rfl⟩
  · exact ⟨true, Or.inr rfl⟩

/-- So does `pollLiveness`. -/
theorem pollLiveness_campaigns (N : PaxosNode) (aliveNow expireNow acquireNow : UInt64) :
    N.Campaigns (N.pollLiveness aliveNow expireNow acquireNow) := by
  unfold pollLiveness
  split_ifs
  · exact ⟨N.acquiringLeadership, Or.inr rfl⟩
  · exact N.acquireLeadership_campaigns acquireNow
  · exact ⟨N.acquiringLeadership, Or.inl rfl⟩

/-- The node with `P` for its proposer, once it acknowledges itself. -/
def acknowledgeSelf (N : PaxosNode) (P : Proposer) : PaxosNode :=
  { N with
    proposer := P
    leaderUID := P.proposerUID
    leaderProposalID := P.proposalID
    acquiringLeadership := false }

/-- A promise goes to the proposer. A leader that acknowledges nobody then acknowledges itself
and sends a pulse. -/
theorem receivePromise_eq (N : PaxosNode) (now : UInt64) (fromUID : Str) (p r : ProposalID)
    (w : Str) {P : Proposer} {sent : List MessengerCall}
    (hP : N.proposer.receivePromise fromUID p r w = (P, sent)) :
    N.receivePromise now fromUID p r w =
      if N.leaderUID = [] ∧ P.leader then
        (((N.acknowledgeSelf P).pulse now).1,
          sent ++ ((N.acknowledgeSelf P).pulse now).2 ++
            [onLeadershipChange P.proposerUID ((N.acknowledgeSelf P).pulse now).1.leaderUID])
      else ({ N with proposer := P }, sent) := by
  unfold receivePromise
  simp only [hP, List.isEmpty_iff]
  split_ifs <;> rfl

/-- A promise is handed to the proposer, and a node that becomes the leader acknowledges itself. -/
theorem receivePromise_fst (N : PaxosNode) (now : UInt64) (fromUID : Str) (p r : ProposalID)
    (w : Str) {P : Proposer} (hP : (N.proposer.receivePromise fromUID p r w).1 = P) :
    (N.receivePromise now fromUID p r w).1 =
      if N.leaderUID = [] ∧ P.leader then ((N.acknowledgeSelf P).pulse now).1
      else { N with proposer := P } := by
  rw [N.receivePromise_eq now fromUID p r w (Prod.ext hP rfl)]
  split_ifs <;> rfl

/-- A refused prepare request goes to the proposer, and the node prepares again if it is
acquiring the leadership. -/
theorem receivePrepareNACK_eq (N : PaxosNode) (fromUID : Str) (p id : ProposalID) :
    N.receivePrepareNACK fromUID p id =
      if N.acquiringLeadership then
        { N with proposer := N.proposer.observeProposal fromUID id }.prepare true
      else ({ N with proposer := N.proposer.observeProposal fromUID id }, []) := rfl

/-- The acceptors that have refused the accept request of the current ballot, after one more
refusal. -/
def refusals (N : PaxosNode) (fromUID : Str) (p id : ProposalID) : Finset Str :=
  if p = (N.proposer.observeProposal fromUID id).proposalID then insert fromUID N.acceptNACKs
  else N.acceptNACKs

/-- The refusal makes a leader step down. -/
def StepsDown (N : PaxosNode) (fromUID : Str) (p id : ProposalID) : Prop :=
  N.proposer.leader ∧ N.proposer.quorumSize ≤ (N.refusals fromUID p id).card

instance (N : PaxosNode) (fromUID : Str) (p id : ProposalID) :
    Decidable (N.StepsDown fromUID p id) :=
  inferInstanceAs (Decidable (_ ∧ _))

/-- A refused accept request goes to the proposer and is noted, and a leader with a quorum of
refusals steps down. -/
theorem receiveAcceptNACK_eq (N : PaxosNode) (fromUID : Str) (p id : ProposalID) :
    N.receiveAcceptNACK fromUID p id =
      if N.StepsDown fromUID p id then
        ({ N with
            proposer :=
              ((N.proposer.observeProposal fromUID id).setLeader false).observeProposal fromUID p
            acceptNACKs := N.refusals fromUID p id
            leaderUID := []
            leaderProposalID := .empty },
          [onLeadershipLost, onLeadershipChange N.proposer.proposerUID []])
      else
        ({ N with
            proposer := N.proposer.observeProposal fromUID id
            acceptNACKs := N.refusals fromUID p id }, []) := by
  unfold receiveAcceptNACK Proposer.receiveAcceptNACK StepsDown refusals
  by_cases hcurrent : p = (N.proposer.observeProposal fromUID id).proposalID
  · simp only [if_pos hcurrent, Proposer.observeProposal_leader,
      Proposer.observeProposal_quorumSize, Proposer.observeProposal_proposerUID, ge_iff_le]
  · simp only [if_neg hcurrent, Proposer.observeProposal_leader,
      Proposer.observeProposal_quorumSize, Proposer.observeProposal_proposerUID, ge_iff_le]

/-- A refused accept request is observed, and may end the leadership. -/
theorem receiveAcceptNACK_cases (N : PaxosNode) (fromUID : Str) (p id : ProposalID) :
    (∃ nacks, N.receiveAcceptNACK fromUID p id =
      ({ N with
        proposer := N.proposer.observeProposal fromUID id
        acceptNACKs := nacks }, [])) ∨
    ∃ nacks, N.receiveAcceptNACK fromUID p id =
      ({ N with
          proposer :=
            ((N.proposer.observeProposal fromUID id).setLeader false).observeProposal fromUID p
          acceptNACKs := nacks
          leaderUID := []
          leaderProposalID := .empty },
        [onLeadershipLost, onLeadershipChange N.proposer.proposerUID []]) := by
  rw [receiveAcceptNACK_eq]
  split_ifs
  · exact Or.inr ⟨_, rfl⟩
  · exact Or.inl ⟨_, rfl⟩

section Wellnamed

variable {N : PaxosNode} (h : N.Wellnamed)

include h

/-- It is a matter of the names only. -/
theorem Wellnamed.with_proposer {P : Proposer} (huid : P.proposerUID = N.proposer.proposerUID)
    (hid : P.proposalID.uid = N.proposer.proposalID.uid) : { N with proposer := P }.Wellnamed :=
  ⟨huid.trans h.proposer, hid.trans h.proposalID, h.leader⟩

/-- A new ballot is named after the node. -/
theorem Wellnamed.prepare (increment : Bool) : (N.prepare increment).1.Wellnamed := by
  cases increment <;> exact ⟨h.proposer, h.proposalID, h.leader⟩

/-- Campaigns keep the names. -/
theorem Wellnamed.campaigns {after : PaxosNode × List MessengerCall} (hafter : N.Campaigns after) :
    after.1.Wellnamed := by
  obtain ⟨acquiring, heq⟩ := hafter
  have hacquiring : { N with acquiringLeadership := acquiring }.Wellnamed :=
    ⟨h.proposer, h.proposalID, h.leader⟩
  rcases heq with rfl | rfl
  · exact hacquiring
  · exact hacquiring.prepare true

/-- A heartbeat with the UID of its leader keeps them. -/
theorem Wellnamed.receiveHeartbeat (now : UInt64) {uid : Str} {id : ProposalID}
    (hid : id.uid = uid) : (N.receiveHeartbeat now uid id).1.Wellnamed := by
  by_cases hadopts : N.Adopts id
  · obtain ⟨huid, hleader, hproposer⟩ := N.receiveHeartbeat_of_adopts now uid id hadopts
    refine ⟨?_, ?_, fun _ => by rw [huid, hleader, hid]⟩
    · rw [hproposer, receiveHeartbeat_nodeUID]
      split_ifs
      · simpa [Proposer.setLeader] using h.proposer
      · exact h.proposer
    · rw [hproposer, receiveHeartbeat_nodeUID]
      split_ifs
      · simpa [Proposer.setLeader] using h.proposalID
      · exact h.proposalID
  · obtain ⟨huid, hleader, hproposer⟩ := N.receiveHeartbeat_of_not_adopts now uid id hadopts
    refine ⟨?_, ?_, ?_⟩
    · rw [hproposer, receiveHeartbeat_nodeUID]
      exact h.proposer
    · rw [hproposer, receiveHeartbeat_nodeUID]
      exact h.proposalID
    · rw [hleader, huid]
      exact h.leader

/-- So does a pulse. -/
theorem Wellnamed.pulse (now : UInt64) : (N.pulse now).1.Wellnamed := by
  by_cases hleader : N.proposer.leader
  · rw [pulse_of_leader hleader]
    exact h.receiveHeartbeat now (by rw [h.proposalID, h.proposer])
  · rw [pulse_of_not_leader hleader]
    exact h

/-- The calls of an election keep the names. -/
theorem Wellnamed.next {call : NodeCall} (hcall : call.Electoral) :
    (machine.next N call).Wellnamed := by
  cases call with
  | setActive | receivePrepare => exact ⟨h.proposer, h.proposalID, h.leader⟩
  | setLeaderProposalID => exact absurd hcall not_false
  | prepare increment => exact h.prepare increment
  | pollLiveness aliveNow expireNow acquireNow =>
    exact h.campaigns (N.pollLiveness_campaigns aliveNow expireNow acquireNow)
  | receiveHeartbeat now uid id => exact h.receiveHeartbeat now hcall.2
  | pulse now => exact h.pulse now
  | acquireLeadership now => exact h.campaigns (N.acquireLeadership_campaigns now)
  | receivePromise now u p r w =>
    have hproposer : (N.proposer.receivePromise u p r w).1.proposerUID = N.proposer.proposerUID :=
      N.proposer.next_proposerUID (.receivePromise u p r w)
    have hid : (N.proposer.receivePromise u p r w).1.proposalID.uid = N.proposer.proposalID.uid :=
      N.proposer.next_proposalID_uid (.receivePromise u p r w)
    have hfst := N.receivePromise_fst now u p r w rfl
    simp only [Machine.next, machine]
    rw [hfst]
    split_ifs
    · refine Wellnamed.pulse ⟨hproposer.trans h.proposer, hid.trans h.proposalID, fun _ => ?_⟩ now
      exact hid.trans (h.proposalID.trans (hproposer.trans h.proposer).symm)
    · exact h.with_proposer hproposer hid
  | receivePrepareNACK u p id =>
    have hobserve : { N with proposer := N.proposer.observeProposal u id }.Wellnamed :=
      h.with_proposer (by simp) (by simp)
    simp only [Machine.next, machine, receivePrepareNACK_eq]
    split_ifs
    · exact hobserve.prepare true
    · exact hobserve
  | receiveAcceptNACK u p id =>
    simp only [Machine.next, machine]
    rcases N.receiveAcceptNACK_cases u p id with ⟨nacks, heq⟩ | ⟨nacks, heq⟩
    · rw [heq]
      exact ⟨by simpa using h.proposer, by simpa using h.proposalID, h.leader⟩
    · rw [heq]
      refine ⟨by simpa [Proposer.setLeader] using h.proposer,
        by simpa [Proposer.setLeader] using h.proposalID, fun hvalid => ?_⟩
      simp [ProposalID.isValid, ProposalID.empty] at hvalid

end Wellnamed

/-! ### The step that decides -/

section Unrivalled

variable {N : PaxosNode}

/-- A node that does not lead has no rival. -/
theorem unrivalled_of_not_leader (h : N.proposer.leader = false) : N.Unrivalled := by
  intro hleader
  rw [h] at hleader
  cases hleader

/-- A larger proposal ID keeps a leader unrivalled. -/
theorem Unrivalled.with_proposer (h : N.Unrivalled) {P : Proposer}
    (hleader : P.leader → N.proposer.leader) (hid : N.proposer.proposalID ≤ P.proposalID) :
    { N with proposer := P }.Unrivalled :=
  fun hl hvalid => (h (hleader hl) hvalid).trans hid

/-- A pulse raises no rival. -/
theorem Unrivalled.pulse (h : N.Unrivalled) (now : UInt64) : (N.pulse now).1.Unrivalled := by
  unfold Unrivalled
  rw [pulse_proposer]
  intro hleader hvalid
  rw [pulse_of_leader hleader] at hvalid ⊢
  by_cases hadopts : N.Adopts N.proposer.proposalID
  · rw [(N.receiveHeartbeat_of_adopts now _ _ hadopts).2.1]
  · rw [(N.receiveHeartbeat_of_not_adopts now _ _ hadopts).2.1] at hvalid ⊢
    exact h hleader hvalid

/-- Campaigns raise none. -/
theorem Unrivalled.campaigns (h : N.Unrivalled) {after : PaxosNode × List MessengerCall}
    (hafter : N.Campaigns after) : after.1.Unrivalled := by
  obtain ⟨acquiring, rfl | rfl⟩ := hafter
  · exact h
  · exact unrivalled_of_not_leader rfl

/-- A heartbeat raises none exactly if it does not name the leading node itself with a higher ID. -/
theorem receiveHeartbeat_unrivalled_iff (hnamed : N.Wellnamed) (h : N.Unrivalled) (now : UInt64)
    {uid : Str} {id : ProposalID} (hvalid : id.isValid) :
    (N.receiveHeartbeat now uid id).1.Unrivalled ↔
      (N.proposer.leader → uid = N.nodeUID → id ≤ N.proposer.proposalID) := by
  by_cases hadopts : N.Adopts id
  · obtain ⟨-, hleader, hproposer⟩ := N.receiveHeartbeat_of_adopts now uid id hadopts
    unfold Unrivalled
    rw [hleader, hproposer]
    by_cases hdemotes : N.proposer.leader ∧ uid ≠ N.proposer.proposerUID
    · rw [hnamed.proposer] at hdemotes
      simp [hnamed.proposer, hdemotes, Proposer.setLeader]
    · rw [if_neg hdemotes]
      rw [not_and, not_not, hnamed.proposer] at hdemotes
      exact ⟨fun hle hl _ => hle hl hvalid, fun hle hl _ => hle hl (hdemotes hl)⟩
  · obtain ⟨-, hleader, hproposer⟩ := N.receiveHeartbeat_of_not_adopts now uid id hadopts
    unfold Adopts at hadopts
    rw [not_or, not_not, not_lt] at hadopts
    unfold Unrivalled
    rw [hleader, hproposer]
    exact ⟨fun _ hl _ => hadopts.2.trans (h hl hadopts.1), fun _ => h⟩

/-- When a promise raises none. -/
theorem receivePromise_unrivalled_iff (h : N.Unrivalled) (now : UInt64) (u : Str)
    (p r : ProposalID) (w : Str) :
    (N.receivePromise now u p r w).1.Unrivalled ↔
      N.KeepsUnrivalled (.receivePromise now u p r w) := by
  have hle := N.proposer.le_observeProposal u p
  have hself : ∀ P : Proposer, ((N.acknowledgeSelf P).pulse now).1.Unrivalled :=
    fun P => Unrivalled.pulse (fun _ _ => le_rfl) now
  -- the promise makes no leader: the leader flag stays and the ID does not decrease
  have hstays : ∀ P : Proposer, (N.proposer.receivePromise u p r w).1 = P →
      P.leader = N.proposer.leader → N.proposer.proposalID ≤ P.proposalID →
        (N.receivePromise now u p r w).1.Unrivalled := by
    intro P hP hleader hid
    rw [N.receivePromise_fst now u p r w hP]
    split_ifs
    · exact hself P
    · exact h.with_proposer (by rw [hleader]; exact id) hid
  rcases N.proposer.receivePromise_cases u p r w with
    ⟨hignored, heq⟩ | ⟨-, hshort, heq⟩ | ⟨hcounts, hquorum, heq⟩
  · refine ⟨fun _ _ hcounts => absurd hcounts hignored, fun _ => ?_⟩
    exact hstays _ (by rw [heq]) (by simp) (by simpa using hle)
  · refine ⟨fun _ _ _ hquorum => absurd hquorum (not_le.mpr hshort), fun _ => ?_⟩
    exact hstays _ (by rw [heq]) (by simp) (by simpa using hle)
  · rw [N.receivePromise_fst now u p r w (by rw [heq])]
    by_cases hnobody : N.leaderUID = []
    · rw [if_pos ⟨hnobody, rfl⟩]
      exact ⟨fun _ hsomebody => absurd hnobody hsomebody, fun _ => hself _⟩
    · rw [if_neg fun hself => hnobody hself.1]
      have hid : (N.proposer.observeProposal u p).proposalID = p := hcounts.1.symm
      unfold Unrivalled
      simp only [Proposer.countPromise_proposalID, hid, true_imp_iff]
      exact ⟨fun hle _ _ _ => hle, fun hkeeps => hkeeps hnobody hcounts hquorum⟩

/-- A call keeps a leader unrivalled exactly if neither of the two branches is taken. -/
theorem unrivalled_next_iff (hnamed : N.Wellnamed) (h : N.Unrivalled) {call : NodeCall}
    (hcall : call.Electoral) : (machine.next N call).Unrivalled ↔ N.KeepsUnrivalled call := by
  cases call with
  | receiveHeartbeat now uid id => exact receiveHeartbeat_unrivalled_iff hnamed h now hcall.1
  | receivePromise now u p r w => exact receivePromise_unrivalled_iff h now u p r w
  | setLeaderProposalID => exact absurd hcall not_false
  | setActive | receivePrepare => exact iff_of_true h trivial
  | prepare increment =>
    refine iff_of_true ?_ trivial
    cases increment with
    | false => exact h
    | true => exact unrivalled_of_not_leader rfl
  | pulse now => exact iff_of_true (h.pulse now) trivial
  | acquireLeadership now =>
    exact iff_of_true (h.campaigns (N.acquireLeadership_campaigns now)) trivial
  | pollLiveness aliveNow expireNow acquireNow =>
    exact iff_of_true (h.campaigns (N.pollLiveness_campaigns aliveNow expireNow acquireNow)) trivial
  | receivePrepareNACK u p id =>
    refine iff_of_true ?_ trivial
    simp only [Machine.next, machine, receivePrepareNACK_eq]
    split_ifs
    · exact unrivalled_of_not_leader rfl
    · exact h.with_proposer (by simp) (N.proposer.le_observeProposal u id)
  | receiveAcceptNACK u p id =>
    refine iff_of_true ?_ trivial
    simp only [Machine.next, machine]
    rcases N.receiveAcceptNACK_cases u p id with ⟨nacks, heq⟩ | ⟨nacks, heq⟩
    · rw [heq]
      exact fun hl hvalid =>
        (h (by simpa using hl) hvalid).trans (N.proposer.le_observeProposal u id)
    · rw [heq]
      exact unrivalled_of_not_leader (by simp [Proposer.setLeader])

end Unrivalled

/-! ### Runs -/

/-- At every moment of the run a pulse confirms the leadership of the node. -/
def LeadershipConfirmed (N : PaxosNode) (calls : List NodeCall) : Prop :=
  ∀ pre, pre <+: calls → ∀ now, (machine.run N pre).isLeader → (machine.run N pre).PulseConfirms now

/-- **A leader does not defer to another leader.** In a run of a new node that acknowledges
nobody, this holds exactly if no call takes one of the two branches. -/
theorem leadershipConfirmed_iff {nodeUID : Str} {quorumSize heartbeatTimeout livenessWindow : Int}
    {acceptorNow now : UInt64} {unset : Unset} (hfollower : unset.leader = false)
    {calls : List NodeCall} (hcalls : ∀ call ∈ calls, call.Electoral) :
    (new nodeUID quorumSize heartbeatTimeout livenessWindow [] acceptorNow now
        unset).LeadershipConfirmed calls ↔
      machine.Admits KeepsUnrivalled
        (new nodeUID quorumSize heartbeatTimeout livenessWindow [] acceptorNow now unset)
        calls := by
  generalize hN :
    new nodeUID quorumSize heartbeatTimeout livenessWindow [] acceptorNow now unset = N
  have hnamed : N.Wellnamed := by
    subst hN
    refine ⟨rfl, rfl, fun hvalid => ?_⟩
    simp [new, ProposalID.isValid, ProposalID.empty] at hvalid
  have hunrivalled : N.Unrivalled := by
    subst hN
    exact unrivalled_of_not_leader hfollower
  have hadmits : machine.Admits (fun _ call => call.Electoral) N calls :=
    Machine.admits_const_iff.mpr hcalls
  rw [← hadmits.forall_prefix_iff hnamed hunrivalled (fun _ _ hI hcall => hI.next hcall)
    fun _ _ hI hJ hcall => unrivalled_next_iff hI hJ hcall]
  refine forall_congr' fun pre => imp_congr_right fun hpre => ?_
  have hthen : (machine.run N pre).Wellnamed :=
    (hadmits.of_prefix hpre).invariant hnamed fun _ _ hI hcall => hI.next hcall
  simp only [pulseConfirms_iff hthen]
  -- a pulse without leadership confirms nothing and refutes nothing
  exact ⟨fun h hleader => h 0 hleader hleader, fun h _ _ => h⟩

/-- A node A elected at (1, A) by the promises of two acceptors. -/
def electedNode : List NodeCall :=
  [.prepare true, .receivePromise 0 [49] ⟨1, [65]⟩ .empty [],
    .receivePromise 0 [50] ⟨1, [65]⟩ .empty []]

/-- The node A with a quorum size of 2. -/
def nodeA : PaxosNode := new [65] 2 100000 50000 [] 0 0 ⟨false, true, true, true⟩

/-- A is elected, pulses and steps down for B. -/
theorem leadershipConfirmed_iff_demoted :
    nodeA.LeadershipConfirmed
      (electedNode ++ [.pulse 0, .receiveHeartbeat 0 [66] ⟨5, [66]⟩, .pulse 0]) :=
  (leadershipConfirmed_iff rfl (by decide)).mpr (by decide)

/-- The heartbeat of a rival at (5, B) arrives between the node's prepare request and the promises
that complete its quorum. The node becomes a leader at (1, A), and stays one while it acknowledges
B at (5, B). -/
theorem leader_defers_after_late_quorum :
    let calls : List NodeCall :=
      [.prepare true, .receiveHeartbeat 0 [66] ⟨5, [66]⟩,
        .receivePromise 0 [49] ⟨1, [65]⟩ .empty [], .receivePromise 0 [50] ⟨1, [65]⟩ .empty []]
    (∀ call ∈ calls, call.Electoral) ∧ ¬nodeA.LeadershipConfirmed calls := by
  refine ⟨by decide, fun h => ?_⟩
  rcases h _ List.prefix_rfl 0 (by decide) with hdemoted | hconfirmed
  · exact hdemoted (by decide)
  · have huid := hconfirmed.1
    exact absurd huid (by decide)

end PaxosNode

end CppPaxos
