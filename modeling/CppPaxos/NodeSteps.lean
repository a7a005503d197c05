import CppPaxos.NodeLeadership
import CppPaxos.Validity

/-!
# What a node does at one call

A node drives its proposer: every call of the node is a short list of calls of the
proposer. New ballots are begun in four functions, which differ in their guards only.
-/

namespace CppPaxos

open Machines MessengerCall

/-- The call may begin a new ballot and sends nothing else. -/
def NodeCall.Contends : NodeCall → Prop
  | .pollLiveness .. | .acquireLeadership _ | .receivePrepareNACK .. => True
  | _ => False

namespace PaxosNode

/-- The call begins a new ballot. -/
def StartsBallot (N : PaxosNode) : NodeCall → Prop
  | .prepare incrementProposalNumber => incrementProposalNumber
  | .pollLiveness aliveNow expireNow acquireNow =>
    ¬N.isLeaderAlive aliveNow ∧ N.isPrepareExpire expireNow ∧
      (N.acquiringLeadership ∨ ¬N.isLeaderAlive acquireNow)
  | .acquireLeadership now => ¬N.isLeaderAlive now
  | .receivePrepareNACK .. => N.acquiringLeadership
  | _ => False

instance (N : PaxosNode) : DecidablePred N.StartsBallot
  | .prepare increment => inferInstanceAs (Decidable (increment = true))
  | .pollLiveness .. => inferInstanceAs (Decidable (_ ∧ _ ∧ _))
  | .acquireLeadership _ => inferInstanceAs (Decidable (¬_))
  | .receivePrepareNACK .. => inferInstanceAs (Decidable (N.acquiringLeadership = true))
  | .setActive _ | .setLeaderProposalID _ | .receiveHeartbeat .. | .pulse _ | .receivePrepare ..
  | .receivePromise .. | .receiveAcceptNACK .. => isFalse not_false

/-- The proposer once it has heard of the refusal of a prepare request, if the call is one. -/
def heard (N : PaxosNode) : NodeCall → Proposer
  | .receivePrepareNACK fromUID _ promisedID => N.proposer.observeProposal fromUID promisedID
  | _ => N.proposer

/-- A new ballot is `prepare(true)`. -/
theorem step_of_startsBallot {N : PaxosNode} {call : NodeCall} (h : N.StartsBallot call) :
    ∃ acquiring, machine.step N call =
      { N with proposer := N.heard call, acquiringLeadership := acquiring }.prepare true := by
  cases call with
  | prepare increment =>
    have hincrement : increment = true := h
    exact ⟨N.acquiringLeadership, by rw [hincrement]; rfl⟩
  | pollLiveness aliveNow expireNow acquireNow =>
    obtain ⟨hdead, hexpired, hstarts⟩ := h
    simp only [machine, pollLiveness, if_pos (And.intro hdead hexpired)]
    split_ifs with hacquiring
    · exact ⟨N.acquiringLeadership, rfl⟩
    · rw [acquireLeadership, if_neg (hstarts.resolve_left hacquiring)]
      exact ⟨true, rfl⟩
  | acquireLeadership now =>
    have hdead : ¬N.isLeaderAlive now := h
    simp only [machine, acquireLeadership, if_neg hdead]
    exact ⟨true, rfl⟩
  | receivePrepareNACK u p id =>
    have hacquiring : N.acquiringLeadership := h
    simp only [machine, receivePrepareNACK_eq, if_pos hacquiring]
    exact ⟨N.acquiringLeadership, rfl⟩
  | _ => exact absurd h not_false

/-- A contending call that begins no ballot sends nothing. -/
theorem step_of_not_startsBallot {N : PaxosNode} {call : NodeCall} (h : ¬N.StartsBallot call)
    (hcall : call.Contends) :
    ∃ acquiring, machine.step N call =
      ({ N with proposer := N.heard call, acquiringLeadership := acquiring }, []) := by
  cases call with
  | pollLiveness aliveNow expireNow acquireNow =>
    by_cases hguard : ¬N.isLeaderAlive aliveNow ∧ N.isPrepareExpire expireNow
    · have hstarts : ¬(N.acquiringLeadership ∨ ¬N.isLeaderAlive acquireNow) :=
        fun hstarts => h ⟨hguard.1, hguard.2, hstarts⟩
      rw [not_or, not_not] at hstarts
      simp only [machine, pollLiveness, if_pos hguard, if_neg hstarts.1, acquireLeadership,
        if_pos hstarts.2]
      exact ⟨false, rfl⟩
    · simp only [machine, pollLiveness, if_neg hguard]
      exact ⟨N.acquiringLeadership, rfl⟩
  | acquireLeadership now =>
    have halive : N.isLeaderAlive now := not_not.mp h
    simp only [machine, acquireLeadership, if_pos halive]
    exact ⟨false, rfl⟩
  | receivePrepareNACK u p id =>
    have hacquiring : ¬N.acquiringLeadership := h
    simp only [machine, receivePrepareNACK_eq, if_neg hacquiring]
    exact ⟨N.acquiringLeadership, rfl⟩
  | _ => exact absurd hcall not_false

/-! ### Notifications about the leadership -/

/-- What a heartbeat lets a node call: the notices of a change, if it is adopted. -/
theorem receiveHeartbeat_snd (N : PaxosNode) (now : UInt64) (uid : Str) (id : ProposalID) :
    (N.receiveHeartbeat now uid id).2 =
      if N.Adopts id then
        if N.proposer.leader ∧ uid ≠ N.proposer.proposerUID then
          [onLeadershipLost, onLeadershipChange N.leaderUID uid]
        else [onLeadershipChange N.leaderUID uid]
      else [] := by
  by_cases hadopts : N.Adopts id
  · rw [N.receiveHeartbeat_eq_of_adopts now uid id hadopts, if_pos hadopts]
  · rw [N.receiveHeartbeat_eq_of_not_adopts now uid id hadopts, if_neg hadopts]

/-- A pulse of a leader reports a change if it adopts its own ID, and sends a heartbeat. -/
theorem pulse_snd_of_leader {N : PaxosNode} (h : N.proposer.leader) (now : UInt64) :
    (N.pulse now).2 =
      (if N.Adopts N.proposer.proposalID then
        [onLeadershipChange N.leaderUID N.proposer.proposerUID] else []) ++
      [sendHeartbeat N.proposer.proposerUID N.proposer.proposalID] := by
  have hproposer := N.pulse_proposer now
  rw [pulse_of_leader h] at hproposer
  simp only [pulse, h, if_true, hproposer, receiveHeartbeat_snd, ne_eq, not_true, and_false,
    if_false]

/-- A node that does not lead sends nothing when it is pulsed. -/
theorem pulse_snd_of_not_leader {N : PaxosNode} (h : ¬N.proposer.leader) (now : UInt64) :
    (N.pulse now).2 = [] := by
  simp [pulse, h]

/-! ### The node as the driver of its proposer -/

/-- The calls that the node makes on its proposer. -/
def proposerCalls (N : PaxosNode) : NodeCall → List ProposerCall
  | .setActive active => [.setActive active]
  | .prepare incrementProposalNumber => [.prepare incrementProposalNumber]
  | .pollLiveness aliveNow expireNow acquireNow =>
    if N.StartsBallot (.pollLiveness aliveNow expireNow acquireNow) then [.prepare true] else []
  | .receiveHeartbeat _ uid id =>
    if N.Adopts id ∧ N.proposer.leader ∧ uid ≠ N.proposer.proposerUID then
      [.setLeader false, .observeProposal uid id]
    else []
  | .acquireLeadership now =>
    if N.StartsBallot (.acquireLeadership now) then [.prepare true] else []
  | .receivePromise _ u p r w => [.receivePromise u p r w]
  | .receivePrepareNACK u p id =>
    .receivePrepareNACK u p id ::
      if N.StartsBallot (.receivePrepareNACK u p id) then [.prepare true] else []
  | .receiveAcceptNACK u p id =>
    .receiveAcceptNACK u p id ::
      if N.StepsDown u p id then [.setLeader false, .observeProposal u p] else []
  | .setLeaderProposalID _ | .pulse _ | .receivePrepare .. => []

/-- The proposer of a node goes through the calls that the node makes on it. -/
theorem next_proposer (N : PaxosNode) (call : NodeCall) :
    (machine.next N call).proposer = Proposer.machine.run N.proposer (N.proposerCalls call) := by
  cases call with
  | setActive | setLeaderProposalID | receivePrepare | prepare => rfl
  | pollLiveness | acquireLeadership | receivePrepareNACK =>
    simp only [proposerCalls]
    split_ifs with hstarts
    · obtain ⟨acquiring, hstep⟩ := step_of_startsBallot hstarts
      rw [Machine.next, hstep]
      rfl
    · obtain ⟨acquiring, hstep⟩ := step_of_not_startsBallot hstarts trivial
      rw [Machine.next, hstep]
      rfl
  | receiveHeartbeat now uid id =>
    simp only [Machine.next, machine, proposerCalls]
    by_cases hadopts : N.Adopts id
    · rw [(N.receiveHeartbeat_of_adopts now uid id hadopts).2.2]
      simp only [hadopts, true_and]
      split_ifs <;> rfl
    · rw [(N.receiveHeartbeat_of_not_adopts now uid id hadopts).2.2]
      simp [hadopts]
  | pulse now => exact N.pulse_proposer now
  | receivePromise now u p r w =>
    simp only [Machine.next, machine]
    rw [N.receivePromise_fst now u p r w rfl]
    split_ifs
    · rw [pulse_proposer]
      rfl
    · rfl
  | receiveAcceptNACK u p id =>
    simp only [Machine.next, machine, receiveAcceptNACK_eq, proposerCalls]
    split_ifs <;> rfl

/-- The calls that the node makes on its acceptor. -/
def acceptorCalls : NodeCall → List AcceptorCall
  | .setActive active => [.setActive active]
  | .receivePrepare now fromUID proposalID => [.receivePrepare now fromUID proposalID]
  | _ => []

/-- The learner after the call: only `setActive` reaches it. -/
def learnerAfter (N : PaxosNode) : NodeCall → Learner
  | .setActive active => N.learner.setActive active
  | _ => N.learner

/-- A heartbeat concerns neither the acceptor nor the learner. -/
theorem receiveHeartbeat_roles (N : PaxosNode) (now : UInt64) (uid : Str) (id : ProposalID) :
    (N.receiveHeartbeat now uid id).1.acceptor = N.acceptor ∧
      (N.receiveHeartbeat now uid id).1.learner = N.learner := by
  by_cases hadopts : N.Adopts id
  · rw [N.receiveHeartbeat_eq_of_adopts now uid id hadopts]
    exact ⟨rfl, rfl⟩
  · rw [N.receiveHeartbeat_eq_of_not_adopts now uid id hadopts]
    exact ⟨rfl, rfl⟩

/-- Nor does a pulse. -/
theorem pulse_roles (N : PaxosNode) (now : UInt64) :
    (N.pulse now).1.acceptor = N.acceptor ∧ (N.pulse now).1.learner = N.learner := by
  by_cases hleader : N.proposer.leader
  · rw [pulse_of_leader hleader]
    exact N.receiveHeartbeat_roles now _ _
  · rw [pulse_of_not_leader hleader]
    exact ⟨rfl, rfl⟩

/-- Nor do campaigns. -/
theorem Campaigns.roles {N : PaxosNode} {after : PaxosNode × List MessengerCall}
    (h : N.Campaigns after) : after.1.acceptor = N.acceptor ∧ after.1.learner = N.learner := by
  obtain ⟨acquiring, rfl | rfl⟩ := h
  · exact ⟨rfl, rfl⟩
  · exact ⟨rfl, rfl⟩

/-- The other two roles of a node go through the calls that the node makes on them. -/
theorem next_roles (N : PaxosNode) (call : NodeCall) :
    (machine.next N call).acceptor = Acceptor.machine.run N.acceptor (acceptorCalls call) ∧
      (machine.next N call).learner = N.learnerAfter call := by
  cases call with
  | setActive | setLeaderProposalID | receivePrepare | prepare => exact ⟨rfl, rfl⟩
  | pollLiveness aliveNow expireNow acquireNow =>
    exact (N.pollLiveness_campaigns aliveNow expireNow acquireNow).roles
  | acquireLeadership now => exact (N.acquireLeadership_campaigns now).roles
  | receiveHeartbeat now uid id => exact N.receiveHeartbeat_roles now uid id
  | pulse now => exact N.pulse_roles now
  | receivePromise now u p r w =>
    simp only [Machine.next, machine]
    rw [N.receivePromise_fst now u p r w rfl]
    split_ifs
    · exact (N.acknowledgeSelf _).pulse_roles now
    · exact ⟨rfl, rfl⟩
  | receivePrepareNACK u p id =>
    simp only [Machine.next, machine, receivePrepareNACK_eq]
    split_ifs <;> exact ⟨rfl, rfl⟩
  | receiveAcceptNACK u p id =>
    simp only [Machine.next, machine, receiveAcceptNACK_eq]
    split_ifs <;> exact ⟨rfl, rfl⟩

/-- A pulse sends a heartbeat and otherwise only notifies. -/
theorem of_pulse_mem {N : PaxosNode} {now : UInt64} {m : MessengerCall} (hm : m ∈ (N.pulse now).2) :
    (∃ u p, m = sendHeartbeat u p) ∨ ¬m.isMessage := by
  by_cases hleader : N.proposer.leader
  · rw [pulse_snd_of_leader hleader, List.mem_append, List.mem_singleton] at hm
    rcases hm with hm | rfl
    · rw [List.mem_ite_nil_right, List.mem_singleton] at hm
      exact Or.inr (by rw [hm.2]; exact Bool.false_ne_true)
    · exact Or.inl ⟨_, _, rfl⟩
  · rw [pulse_snd_of_not_leader hleader] at hm
    cases hm

/-- A node does not talk for its roles: what it emits comes from its proposer or its acceptor, or it
is a heartbeat or a notification about the leadership. -/
theorem emits_cases {N : PaxosNode} {call : NodeCall} {m : MessengerCall}
    (hm : m ∈ machine.emits N call) :
    m ∈ Proposer.machine.trace N.proposer (N.proposerCalls call) ∨
      m ∈ Acceptor.machine.trace N.acceptor (acceptorCalls call) ∨
      (∃ u p, m = sendHeartbeat u p) ∨ ¬m.isMessage := by
  cases call with
  | setActive | setLeaderProposalID => cases hm
  | prepare increment => exact Or.inl (List.mem_append_left _ hm)
  | receivePrepare now u p => exact Or.inr (Or.inl (List.mem_append_left _ hm))
  | pollLiveness | acquireLeadership =>
    simp only [proposerCalls]
    split_ifs with hstarts
    · obtain ⟨acquiring, hstep⟩ := step_of_startsBallot hstarts
      rw [Machine.emits, hstep] at hm
      exact Or.inl (List.mem_append_left _ hm)
    · obtain ⟨acquiring, hstep⟩ := step_of_not_startsBallot hstarts trivial
      rw [Machine.emits, hstep] at hm
      cases hm
  | receivePrepareNACK u p id =>
    simp only [proposerCalls]
    split_ifs with hstarts
    · obtain ⟨acquiring, hstep⟩ := step_of_startsBallot hstarts
      rw [Machine.emits, hstep] at hm
      exact Or.inl (List.mem_append_right _ (List.mem_append_left _ hm))
    · obtain ⟨acquiring, hstep⟩ := step_of_not_startsBallot hstarts trivial
      rw [Machine.emits, hstep] at hm
      cases hm
  | receiveHeartbeat now uid id =>
    have hsent : m ∈ (N.receiveHeartbeat now uid id).2 := hm
    rw [receiveHeartbeat_snd] at hsent
    refine Or.inr (Or.inr (Or.inr ?_))
    split_ifs at hsent <;> simp only [List.mem_cons, List.not_mem_nil, or_false] at hsent
    · rcases hsent with rfl | rfl <;> exact Bool.false_ne_true
    · rw [hsent]
      exact Bool.false_ne_true
  | pulse now => exact Or.inr (Or.inr (of_pulse_mem hm))
  | receivePromise now u p r w =>
    have hsent : m ∈ (N.receivePromise now u p r w).2 := hm
    rw [N.receivePromise_eq now u p r w Prod.mk.eta.symm] at hsent
    split_ifs at hsent
    · simp only [List.mem_append, List.mem_singleton] at hsent
      rcases hsent with (hproposer | hbeat) | rfl
      · exact Or.inl (List.mem_append_left _ hproposer)
      · exact Or.inr (Or.inr (of_pulse_mem hbeat))
      · exact Or.inr (Or.inr (Or.inr Bool.false_ne_true))
    · exact Or.inl (List.mem_append_left _ hsent)
  | receiveAcceptNACK u p id =>
    have hsent : m ∈ (N.receiveAcceptNACK u p id).2 := hm
    rw [receiveAcceptNACK_eq] at hsent
    refine Or.inr (Or.inr (Or.inr ?_))
    split_ifs at hsent <;> simp only [List.mem_cons, List.not_mem_nil, or_false] at hsent
    rcases hsent with rfl | rfl <;> exact Bool.false_ne_true

end PaxosNode

end CppPaxos
