import CppPaxos.Server

/-!
# The node that the pulse timer drives

The pulse timer is meant to send the heartbeats of the server's node. It pulses the copy
that was bound to it, which no message ever reaches. The two agree as long as the node
does not lead at the start, or still leads and a pulse has nothing to record in it.
-/

namespace CppPaxos

open Machines MessengerCall

namespace PaxosNode

/-- A pulse of the leading node has nothing to record: it acknowledges a larger ID, or its own and
has just confirmed it, or itself with an ID that is not valid. -/
def PulseIdle (N : PaxosNode) (now : UInt64) : Prop :=
  if N.leaderProposalID.isValid then
    N.proposer.proposalID < N.leaderProposalID ∨
      (N.leaderProposalID = N.proposer.proposalID ∧ N.lastHeartbeatTimestamp = now)
  else
    N.leaderProposalID = N.proposer.proposalID ∧ N.leaderUID = N.proposer.proposerUID ∧
      N.acquiringLeadership = false

/-- A node whose own heartbeat is not adopted notes the time, if it acknowledges its own ID. -/
theorem pulse_of_not_adopts {N : PaxosNode} (hleader : N.isLeader)
    (h : ¬N.Adopts N.proposer.proposalID) (now : UInt64) :
    (N.pulse now).1 =
      if N.leaderProposalID = N.proposer.proposalID then
        { N with lastHeartbeatTimestamp := now }
      else N := by
  rw [pulse_of_leader hleader, receiveHeartbeat_eq_of_not_adopts _ now _ _ h]
  split_ifs <;> rfl

/-- A node whose own heartbeat is adopted acknowledges itself. -/
theorem pulse_of_adopts {N : PaxosNode} (hleader : N.isLeader)
    (h : N.Adopts N.proposer.proposalID) (now : UInt64) :
    (N.pulse now).1 =
      { N with
        acquiringLeadership := false
        leaderUID := N.proposer.proposerUID
        leaderProposalID := N.proposer.proposalID
        lastHeartbeatTimestamp :=
          if N.proposer.proposalID.isValid then now else N.lastHeartbeatTimestamp } := by
  rw [pulse_of_leader hleader, receiveHeartbeat_eq_of_adopts _ now _ _ h]
  simp only [ne_eq, not_true, and_false, if_false]

/-- A pulse leaves a leading node as it is exactly if it has nothing to record. -/
theorem pulse_eq_self_iff {N : PaxosNode} (hleader : N.isLeader) (now : UInt64) :
    (N.pulse now).1 = N ↔ N.PulseIdle now := by
  unfold PulseIdle
  by_cases hvalid : N.leaderProposalID.isValid
  · rw [if_pos hvalid]
    rcases lt_trichotomy N.proposer.proposalID N.leaderProposalID with hlt | heq | hgt
    · have hrejects : ¬N.Adopts N.proposer.proposalID := by
        rw [Adopts, not_or, not_not]
        exact ⟨hvalid, hlt.not_gt⟩
      rw [pulse_of_not_adopts hleader hrejects, if_neg hlt.ne']
      exact iff_of_true rfl (Or.inl hlt)
    · have hrejects : ¬N.Adopts N.proposer.proposalID := by
        rw [Adopts, not_or, not_not]
        exact ⟨hvalid, heq.not_gt⟩
      rw [pulse_of_not_adopts hleader hrejects, if_pos heq.symm]
      constructor
      · intro h
        exact Or.inr ⟨heq.symm, (congrArg lastHeartbeatTimestamp h).symm⟩
      · rintro (hlt | ⟨-, htime⟩)
        · exact absurd hlt heq.not_lt
        · rw [← htime]
    · have hadopts : N.Adopts N.proposer.proposalID := Or.inr hgt
      rw [pulse_of_adopts hleader hadopts]
      constructor
      · intro h
        exact absurd (congrArg leaderProposalID h) hgt.ne'
      · rintro (hlt | ⟨heq, -⟩)
        · exact absurd hlt hgt.not_gt
        · exact absurd heq hgt.ne
  · have hadopts : N.Adopts N.proposer.proposalID := Or.inl hvalid
    rw [if_neg hvalid, pulse_of_adopts hleader hadopts]
    constructor
    · intro h
      exact ⟨(congrArg leaderProposalID h).symm, (congrArg leaderUID h).symm,
        (congrArg acquiringLeadership h).symm⟩
    · rintro ⟨hid, huid, hacquiring⟩
      rw [hid] at hvalid
      rw [if_neg hvalid, ← hid, ← huid, ← hacquiring]

/-- The messages that a pulse sends are the heartbeat of a leader. -/
theorem pulse_messages (N : PaxosNode) (now : UInt64) :
    (N.pulse now).2.filter isMessage =
      if N.isLeader then [sendHeartbeat N.proposer.proposerUID N.getMyProposalID] else [] := by
  by_cases hleader : N.isLeader
  · rw [if_pos hleader, pulse_snd_of_leader hleader]
    split_ifs <;> rfl
  · rw [if_neg hleader, pulse_snd_of_not_leader hleader]
    rfl

end PaxosNode

namespace Server

/-- The check of the timers finds the pulse timer, the second one, due. -/
def PulseFires (S : Server) (clock : ℕ → Reading) : Prop :=
  ∃ t ∈ S.timerManager.timers[1]?, t.isDue (clock 1).ms

/-- The check of the timers has the effect of a pulse of the server's node. -/
structure PulsesNode (S : Server) (clock : ℕ → Reading) : Prop where
  messages : (S.checkTimer clock).2.filter isMessage =
    (S.paxosNode.pulse (clock 1).us).2.filter isMessage
  paxosNode : (S.checkTimer clock).1.paxosNode = (S.paxosNode.pulse (clock 1).us).1

/-- A heartbeat is then sent exactly if the node leads, with the node's own ID. -/
theorem PulsesNode.sendHeartbeat_mem_iff {S : Server} {clock : ℕ → Reading}
    (h : S.PulsesNode clock) (uid : Str) (id : ProposalID) :
    sendHeartbeat uid id ∈ (S.checkTimer clock).2 ↔
      S.paxosNode.isLeader ∧ uid = S.paxosNode.proposer.proposerUID ∧
        id = S.paxosNode.getMyProposalID := by
  have hfilter : sendHeartbeat uid id ∈ (S.checkTimer clock).2 ↔
      sendHeartbeat uid id ∈ (S.checkTimer clock).2.filter isMessage := by
    simp [List.mem_filter, isMessage]
  rw [hfilter, h.messages, PaxosNode.pulse_messages]
  simp [List.mem_ite_nil_right]

/-- Whenever the pulse timer fires, it pulses the server's node. -/
def TimerDrivesNode (S : Server) (actions : List ServerAction) : Prop :=
  ∀ pre clock, pre ++ [.checkTimer clock] <+: actions →
    (machine.run S pre).PulseFires clock → (machine.run S pre).PulsesNode clock

/-- When the pulse timer of a server whose node led at the start fires, the node still leads, and a
pulse has nothing to record in it. -/
def KeepsPace (leader : Bool) (S : Server) : ServerAction → Prop
  | .checkTimer clock =>
    leader → S.PulseFires clock → S.paxosNode.isLeader ∧ S.paxosNode.PulseIdle (clock 1).us
  | .handleMessage .. => True

/-- The server was built around `N`: its pulse timer holds a copy with the proposer of `N`, and its
node has that proposer too for as long as it leads. -/
structure BuiltAround (N : PaxosNode) (S : Server) : Prop where
  timers : ∃ ping pulse status copy, S.timerManager = Server.timers ping pulse status copy ∧
    copy.proposer = N.proposer
  leads : S.paxosNode.isLeader → S.paxosNode.proposer = N.proposer

/-- A new server is built around its node. -/
theorem builtAround_ofNode (N : PaxosNode) : BuiltAround N (ofNode N) :=
  ⟨⟨0, 0, 0, N, ofNode_timerManager N, rfl⟩, fun _ => rfl⟩

/-- No action changes the proposer of the copy, nor that of the node while it leads. -/
theorem BuiltAround.next {N : PaxosNode} {S : Server} (h : BuiltAround N S)
    (action : ServerAction) : BuiltAround N (machine.next S action) := by
  obtain ⟨ping, pulse, status, copy, htimers, hcopy⟩ := h.timers
  cases action with
  | handleMessage now message =>
    cases message with
    | heartbeat uid id =>
      refine ⟨h.timers, fun hleads => ?_⟩
      have hleader : (S.paxosNode.receiveHeartbeat now uid id).1.proposer.leader := hleads
      change (S.paxosNode.receiveHeartbeat now uid id).1.proposer = N.proposer
      by_cases hadopts : S.paxosNode.Adopts id
      · obtain ⟨-, -, hproposer⟩ := S.paxosNode.receiveHeartbeat_of_adopts now uid id hadopts
        rw [hproposer] at hleader ⊢
        split_ifs at hleader ⊢
        · simp [Proposer.setLeader] at hleader
        · exact h.leads hleader
      · obtain ⟨-, -, hproposer⟩ := S.paxosNode.receiveHeartbeat_of_not_adopts now uid id hadopts
        rw [hproposer] at hleader ⊢
        exact h.leads hleader
    | _ => exact h
  | checkTimer clock =>
    obtain ⟨ping', status', hcheck⟩ := checkTimer_timers ping pulse status copy clock
    refine ⟨?_, h.leads⟩
    simp only [Machine.next, machine, checkTimer, htimers, hcheck]
    split_ifs
    · exact ⟨ping', _, status', _, rfl, (copy.pulse_proposer _).trans hcopy⟩
    · exact ⟨ping', pulse, status', copy, rfl, hcopy⟩

/-- A firing pulse timer pulses the server's node exactly if that keeps pace with the copy. -/
theorem BuiltAround.pulsesNode_iff {N : PaxosNode} {S : Server} (h : BuiltAround N S)
    {clock : ℕ → Reading} (hfires : S.PulseFires clock) :
    S.PulsesNode clock ↔
      (N.isLeader → S.paxosNode.isLeader ∧ S.paxosNode.PulseIdle (clock 1).us) := by
  obtain ⟨ping, pulse, status, copy, htimers, hcopy⟩ := h.timers
  obtain ⟨ping', status', hcheck⟩ := checkTimer_timers ping pulse status copy clock
  have hdue : PulseIsDue pulse (clock 1).ms := by
    obtain ⟨t, ht, hdue⟩ := hfires
    rw [htimers] at ht
    obtain rfl := Option.mem_some_iff.mp ht
    exact (isDue_pulse_iff pulse (clock 1).ms copy).mp hdue
  rw [if_pos hdue] at hcheck
  have hnode : (S.checkTimer clock).1.paxosNode = S.paxosNode := rfl
  have hsent : (S.checkTimer clock).2 = (copy.pulse (clock 1).us).2 := by
    simp only [checkTimer, htimers, hcheck]
  have hmessages : (S.checkTimer clock).2.filter isMessage =
      if N.isLeader then [sendHeartbeat N.proposer.proposerUID N.getMyProposalID] else [] := by
    rw [hsent, PaxosNode.pulse_messages]
    simp only [PaxosNode.isLeader, PaxosNode.getMyProposalID, hcopy]
    rfl
  by_cases hN : N.isLeader
  · by_cases hleader : S.paxosNode.isLeader
    · have hproposer := h.leads hleader
      constructor
      · intro hpulses _
        exact ⟨hleader, (PaxosNode.pulse_eq_self_iff hleader _).mp
          (hpulses.paxosNode.symm.trans hnode)⟩
      · intro hidle
        refine ⟨?_, ?_⟩
        · rw [hmessages, PaxosNode.pulse_messages, if_pos hN, if_pos hleader]
          simp only [PaxosNode.getMyProposalID, hproposer]
        · rw [hnode, (PaxosNode.pulse_eq_self_iff hleader _).mpr (hidle hN).2]
    · -- the copy sends a heartbeat, and the node would not
      refine iff_of_false (fun hpulses => ?_) fun hidle => hleader (hidle hN).1
      have hlist := hpulses.messages
      rw [hmessages, PaxosNode.pulse_messages, if_pos hN, if_neg hleader] at hlist
      cases hlist
  · have hleader : ¬S.paxosNode.isLeader := by
      intro hleader
      rw [PaxosNode.isLeader, h.leads hleader] at hleader
      exact hN hleader
    refine iff_of_true ⟨?_, ?_⟩ fun h => absurd h hN
    · rw [hmessages, PaxosNode.pulse_messages, if_neg hN, if_neg hleader]
    · rw [hnode, PaxosNode.pulse_of_not_leader hleader]

/-- **The pulse timer.** In a run of a new server, whatever its leader flag holds at first, the
pulse timer drives the server's node exactly if the node keeps pace with its copy. When it fires in
such a run, a heartbeat is sent exactly if the node leads, with the node's own ID. -/
theorem timerDrivesNode_iff {myid : Str} {quorumSize : Int} {acceptorNow now : UInt64}
    {unset : PaxosNode.Unset} {actions : List ServerAction} :
    ((new myid quorumSize acceptorNow now unset).TimerDrivesNode actions ↔
      machine.Admits (KeepsPace unset.leader) (new myid quorumSize acceptorNow now unset)
        actions) ∧
      ((new myid quorumSize acceptorNow now unset).TimerDrivesNode actions →
        ∀ pre clock, pre ++ [.checkTimer clock] <+: actions →
          ∀ S, machine.run (new myid quorumSize acceptorNow now unset) pre = S →
            S.PulseFires clock → ∀ uid id, sendHeartbeat uid id ∈ (S.checkTimer clock).2 ↔
              S.paxosNode.isLeader ∧ uid = S.paxosNode.proposer.proposerUID ∧
                id = S.paxosNode.getMyProposalID) := by
  have hnew : (PaxosNode.new myid quorumSize 100000 50000 [] acceptorNow now unset).isLeader =
      unset.leader := rfl
  have hbuilt : ∀ pre, BuiltAround _
      (machine.run (new myid quorumSize acceptorNow now unset) pre) := fun pre =>
    (Machine.admits_const_iff.mpr fun _ _ => trivial).invariant (builtAround_ofNode _)
      fun S action hS _ => hS.next action
  refine ⟨⟨fun h => ?_, fun h pre clock hpre hfires => ?_⟩, ?_⟩
  · refine Machine.admits_iff_forall_prefix.mpr fun pre action hpre => ?_
    cases action with
    | handleMessage => trivial
    | checkTimer clock =>
      intro hleader hfires
      exact ((hbuilt pre).pulsesNode_iff hfires).mp (h pre clock hpre hfires) (hnew ▸ hleader)
  · refine ((hbuilt pre).pulsesNode_iff hfires).mpr fun hleader => ?_
    exact Machine.admits_iff_forall_prefix.mp h pre _ hpre (hnew ▸ hleader) hfires
  · rintro h pre clock hpre S rfl hfires
    exact (h pre clock hpre hfires).sendHeartbeat_mem_iff

/-- A node whose leader flag happens to be set steps down for the heartbeat of `B`. Its copy has not
heard of that, and the timer sends the heartbeat of `A`. -/
theorem demoted_node_still_pulsed :
    ¬(new [65] 2 0 0 ⟨true, false, false, false⟩).TimerDrivesNode
      [.handleMessage 1000 (.heartbeat [66] ⟨5, [66]⟩), .checkTimer fun _ => ⟨2, 2000⟩] := by
  intro h
  have hfires := h [.handleMessage 1000 (.heartbeat [66] ⟨5, [66]⟩)] (fun _ => ⟨2, 2000⟩)
    List.prefix_rfl ⟨_, rfl, by decide⟩
  have hsent : [sendHeartbeat [65] ⟨0, [65]⟩] = [] := hfires.messages
  cases hsent

end Server

end CppPaxos
