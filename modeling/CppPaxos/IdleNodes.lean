import CppPaxos.ServerCluster

/-!
# What the nodes of a cluster of servers do

No server asks its node to prepare, and of the messages of Paxos only heartbeats are handed on,
which the leaders send. So if no leader flag happens to be set at the start, nothing ever
reaches a node, and the servers exchange pings and pongs only.
-/

namespace CppPaxos

open Machines Tables

/-- A heartbeat for the only address of the broadcasts, which has a socket, is sent. -/
theorem ServerNetwork.emits_sendHeartbeat {S : ServerNetwork} {addr : PeerAddr} {s : SocketPtr}
    (htargets : S.broadcastTargets = [addr]) (hsocket : Map.get? S.addr2socket addr = some s)
    (hs : s ≠ .null) (uid : Str) (id : ProposalID) (connect : ℕ → SocketPtr) :
    machine.emits S (.sendHeartbeat uid id connect) =
      [(s, .heartbeat ⟨S.getMyNodeInfo, uid, id⟩)] := by
  change (S.sendMessageToEach _ connect S.broadcastTargets).2 = _
  rw [htargets, sendMessageToEach_cons_snd, sendMessageToPeer, hsocket]
  dsimp only
  rw [if_neg hs]
  rfl

namespace ServerSetup

variable {ι : Type*} (S : ServerSetup ι)

/-- The node of a server and its copy are as they were constructed, and only pings and pongs have
been sent. -/
structure Idle (i : ι) (T : RunningServer) (sent : List Packet) : Prop where
  named : T.network.PeersNamed
  paxosNode : T.paxosNode = (S.server i).paxosNode
  copies : ∀ t ∈ T.timerManager.timers, ∀ copy, t.callback = .pulse copy →
    copy = (S.server i).paxosNode
  sent : ∀ packet ∈ sent, packet.2.type = .ping ∨ packet.2.type = .pong

variable {S} {i : ι} {T : RunningServer} {sent : List Packet}

/-- At the start all nodes are idle. -/
theorem idle_start (S : ServerSetup ι) (i : ι) : S.Idle i (S.start.parties i) (S.start.sent i) := by
  refine ⟨?_, rfl, ?_, ?_⟩
  · intro uid peer hpeer
    cases hpeer
  · intro t ht copy hcopy
    change t ∈ (Server.ofNode (S.server i).paxosNode).timerManager.timers at ht
    rw [Server.ofNode_timerManager] at ht
    simp only [Server.timers, List.mem_cons, List.not_mem_nil, or_false] at ht
    rcases ht with rfl | rfl | rfl <;> cases hcopy
    rfl
  · intro packet hpacket
    cases hpacket

/-- The leader flag is as the constructor found it. -/
theorem isLeader_server (S : ServerSetup ι) (i : ι) :
    (S.server i).paxosNode.proposer.leader = (S.unset i).leader := rfl

/-- A node that does not lead does nothing when it is pulsed. -/
theorem pulse_server (hflag : (S.unset i).leader = false) (now : UInt64) :
    (S.server i).paxosNode.pulse now = ((S.server i).paxosNode, []) := by
  rw [PaxosNode.pulse, isLeader_server, hflag]
  rfl

/-- A ping or a pong leaves the node and the timers alone. -/
theorem toServer_next_of_type (T : RunningServer) {msg : Message} (c : PacketContext)
    (h : msg.type = .ping ∨ msg.type = .pong) :
    (RunningServer.machine.next T (.handleMessage msg c)).toServer = T.toServer := by
  rw [RunningServer.next_toServer]
  cases msg with
  | ping m | pong m => rfl
  | _ => rcases h with h | h <;> cases h

/-- Neither the messages that are sent nor the checks of the timers concern the node. -/
theorem Idle.next (h : S.Idle i T sent) (hflag : (S.unset i).leader = false) {event : LoopEvent}
    (hmsg : ∀ msg ∈ event.message, msg.type = .ping ∨ msg.type = .pong) :
    S.Idle i (RunningServer.machine.next T event)
      (sent ++ RunningServer.machine.emits T event) := by
  have hparts : (RunningServer.machine.next T event).paxosNode = T.paxosNode ∧
      ∀ t ∈ (RunningServer.machine.next T event).timerManager.timers, ∀ copy,
        t.callback = .pulse copy → copy = (S.server i).paxosNode := by
    cases event with
    | handleMessage msg c =>
      have hsame := toServer_next_of_type T c (hmsg msg rfl)
      have htimers := congrArg Server.timerManager hsame
      refine ⟨congrArg Server.paxosNode hsame, ?_⟩
      change (RunningServer.machine.next T (.handleMessage msg c)).timerManager =
        T.timerManager at htimers
      rw [htimers]
      exact h.copies
    | handleClose s => exact ⟨rfl, h.copies⟩
    | checkTimer c =>
      refine ⟨rfl, fun t ht copy hcopy => ?_⟩
      obtain ⟨t', ht', hkept | ⟨now, hcalled⟩⟩ := EzTimerManager.callback_of_mem_executeAll ht
      · exact h.copies t' ht' copy (hkept.symm.trans hcopy)
      · rw [hcalled] at hcopy
        cases hcallback : t'.callback with
        | pulse old =>
          rw [hcallback, h.copies t' ht' old hcallback, ServerCallback.networkCalls,
            pulse_server hflag] at hcopy
          cases hcopy
          rfl
        | sendPingMessage | dumpStatus =>
          rw [hcallback] at hcopy
          cases hcopy
  refine ⟨T.peersNamed_next h.named event, hparts.1.trans h.paxosNode, hparts.2, ?_⟩
  intro packet hpacket
  rcases List.mem_append.mp hpacket with hold | hnew
  · exact h.sent packet hold
  · rcases T.snd_of_mem_emits h.named hnew with
      htype | hdescribes | ⟨-, t, ht, copy, now, uid, id, hcopy, hbeat⟩
    · exact Or.inr htype
    · exact Or.inl hdescribes.type_eq
    · rw [h.copies t ht copy hcopy, pulse_server hflag] at hbeat
      cases hbeat

/-- A first check of the timers, in which `Connect` succeeds. -/
def firstCheck : CheckContext := ⟨fun _ => ⟨1, 0⟩, 1, fun _ => 1, fun _ _ => 1⟩

/-- The calls on the network for a pulse of a leader. -/
theorem networkCalls_pulse {N : PaxosNode} (h : N.proposer.leader) (now : UInt64)
    (connect : SocketPtr) :
    MessengerCall.networkCalls (fun _ _ => connect) (N.pulse now).2 =
      [.sendHeartbeat N.proposer.proposerUID N.proposer.proposalID fun _ => connect] := by
  rw [PaxosNode.pulse_snd_of_leader h]
  split <;> rfl

/-- A node whose flag is set sends a heartbeat at the first check, through the socket that the ping
just before it has opened. -/
theorem heartbeat_of_leader (hflag : (S.unset i).leader = true) :
    ∃ packet ∈ RunningServer.machine.emits (S.server i) (.checkTimer firstCheck),
      packet.2.type = .heartbeat := by
  have hcalls : (S.server i).checkCalls firstCheck = .sendPingMessage 1 (fun _ => 1) ::
      (MessengerCall.networkCalls (fun _ _ => 1) ((S.server i).paxosNode.pulse 0).2 ++ []) := rfl
  have hconnects : ServerNetwork.machine.next (S.server i).network
      (.sendPingMessage 1 fun _ => 1) =
        { (S.server i).network with
          addr2socket := (S.server i).network.addr2socket.assign (S.dst i, 1)
          socket2addr := (S.server i).network.socket2addr.assign (1, S.dst i) } := rfl
  rw [networkCalls_pulse hflag] at hcalls
  have hsent : RunningServer.machine.emits (S.server i) (.checkTimer firstCheck) =
      ServerNetwork.machine.trace (S.server i).network ((S.server i).checkCalls firstCheck) := rfl
  have hsocket : Map.get? (ServerNetwork.machine.next (S.server i).network
      (.sendPingMessage 1 fun _ => 1)).addr2socket (S.dst i) = some 1 := by
    rw [hconnects]
    exact (Map.get?_assign _ _ _ _).trans (if_pos rfl)
  have htargets : (ServerNetwork.machine.next (S.server i).network
      (.sendPingMessage 1 fun _ => 1)).broadcastTargets = [S.dst i] := by
    rw [hconnects]
    rfl
  rw [hsent, hcalls, Machine.trace_cons, List.append_nil, Machine.trace_cons,
    ServerNetwork.emits_sendHeartbeat htargets hsocket Nat.one_ne_zero]
  exact ⟨_, List.mem_append_right _ (List.mem_append_left _ List.mem_cons_self), rfl⟩

variable [DecidableEq ι]

/-- All nodes stay idle, since nothing but pings and pongs is handed on. -/
theorem idle_run {acts : List (ι × LoopEvent)}
    (hrun : (RunningServer.machine.network ι).Admits ServerCluster.Enabled S.start acts)
    (hflags : ∀ i, (S.unset i).leader = false) (i : ι) :
    S.Idle i (((RunningServer.machine.network ι).run S.start acts).parties i)
      (((RunningServer.machine.network ι).run S.start acts).sent i) := by
  refine hrun.network_invariant (I := fun sent i T => S.Idle i T (sent i)) (idle_start S) ?_ ?_ i
  · intro sent sent' i T hT hsent _
    rwa [hsent]
  · intro C i event hidle henabled
    rw [Machine.network_next_sent_self]
    refine (hidle i).next (hflags i) fun msg hmsg => ?_
    obtain ⟨k, packet, hpacket, hwire⟩ := henabled msg hmsg
    rw [← msg.wire_type, ← hwire, Message.wire_type]
    exact (hidle k).sent packet hpacket

/-- **A cluster of servers only pings**, exactly if no leader flag is set at the start: then, in
every run, the node of each server stays as it was constructed, and all that is ever sent are
pings and pongs. -/
theorem only_pings_iff (S : ServerSetup ι) :
    (∀ acts, (RunningServer.machine.network ι).Admits ServerCluster.Enabled S.start acts → ∀ i,
      (((RunningServer.machine.network ι).run S.start acts).parties i).paxosNode =
          (S.start.parties i).paxosNode ∧
        ∀ packet ∈ ((RunningServer.machine.network ι).run S.start acts).sent i,
          packet.2.type = .ping ∨ packet.2.type = .pong) ↔
      ∀ i, (S.start.parties i).paxosNode.isLeader = false := by
  constructor
  · intro hall i
    by_contra hflag
    have hleader : (S.unset i).leader = true := Bool.eq_true_of_not_eq_false hflag
    obtain ⟨packet, hpacket, htype⟩ := heartbeat_of_leader hleader
    have hsent : packet ∈ ((RunningServer.machine.network ι).run S.start
        [(i, .checkTimer firstCheck)]).sent i := by
      rw [Machine.run_cons, Machine.run_nil, Machine.network_next_sent_self]
      exact hpacket
    have hadmits : (RunningServer.machine.network ι).Admits ServerCluster.Enabled S.start
        [(i, .checkTimer firstCheck)] := by
      refine ⟨fun msg hmsg => ?_, trivial⟩
      cases hmsg
    rcases (hall _ hadmits i).2 packet hsent with hping | hpong
    · rw [htype] at hping
      cases hping
    · rw [htype] at hpong
      cases hpong
  · intro hflags acts hrun i
    have hidle := idle_run hrun hflags i
    exact ⟨hidle.paxosNode, hidle.sent⟩

end ServerSetup

end CppPaxos
