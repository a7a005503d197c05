import CppPaxos.NetworkSteps
import CppPaxos.Packets

/-!
# The event loop

`Run` of `server.cpp`: the server in full, with its network, its node and its timers. The
callbacks of the timers and the node, through the functions of `Messenger` that the server
implements, call functions of the network. What is left out is how bytes become messages.
-/

namespace CppPaxos

open Machines

/-- What the server's implementation of a function of `Messenger` calls. The notifications have
empty implementations. -/
def MessengerCall.networkCall (connect : ℕ → SocketPtr) : MessengerCall → Option NetworkCall
  | sendPrepare proposalID => some (.sendPrepare proposalID connect)
  | sendPromise toUID proposalID acceptID acceptValue =>
    some (.sendPromise toUID proposalID acceptID acceptValue connect)
  | sendAccept proposalID proposalValue => some (.sendAccept proposalID proposalValue connect)
  | sendPermit proposerUID proposalID acceptedValue =>
    some (.sendPermit proposerUID proposalID acceptedValue connect)
  | sendPrepareNACK proposerUID proposalID promisedID =>
    some (.sendPrepareNACK proposerUID proposalID promisedID connect)
  | sendAcceptNACK proposerUID proposalID promisedID =>
    some (.sendAcceptNACK proposerUID proposalID promisedID connect)
  | sendHeartbeat leaderUID leaderProposalID =>
    some (.sendHeartbeat leaderUID leaderProposalID connect)
  | onResolution .. | onLeadershipAcquired | onLeadershipLost | onLeadershipChange .. => none

/-- The same for a list of calls. -/
def MessengerCall.networkCalls (connect : ℕ → ℕ → SocketPtr) :
    List MessengerCall → List NetworkCall
  | [] => []
  | call :: calls =>
    (call.networkCall (connect 0)).toList ++ networkCalls (fun i => connect (i + 1)) calls

/-- What a check of the timers depends on: the readings of the clock by the timers and by
`SendPingMessage`, and what `Connect` returns in its broadcast and in those of the node. -/
structure CheckContext where
  clock : ℕ → Reading
  pingNow : UInt64
  pingConnect : ℕ → SocketPtr
  connect : ℕ → ℕ → SocketPtr

/-- What a call of a callback does to what it has bound, and the calls on the network. The copy of
the node that is bound refers to the same server. -/
def ServerCallback.networkCalls (c : CheckContext) (callback : ServerCallback) (now : UInt64) :
    ServerCallback × List NetworkCall :=
  match callback with
  | .sendPingMessage => (.sendPingMessage, [.sendPingMessage c.pingNow c.pingConnect])
  | .pulse paxosNode =>
    let (paxosNode, sent) := paxosNode.pulse now
    (.pulse paxosNode, MessengerCall.networkCalls c.connect sent)
  | .dumpStatus => (.dumpStatus, [])

/-- `class Server` in full. -/
structure RunningServer extends PacketServer, Server

namespace RunningServer

/-- The constructor. -/
def new (myid : Str) (quorumSize : Int) (acceptorNow now : UInt64) (unset : PaxosNode.Unset)
    (localIP : UInt32) (localPort : UInt16) (socketType : SocketType) : RunningServer :=
  let S := Server.new myid quorumSize acceptorNow now unset
  { network := .new myid (UInt64.ofInt quorumSize).toNat localIP localPort socketType
    paxosNode := S.paxosNode
    timerManager := S.timerManager }

/-- `Init`. -/
def init (S : RunningServer) (type : SocketType) (localIP : UInt32) (localPort : UInt16)
    (dstIP : UInt32) (dstPort : UInt16) : RunningServer :=
  { S with network := S.network.init type localIP localPort dstIP dstPort }

/-- `HandleMessage`, with the header of the message. -/
def handleMessage (S : RunningServer) (msg : Message) (c : PacketContext) :
    RunningServer × List Packet :=
  let (done, _) := (S.toPacketServer.handleMessage msg.cmd msg c).get
    (S.toPacketServer.handleMessage_isSome msg c)
  ({ S with toPacketServer := done.server }, done.sent)

/-- The calls on the network by a check of the timers. -/
def checkCalls (S : RunningServer) (c : CheckContext) : List NetworkCall :=
  (S.timerManager.checkTimer (ServerCallback.networkCalls c) c.clock).2

/-- `m_timerManager.checkTimer()`. -/
def checkTimer (S : RunningServer) (c : CheckContext) : RunningServer × List Packet :=
  let (timerManager, calls) :=
    S.timerManager.checkTimer (ServerCallback.networkCalls c) c.clock
  ({ S with
      network := ServerNetwork.machine.run S.network calls
      timerManager := timerManager },
    ServerNetwork.machine.trace S.network calls)

end RunningServer

/-- What happens in the loop of `Run`: the container hands on a message or the end of a connection,
or the timers are checked. -/
inductive LoopEvent
  | handleMessage (msg : Message) (c : PacketContext)
  | handleClose (s : SocketPtr)
  | checkTimer (c : CheckContext)

namespace RunningServer

/-- The event loop. -/
def machine : Machine RunningServer LoopEvent Packet where
  step S
    | .handleMessage msg c => S.handleMessage msg c
    | .handleClose s => ({ S with network := S.network.handleClose s }, [])
    | .checkTimer c => S.checkTimer c

/-- The calls on the network in an event. -/
def networkCalls (S : RunningServer) : LoopEvent → List NetworkCall
  | .handleMessage msg c => msg.networkCalls c
  | .handleClose s => [.handleClose s]
  | .checkTimer c => S.checkCalls c

end RunningServer

/-- What an event is for the node and the timers. -/
def LoopEvent.serverActions : LoopEvent → List ServerAction
  | handleMessage msg c => [.handleMessage c.now.us msg.serverMessage]
  | handleClose _ => []
  | checkTimer c => [.checkTimer c.clock]

/-- The kinds of calls on the network that the event loop makes. -/
inductive NetworkCall.InLoop : NetworkCall → Prop
  | handlePingMessage (m : PingMessage) (s : SocketPtr) (rtt : ℕ → UInt64) :
    InLoop (.handlePingMessage m s rtt)
  | handlePongMessage (m : PongMessage) (now : UInt64) : InLoop (.handlePongMessage m now)
  | sendPingMessage (now : UInt64) (connect : ℕ → SocketPtr) :
    InLoop (.sendPingMessage now connect)
  | sendHeartbeat (leaderUID : Str) (leaderProposalID : ProposalID) (connect : ℕ → SocketPtr) :
    InLoop (.sendHeartbeat leaderUID leaderProposalID connect)
  | handleClose (s : SocketPtr) : InLoop (.handleClose s)

/-- A call on the network is made for a call on the messenger. -/
theorem MessengerCall.mem_networkCalls {connect : ℕ → ℕ → SocketPtr} {calls : List MessengerCall}
    {call : NetworkCall} (h : call ∈ networkCalls connect calls) :
    ∃ m ∈ calls, ∃ connect, call ∈ m.networkCall connect := by
  induction calls generalizing connect with
  | nil => cases h
  | cons m calls ih =>
    rcases List.mem_append.mp h with hfirst | hrest
    · exact ⟨m, List.mem_cons_self, connect 0, Option.mem_toList.mp hfirst⟩
    · obtain ⟨m', hm', hcall⟩ := ih hrest
      exact ⟨m', List.mem_cons_of_mem _ hm', hcall⟩

/-- Calls on the network are made for messages only. -/
theorem MessengerCall.isMessage_of_networkCall {m : MessengerCall} {connect : ℕ → SocketPtr}
    {call : NetworkCall} (h : call ∈ m.networkCall connect) : m.isMessage := by
  cases m <;> first | rfl | cases h

/-- A callback sends a ping, or it is the copy of the node that sends its heartbeat. -/
theorem ServerCallback.mem_networkCalls {c : CheckContext} {callback : ServerCallback}
    {now : UInt64} {call : NetworkCall} (h : call ∈ (callback.networkCalls c now).2) :
    call = .sendPingMessage c.pingNow c.pingConnect ∨
      ∃ copy uid id connect, callback = .pulse copy ∧
        MessengerCall.sendHeartbeat uid id ∈ (copy.pulse now).2 ∧
          call = .sendHeartbeat uid id connect := by
  cases callback with
  | sendPingMessage => exact Or.inl (List.mem_singleton.mp h)
  | dumpStatus => cases h
  | pulse copy =>
    obtain ⟨m, hm, connect, hcall⟩ := MessengerCall.mem_networkCalls h
    have hmessage := MessengerCall.isMessage_of_networkCall hcall
    rcases PaxosNode.of_pulse_mem hm with ⟨uid, id, rfl⟩ | hnotice
    · exact Or.inr ⟨copy, uid, id, connect, rfl, hm, (Option.some_inj.mp hcall).symm⟩
    · exact absurd hmessage hnotice

namespace RunningServer

variable (S : RunningServer)

/-- A check of the timers calls for a ping, or for the heartbeat of a pulsed copy. -/
theorem mem_checkCalls {c : CheckContext} {call : NetworkCall} (h : call ∈ S.checkCalls c) :
    call = .sendPingMessage c.pingNow c.pingConnect ∨
      ∃ t ∈ S.timerManager.timers, ∃ copy now uid id connect, t.callback = .pulse copy ∧
        MessengerCall.sendHeartbeat uid id ∈ (PaxosNode.pulse copy now).2 ∧
          call = .sendHeartbeat uid id connect := by
  obtain ⟨t, ht, now, hcall⟩ := EzTimerManager.mem_executeAll h
  rcases ServerCallback.mem_networkCalls hcall with hping | ⟨copy, uid, id, connect, hbeat⟩
  · exact Or.inl hping
  · exact Or.inr ⟨t, ht, copy, now, uid, id, connect, hbeat⟩

/-- All that an event calls is of the kinds that the loop makes. -/
theorem inLoop_of_mem (event : LoopEvent) : ∀ call ∈ S.networkCalls event, call.InLoop := by
  intro call h
  cases event with
  | handleMessage msg c =>
    cases msg with
    | ping m => exact List.mem_singleton.mp h ▸ .handlePingMessage ..
    | pong m => exact List.mem_singleton.mp h ▸ .handlePongMessage ..
    | _ => cases h
  | handleClose s => exact List.mem_singleton.mp h ▸ .handleClose s
  | checkTimer c =>
    rcases S.mem_checkCalls h with rfl | ⟨t, -, copy, now, uid, id, connect, -, -, rfl⟩
    · exact .sendPingMessage ..
    · exact .sendHeartbeat ..

/-- What `HandleMessage` does to each part of the server. -/
theorem handleMessage_parts (msg : Message) (c : PacketContext) :
    (S.handleMessage msg c).1.network =
        ServerNetwork.machine.run S.network (msg.networkCalls c) ∧
      (S.handleMessage msg c).2 = ServerNetwork.machine.trace S.network (msg.networkCalls c) ∧
      (S.handleMessage msg c).1.toServer =
        (Server.handleMessage S.toServer c.now.us msg.serverMessage).1 := by
  obtain ⟨⟨done, ret⟩, hdone⟩ :=
    Option.isSome_iff_exists.mp (S.toPacketServer.handleMessage_isSome msg c)
  have heq : S.handleMessage msg c = ({ S with toPacketServer := done.server }, done.sent) := by
    simp only [handleMessage, hdone, Option.get_some]
  obtain ⟨hnetwork, hsent, hnode⟩ := PacketServer.handleMessage_steps hdone
  rw [heq]
  refine ⟨hnetwork, hsent, ?_⟩
  have htimers : (Server.handleMessage S.toServer c.now.us msg.serverMessage).1.timerManager =
      S.timerManager := by
    cases msg <;> rfl
  exact congrArg₂ Server.mk (hnode S.timerManager) htimers.symm

/-- The network goes through the calls of the event. -/
theorem next_network (event : LoopEvent) :
    (machine.next S event).network =
      ServerNetwork.machine.run S.network (S.networkCalls event) := by
  cases event with
  | handleMessage msg c => exact (S.handleMessage_parts msg c).1
  | handleClose s => rfl
  | checkTimer c => rfl

/-- What the server sends is what they send. -/
theorem emits_eq (event : LoopEvent) :
    machine.emits S event = ServerNetwork.machine.trace S.network (S.networkCalls event) := by
  cases event with
  | handleMessage msg c => exact (S.handleMessage_parts msg c).2.1
  | handleClose s => rfl
  | checkTimer c => rfl

/-- The node and the timers take the event as the server without a network does. -/
theorem next_toServer (event : LoopEvent) :
    (machine.next S event).toServer = Server.machine.run S.toServer event.serverActions := by
  cases event with
  | handleMessage msg c => exact (S.handleMessage_parts msg c).2.2
  | handleClose s => rfl
  | checkTimer c =>
    have hcallbacks : ∀ callback now, (ServerCallback.networkCalls c callback now).1 =
        (ServerCallback.call callback now).1 := by
      intro callback now
      cases callback <;> rfl
    have htimers := EzTimerManager.executeAll_fst_congr hcallbacks S.timerManager.timers c.clock
    exact congrArg (fun timers => Server.mk S.paxosNode ⟨timers⟩) htimers

/-! ### Runs of the loop -/

/-- The calls of the loop choose no acceptors. -/
theorem majorityAcceptors_run {calls : List NetworkCall} (h : ∀ call ∈ calls, call.InLoop)
    (N : ServerNetwork) :
    (ServerNetwork.machine.run N calls).majorityAcceptors = N.majorityAcceptors := by
  induction calls generalizing N with
  | nil => rfl
  | cons call calls ih =>
    obtain ⟨hcall, hcalls⟩ := List.forall_mem_cons.mp h
    have hother : ∀ p connect, call ≠ .sendPrepare p connect := by
      rintro p connect rfl
      cases hcall
    rw [Machine.run_cons, ih hcalls, ServerNetwork.majorityAcceptors_next hother]

/-- **The event loop and its parts.** In every run the network goes through calls of five kinds, and
what the server sends is what they send; the node and the timers go through the same messages and
checks. So the acceptors stay those that were chosen before. -/
theorem eventLoop_refines (S : RunningServer) (events : List LoopEvent) :
    ∃ calls : List NetworkCall, (∀ call ∈ calls, call.InLoop) ∧
      (machine.run S events).network = ServerNetwork.machine.run S.network calls ∧
      machine.trace S events = ServerNetwork.machine.trace S.network calls ∧
      (machine.run S events).toServer =
        Server.machine.run S.toServer (events.flatMap LoopEvent.serverActions) ∧
      (machine.run S events).network.majorityAcceptors = S.network.majorityAcceptors := by
  have hloop : ∀ call ∈ machine.scripts networkCalls S events, call.InLoop :=
    Machine.forall_mem_scripts inLoop_of_mem S events
  have hnetwork := Machine.run_scripts (fun S => S.network) next_network S events
  refine ⟨machine.scripts networkCalls S events, hloop, hnetwork, ?_, ?_, ?_⟩
  · exact Machine.trace_scripts (fun S => S.network) next_network emits_eq S events
  · rw [← machine.scripts_const LoopEvent.serverActions S]
    exact Machine.run_scripts toServer next_toServer S events
  · rw [hnetwork]
    exact majorityAcceptors_run hloop S.network

end RunningServer

end CppPaxos
