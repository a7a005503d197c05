import CppPaxos.Broadcast
import CppPaxos.Library.Gossip
import CppPaxos.PeerKnowledge
import Mathlib.Data.Fintype.Defs

/-!
# A cluster of servers

Servers that exchange messages over a network which may lose, repeat, delay and reorder
them. Each of them is started with its own address and the address of one other server, and
then runs its event loop. Their pings are gossip: a ping carries all that its sender knows of
the cluster.
-/

namespace CppPaxos

open Machines Tables

/-! ### What is sent of a message -/

/-- A message without the round trip times, which are not sent. -/
def Message.wire (m : Message) : Message := m.withRtt 0

/-- The UIDs and addresses that a message tells the server about. -/
def Message.addresses : Message → List (Str × PeerAddr)
  | ping m => (m.myInfo :: m.peers.entries).map fun peer => (peer.id, peer.addr)
  | _ => []

namespace Message

/-- A message keeps its type on the wire. -/
@[simp] theorem wire_type (m : Message) : m.wire.type = m.type := by cases m <;> rfl

/-- It also keeps the addresses that it names. -/
@[simp] theorem wire_addresses (m : Message) : m.wire.addresses = m.addresses := by
  cases m with
  | ping m =>
    change _ :: (m.peers.entries.map PeerInfo.copy).map _ = _
    rw [List.map_map]
    rfl
  | _ => rfl

/-- Only pings tell of addresses. -/
theorem type_of_mem_addresses {m : Message} {pair : Str × PeerAddr} (h : pair ∈ m.addresses) :
    m.type = .ping := by
  cases m with
  | ping m => rfl
  | _ => cases h

/-- The UIDs that a message names. -/
def news (m : Message) : Set Str := {uid | uid ≠ [] ∧ ∃ pair ∈ m.addresses, pair.1 = uid}

end Message

/-- The message that an event hands on. -/
def LoopEvent.message : LoopEvent → Option Message
  | handleMessage msg _ => some msg
  | handleClose _ | checkTimer _ => none

namespace RunningServer

variable (S : RunningServer)

/-- The peers that the calls of an event carry are those that its message tells of. -/
theorem mem_carried_iff (event : LoopEvent) (uid : Str) (addr : PeerAddr) :
    (∃ call ∈ S.networkCalls event, ∃ peer ∈ call.carried, peer.id = uid ∧ peer.addr = addr) ↔
      ∃ msg ∈ event.message, (uid, addr) ∈ msg.addresses := by
  cases event with
  | handleMessage msg c =>
    cases msg with
    | ping m =>
      simp [networkCalls, Message.networkCalls, NetworkCall.carried, LoopEvent.message,
        Message.addresses, eq_comm]
    | pong m =>
      simp [networkCalls, Message.networkCalls, NetworkCall.carried, LoopEvent.message,
        Message.addresses]
    | _ => simp [networkCalls, Message.networkCalls, LoopEvent.message, Message.addresses]
  | handleClose s => simp [networkCalls, NetworkCall.carried, LoopEvent.message]
  | checkTimer c =>
    refine iff_of_false ?_ (by simp [LoopEvent.message])
    rintro ⟨call, hcall, peer, hpeer, -⟩
    rcases S.mem_checkCalls hcall with rfl | ⟨t, -, copy, now, uid, id, connect, -, -, rfl⟩ <;>
      cases hpeer

/-- Everyone the server knows of, itself included. -/
def known : Set Str :=
  {uid | uid ≠ [] ∧ (uid = S.network.myUID ∨ (Map.get? S.network.peers uid).isSome)}

/-- Which UIDs a server knows. -/
theorem mem_known {uid : Str} : uid ∈ S.known ↔ uid ≠ [] ∧
    (uid = S.network.myUID ∨ (Map.get? S.network.peers uid).isSome) := Iff.rfl

/-- An event adds the UIDs that its message names, and removes none. -/
theorem mem_known_next (event : LoopEvent) (uid : Str) :
    uid ∈ (machine.next S event).known ↔
      uid ∈ S.known ∨ ∃ msg ∈ event.message, uid ∈ msg.news := by
  have hloop := S.inLoop_of_mem event
  have hmine : (machine.next S event).network.myUID = S.network.myUID := by
    rw [next_network]
    exact congrArg PeerInfo.id (ServerNetwork.getMyNodeInfo_run hloop S.network)
  have hcarried : (∃ call ∈ S.networkCalls event, ∃ peer ∈ call.carried, peer.id = uid) ↔
      ∃ msg ∈ event.message, ∃ pair ∈ msg.addresses, pair.1 = uid := by
    have hpairs := S.mem_carried_iff event uid
    constructor
    · rintro ⟨call, hcall, peer, hpeer, hid⟩
      obtain ⟨msg, hmsg, hpair⟩ := (hpairs peer.addr).mp ⟨call, hcall, peer, hpeer, hid, rfl⟩
      exact ⟨msg, hmsg, _, hpair, rfl⟩
    · rintro ⟨msg, hmsg, ⟨_, addr⟩, hpair, rfl⟩
      obtain ⟨call, hcall, peer, hpeer, hid, -⟩ := (hpairs addr).mpr ⟨msg, hmsg, hpair⟩
      exact ⟨call, hcall, peer, hpeer, hid⟩
  have hnews : (∃ msg ∈ event.message, uid ∈ msg.news) ↔
      uid ≠ [] ∧ ∃ msg ∈ event.message, ∃ pair ∈ msg.addresses, pair.1 = uid := by
    constructor
    · rintro ⟨msg, hmsg, hne, hnamed⟩
      exact ⟨hne, msg, hmsg, hnamed⟩
    · rintro ⟨hne, msg, hmsg, hnamed⟩
      exact ⟨msg, hmsg, hne, hnamed⟩
  rw [mem_known, mem_known, hmine, next_network, ServerNetwork.isSome_run hloop, hcarried, hnews]
  generalize (∃ msg ∈ event.message, ∃ pair ∈ msg.addresses, pair.1 = uid) = named
  by_cases huid : uid = S.network.myUID
  · simp only [huid, true_or, and_true]
    exact (or_iff_left_of_imp And.left).symm
  · simp only [huid, false_or, ne_eq, not_false_eq_true, and_true]
    tauto

/-- The entries stay named. -/
theorem peersNamed_next (h : S.network.PeersNamed) (event : LoopEvent) :
    (machine.next S event).network.PeersNamed := by
  rw [next_network]
  generalize S.networkCalls event = calls
  induction calls using List.reverseRecOn with
  | nil => exact h
  | append_singleton calls call ih =>
    rw [Machine.run_concat]
    exact ih.next call

/-- The calls of a check only send. -/
theorem sending_of_mem_checkCalls {c : CheckContext} {call : NetworkCall}
    (h : call ∈ S.checkCalls c) (T : ServerNetwork) : (T.sending call).isSome := by
  rcases S.mem_checkCalls h with rfl | ⟨t, -, copy, now, uid, id, connect, -, -, rfl⟩ <;> rfl

/-- A ping names everyone that its sender knows of, with the addresses that the sender knows. -/
structure Describes (m : Message) : Prop where
  type_eq : m.type = .ping
  news_eq : m.news = S.known
  addresses : ∀ pair ∈ m.addresses, pair = (S.network.myUID, S.network.getMyNodeInfo.addr) ∨
    ∃ entry, Map.get? S.network.peers pair.1 = some entry ∧ entry.addr = pair.2

/-- `SendPingMessage` describes the server as it is. -/
theorem describes_ping (h : S.network.PeersNamed) (now : UInt64) :
    S.Describes (.ping ⟨now, S.network.getMyNodeInfo,
      .ofList (S.network.peers.entries.map fun entry => entry.2.copy)⟩) := by
  have hpairs : ∀ pair : Str × PeerAddr, pair ∈ (Message.ping ⟨now, S.network.getMyNodeInfo,
      .ofList (S.network.peers.entries.map fun entry => entry.2.copy)⟩).addresses ↔
      pair = (S.network.myUID, S.network.getMyNodeInfo.addr) ∨
        ∃ entry, Map.get? S.network.peers pair.1 = some entry ∧ entry.addr = pair.2 := by
    intro pair
    rw [Message.addresses, h.pingPeers, List.map_cons, List.mem_cons, List.map_map, List.mem_map]
    refine or_congr Iff.rfl ?_
    constructor
    · rintro ⟨⟨uid, entry⟩, hentry, rfl⟩
      have hfound := Map.get?_eq_some_iff.mpr hentry
      refine ⟨entry, ?_, rfl⟩
      change Map.get? S.network.peers entry.id = _
      rwa [h uid entry hfound]
    · rintro ⟨entry, hfound, haddr⟩
      refine ⟨(pair.1, entry), Map.get?_eq_some_iff.mp hfound, ?_⟩
      have hid : entry.id = pair.1 := h pair.1 entry hfound
      exact Prod.ext hid haddr
  refine ⟨rfl, ?_, fun pair => (hpairs pair).mp⟩
  ext uid
  refine and_congr Iff.rfl ?_
  constructor
  · rintro ⟨pair, hpair, rfl⟩
    rcases (hpairs pair).mp hpair with rfl | ⟨entry, hentry, -⟩
    · exact Or.inl rfl
    · exact Or.inr (by rw [hentry]; rfl)
  · rintro (rfl | hfound)
    · exact ⟨_, (hpairs _).mpr (Or.inl rfl), rfl⟩
    · obtain ⟨entry, hentry⟩ := Option.isSome_iff_exists.mp hfound
      exact ⟨(uid, entry.addr), (hpairs _).mpr (Or.inr ⟨entry, hentry, rfl⟩), rfl⟩

/-- It is a matter of the peers and the own entry. -/
theorem Describes.of_network {S T : RunningServer} {m : Message} (h : S.Describes m)
    (hmine : T.network.getMyNodeInfo = S.network.getMyNodeInfo)
    (hpeers : T.network.peers = S.network.peers) : T.Describes m := by
  have huid : T.network.myUID = S.network.myUID := congrArg PeerInfo.id hmine
  refine ⟨h.type_eq, ?_, ?_⟩
  · rw [h.news_eq, known, known, hpeers, huid]
  · rw [hpeers, huid, hmine]
    exact h.addresses

/-- What the event loop sends is a pong to a ping, or a ping that describes the server, or the
heartbeat of a copy of the node. -/
theorem snd_of_mem_emits (h : S.network.PeersNamed) {event : LoopEvent} {packet : Packet}
    (hpacket : packet ∈ machine.emits S event) :
    packet.2.type = .pong ∨ S.Describes packet.2 ∨
      packet.2.type = .heartbeat ∧ ∃ t ∈ S.timerManager.timers, ∃ copy now uid id,
        t.callback = .pulse copy ∧
          MessengerCall.sendHeartbeat uid id ∈ (PaxosNode.pulse copy now).2 := by
  rw [emits_eq] at hpacket
  obtain ⟨pre, call, hpre, hsent⟩ := Machine.mem_trace_iff.mp hpacket
  have hcall : call ∈ S.networkCalls event := hpre.subset (by simp)
  rcases ServerNetwork.snd_of_mem_emits (S.inLoop_of_mem event call hcall) hsent with
    ⟨m, s, rtt, -, hsnd⟩ | ⟨now, connect, rfl, hsnd⟩ | ⟨uid, id, connect, rfl, hsnd⟩
  · exact Or.inl (by rw [hsnd]; rfl)
  · cases event with
    | handleMessage msg c => cases msg <;> simp [networkCalls, Message.networkCalls] at hcall
    | handleClose s => simp [networkCalls] at hcall
    | checkTimer c =>
      have hsends : ∀ call ∈ pre, ∀ T : ServerNetwork, (T.sending call).isSome := fun call hmem =>
        S.sending_of_mem_checkCalls (hpre.subset (List.mem_append_left _ hmem))
      have hloop : ∀ call ∈ pre, call.InLoop := fun call hmem =>
        S.inLoop_of_mem (.checkTimer c) call (hpre.subset (List.mem_append_left _ hmem))
      have hsame := ServerNetwork.samePeers_run hsends S.network
      have hnamed : (ServerNetwork.machine.run S.network pre).PeersNamed := by
        rwa [ServerNetwork.PeersNamed, hsame.peers]
      rw [hsnd]
      refine Or.inr (Or.inl ?_)
      have hthen := describes_ping
        { S with network := ServerNetwork.machine.run S.network pre } hnamed now
      exact hthen.of_network (ServerNetwork.getMyNodeInfo_run hloop S.network).symm
        hsame.peers.symm
  · cases event with
    | handleMessage msg c => cases msg <;> simp [networkCalls, Message.networkCalls] at hcall
    | handleClose s => simp [networkCalls] at hcall
    | checkTimer c =>
      rcases S.mem_checkCalls hcall with heq | ⟨t, ht, copy, now, uid', id', _, hpulse, hbeat, -⟩
      · cases heq
      · exact Or.inr (Or.inr ⟨by rw [hsnd]; rfl, t, ht, copy, now, uid', id', hpulse, hbeat⟩)

/-- What is sent only tells what the server knows, itself included. -/
theorem addresses_of_mem_emits {P : Str → PeerAddr → Prop} (h : S.network.Vouched P)
    (hme : P S.network.myUID S.network.getMyNodeInfo.addr) {event : LoopEvent} {packet : Packet}
    (hpacket : packet ∈ machine.emits S event) : ∀ pair ∈ packet.2.addresses, P pair.1 pair.2 := by
  intro pair hpair
  have hping := Message.type_of_mem_addresses hpair
  rcases S.snd_of_mem_emits h.named hpacket with htype | hdescribes | ⟨htype, -⟩
  · rw [hping] at htype
    cases htype
  · rcases hdescribes.addresses pair hpair with rfl | ⟨entry, hentry, haddr⟩
    · exact hme
    · rw [← haddr]
      exact h.peers pair.1 entry hentry
  · rw [hping] at htype
    cases htype

/-- What holds of all that a message tells of holds of the peers that its calls carry. -/
theorem calls_vouched {P : Str → PeerAddr → Prop} {event : LoopEvent}
    (hP : ∀ msg ∈ event.message, ∀ pair ∈ msg.addresses, P pair.1 pair.2) :
    ∀ call ∈ S.networkCalls event, call.InLoop ∧
      ∀ peer ∈ call.carried, peer.id ≠ [] → P peer.id peer.addr := by
  refine fun call hcall => ⟨S.inLoop_of_mem event call hcall, fun peer hpeer _ => ?_⟩
  obtain ⟨msg, hmsg, hpair⟩ :=
    (S.mem_carried_iff event peer.id peer.addr).mp ⟨call, hcall, peer, hpeer, rfl, rfl⟩
  exact hP msg hmsg _ hpair

/-- An event keeps what holds of the peers, if it holds of those that its message tells of. -/
theorem vouched_next {P : Str → PeerAddr → Prop} (h : S.network.Vouched P) {event : LoopEvent}
    (hP : ∀ msg ∈ event.message, ∀ pair ∈ msg.addresses, P pair.1 pair.2) :
    (machine.next S event).network.Vouched P := by
  have hcalls := S.calls_vouched hP
  rw [next_network]
  exact (Machine.admits_const_iff.mpr hcalls).invariant h
    fun _ _ h hcall => h.next hcall.1 hcall.2

/-- The addresses of the configured peers never change. -/
theorem stablePeers_next (event : LoopEvent) :
    (machine.next S event).network.stablePeers.map PeerInfo.addr =
      S.network.stablePeers.map PeerInfo.addr := by
  have hcalls := S.inLoop_of_mem event
  rw [next_network]
  generalize S.networkCalls event = calls at hcalls
  induction calls using List.reverseRecOn with
  | nil => rfl
  | append_singleton calls call ih =>
    obtain ⟨hcalls, hcall⟩ := List.forall_mem_append.mp hcalls
    have hsame : call.configured = none := by
      cases List.forall_mem_singleton.mp hcall <;> rfl
    rw [Machine.run_concat, ServerNetwork.stablePeers_next, hsame, ih hcalls, Option.toList_none,
      List.append_nil]

/-- No event changes who and where a server is. -/
theorem getMyNodeInfo_next (event : LoopEvent) :
    (machine.next S event).network.getMyNodeInfo = S.network.getMyNodeInfo := by
  rw [next_network]
  exact ServerNetwork.getMyNodeInfo_run (S.inLoop_of_mem event) S.network

/-- The pings of the servers are gossip. -/
def pings : Gossip machine Message Str where
  Inv S := S.network.PeersNamed
  known := known
  content packet := packet.2.wire
  taken event := event.message.map Message.wire
  Carries m := m.type = .ping
  news := Message.news
  inv_next S event h := S.peersNamed_next h event
  known_next S event _ uid := by
    rw [mem_known_next]
    refine or_congr Iff.rfl ?_
    constructor
    · rintro ⟨msg, hmsg, hne, pair, hpair, hid⟩
      rw [← msg.wire_addresses] at hpair
      exact ⟨msg.wire, Option.mem_map_of_mem _ hmsg, Message.type_of_mem_addresses hpair, hne, pair,
        hpair, hid⟩
    · rintro ⟨_, hwire, -, hne, pair, hpair, hid⟩
      obtain ⟨msg, hmsg, rfl⟩ := Option.mem_map.mp hwire
      rw [Message.wire_addresses] at hpair
      exact ⟨msg, hmsg, hne, pair, hpair, hid⟩
  news_eq S event h packet hpacket hping := by
    rw [Message.wire_type] at hping
    rw [Message.news, Message.wire_addresses]
    rcases S.snd_of_mem_emits h hpacket with htype | hdescribes | ⟨htype, -⟩
    · rw [hping] at htype
      cases htype
    · exact hdescribes.news_eq
    · rw [hping] at htype
      cases htype

end RunningServer

/-! ### The servers and the messages between them -/

/-- With what the servers of a cluster are started: the arguments of the constructor and of `Init`,
the readings of the clock, and the first contents of the members that the constructors leave
unset. -/
structure ServerSetup (ι : Type*) where
  myid : ι → Str
  quorumSize : Int
  addr : ι → PeerAddr
  dstIP : ι → UInt32
  dstPort : ι → UInt16
  acceptorNow : ι → UInt64
  now : ι → UInt64
  unset : ι → PaxosNode.Unset
  unsetAddr : ι → PeerAddr
  myid_injective : Function.Injective myid
  myid_ne_nil : ∀ i, myid i ≠ []

/-- The servers and what they have handed to their sockets. -/
abbrev ServerCluster (ι : Type*) := Network ι RunningServer Packet

/-- A message that is handed on has been sent by some server. -/
def ServerCluster.Enabled {ι : Type*} (C : ServerCluster ι) (act : ι × LoopEvent) : Prop :=
  ∀ msg ∈ act.2.message, ∃ j, ∃ packet ∈ C.sent j, packet.2.wire = msg.wire

instance {ι : Type*} [Fintype ι] (C : ServerCluster ι) : DecidablePred C.Enabled := fun act =>
  inferInstanceAs (Decidable (∀ msg ∈ act.2.message, ∃ j, ∃ packet ∈ C.sent j, _))

namespace ServerSetup

variable {ι : Type*} (S : ServerSetup ι)

/-- The address that a server is configured with. -/
def dst (i : ι) : PeerAddr := ⟨S.dstIP i, S.dstPort i, (S.addr i).socketType⟩

/-- A server before it enters the event loop. -/
def server (i : ι) : RunningServer :=
  (RunningServer.new (S.myid i) S.quorumSize (S.acceptorNow i) (S.now i) (S.unset i)
    (S.unsetAddr i).ip (S.unsetAddr i).port (S.unsetAddr i).socketType).init
    (S.addr i).socketType (S.addr i).ip (S.addr i).port (S.dstIP i) (S.dstPort i)

/-- The start: nothing has been sent. -/
def start : ServerCluster ι := ⟨S.server, fun _ => []⟩

/-- The UID and the address of one server. -/
def Belongs (uid : Str) (addr : PeerAddr) : Prop := ∃ k, uid = S.myid k ∧ addr = S.addr k

/-- A server knows who it is and where it was configured to begin, what it knows of the others is
true, and so is what it has sent. -/
structure Truthful (i : ι) (T : RunningServer) (sent : List Packet) : Prop where
  me : T.network.getMyNodeInfo = PeerInfo.copy ⟨S.myid i, S.addr i, 0⟩
  dst : T.network.stablePeers.map PeerInfo.addr = [S.dst i]
  vouched : T.network.Vouched S.Belongs
  sent : ∀ packet ∈ sent, ∀ pair ∈ packet.2.addresses, S.Belongs pair.1 pair.2

variable {S} {i : ι} {T : RunningServer} {sent : List Packet}

/-- A truthful server has the UID that it was given. -/
theorem Truthful.myUID_eq (h : S.Truthful i T sent) : T.network.myUID = S.myid i :=
  congrArg PeerInfo.id h.me

/-- Its own UID and address belong together. -/
theorem Truthful.belongs (h : S.Truthful i T sent) :
    S.Belongs T.network.myUID T.network.getMyNodeInfo.addr := by
  refine ⟨i, h.myUID_eq, ?_⟩
  rw [h.me]
  rfl

/-- All servers are truthful at the start. -/
theorem truthful_start (S : ServerSetup ι) (i : ι) :
    S.Truthful i (S.start.parties i) (S.start.sent i) := by
  refine ⟨rfl, rfl, ⟨?_, ?_, ?_, ?_⟩, fun packet hpacket => ?_⟩
  · intro uid entry hentry
    cases hentry
  · intro uid entry hentry
    cases hentry
  · intro uid entry hentry
    cases hentry
  · intro peer hpeer hid
    rw [List.mem_singleton.mp hpeer] at hid
    exact absurd rfl hid
  · cases hpacket

/-- An event with a true message keeps a server truthful. -/
theorem Truthful.next (h : S.Truthful i T sent) {event : LoopEvent}
    (hmsg : ∀ msg ∈ event.message, ∀ pair ∈ msg.addresses, S.Belongs pair.1 pair.2) :
    S.Truthful i (RunningServer.machine.next T event)
      (sent ++ RunningServer.machine.emits T event) := by
  refine ⟨?_, ?_, T.vouched_next h.vouched hmsg, fun packet hpacket => ?_⟩
  · rw [T.getMyNodeInfo_next, h.me]
  · rw [T.stablePeers_next, h.dst]
  · rcases List.mem_append.mp hpacket with hold | hnew
    · exact h.sent packet hold
    · exact T.addresses_of_mem_emits h.vouched h.belongs hnew

/-- What is handed on while all servers are truthful is true. -/
theorem belongs_of_enabled {C : ServerCluster ι} {act : ι × LoopEvent}
    (h : ∀ i, S.Truthful i (C.parties i) (C.sent i)) (henabled : ServerCluster.Enabled C act) :
    ∀ msg ∈ act.2.message, ∀ pair ∈ msg.addresses, S.Belongs pair.1 pair.2 := by
  intro msg hmsg pair hpair
  obtain ⟨k, packet, hpacket, hwire⟩ := henabled msg hmsg
  rw [← msg.wire_addresses, ← hwire, Message.wire_addresses] at hpair
  exact (h k).sent packet hpacket pair hpair

variable [DecidableEq ι]

/-- All servers stay truthful. -/
theorem truthful_next {C : ServerCluster ι} {act : ι × LoopEvent}
    (h : ∀ i, S.Truthful i (C.parties i) (C.sent i)) (henabled : ServerCluster.Enabled C act)
    (i : ι) :
    S.Truthful i (((RunningServer.machine.network ι).next C act).parties i)
      (((RunningServer.machine.network ι).next C act).sent i) := by
  refine Machine.network_invariant_next (I := fun sent i T => S.Truthful i T (sent i)) h ?_ ?_ i
  · intro sent sent' i T hT hsent _
    rwa [hsent]
  · rw [Machine.network_next_sent_self]
    exact (h act.1).next (belongs_of_enabled h henabled)

end ServerSetup

end CppPaxos
