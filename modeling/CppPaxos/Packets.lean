import CppPaxos.Server
import CppPaxos.ServerNetwork

/-!
# Received packets

`HandlePacket` and `HandleMessage` of `server.cpp`. `deps::Decoder` reads the length and the
command of a packet from its first bytes and unmarshals the header and the message; it is a
parameter. A call that would go through a null pointer has no result here: such is the
message if the header names another type than the one that was made for the packet.
-/

namespace CppPaxos

/-- The switch of `HandlePacket`: the type of the object made for a command. -/
def MessageType.ofSubCmd (subCmd : UInt16) : Option MessageType :=
  if subCmd = ping.cmd then some ping
  else if subCmd = pong.cmd then some pong
  else if subCmd = heartbeat.cmd then some heartbeat
  else if subCmd = prepare.cmd then some prepare
  else if subCmd = promise.cmd then some promise
  else if subCmd = accept.cmd then some accept
  else if subCmd = permit.cmd then some permit
  else if subCmd = prepareAck.cmd then some prepareAck
  else if subCmd = acceptAck.cmd then some acceptAck
  else none

/-- `deps::Decoder`. -/
structure Decoder where
  /-- `minSize`. -/
  minSize : ℕ
  /-- `maxSize`. -/
  maxSize : ℕ
  /-- `pickLen`. -/
  pickLen : List UInt8 → UInt16
  /-- `pickSubCmd`. -/
  pickSubCmd : List UInt8 → UInt16
  /-- `deserialize` of a decoder for some bytes and the size of the packet, with an object of some
  type: the command in the header and the object afterwards. -/
  deserialize : List UInt8 → ℕ → (type : MessageType) →
    UInt16 × { msg : Message // msg.type = type }

/-- The buffer holds all of the packet that its length field announces. -/
def Decoder.FullyReceived (D : Decoder) (data : List UInt8) : Prop :=
  D.minSize ≤ data.length ∧ (D.pickLen data).toNat ≤ data.length

instance (D : Decoder) (data : List UInt8) : Decidable (D.FullyReceived data) :=
  inferInstanceAs (Decidable (_ ∧ _))

/-- `class Server`, as far as received messages change it. -/
structure PacketServer where
  network : ServerNetwork
  /-- `m_paxosNode`. -/
  paxosNode : PaxosNode

/-- What the handling of a packet depends on besides its bytes: the socket, the clock, and the
round trip times that new entries find in memory. -/
structure PacketContext where
  socket : SocketPtr
  now : Reading
  rtt : ℕ → UInt64

/-- What has been done with a packet: the server afterwards, the messages that were handed to one
of the functions for single types, and what was sent. -/
structure Handling where
  server : PacketServer
  dispatched : List Message
  sent : List Packet

namespace PacketServer

/-- Nothing has been done. -/
def idle (S : PacketServer) : Handling := ⟨S, [], []⟩

/-- `HandleHeatBeatMessage`. What the node then calls on its messenger does nothing. -/
def handleHeatBeatMessage (S : PacketServer) (m : HeartbeatMessage) (now : UInt64) :
    PacketServer :=
  { S with paxosNode := (S.paxosNode.receiveHeartbeat now m.leaderUID m.leaderProposalID).1 }

/-- `HandleMessage`, for the command in the header and the message. The cast to the type that the
command names gives a null pointer if the message is of another type. -/
def handleMessage (S : PacketServer) (subCmd : UInt16) (pMsg : Message) (c : PacketContext) :
    Option (Handling × Bool) :=
  if subCmd = MessageType.ping.cmd then
    match pMsg with
    | .ping m =>
      let (network, sent) := S.network.handlePingMessage m c.socket c.rtt
      some (⟨{ S with network := network }, [pMsg], sent⟩, true)
    | _ => none
  else if subCmd = MessageType.pong.cmd then
    match pMsg with
    | .pong m =>
      some (⟨{ S with network := S.network.handlePongMessage m c.now.ms }, [pMsg], []⟩, true)
    | _ => none
  else if subCmd = MessageType.heartbeat.cmd then
    match pMsg with
    | .heartbeat m => some (⟨S.handleHeatBeatMessage m c.now.us, [pMsg], []⟩, true)
    | _ => none
  else some (S.idle, false)

/-- `HandlePacket`, for a null pointer or a buffer of bytes. -/
def handlePacket (S : PacketServer) (D : Decoder) (data : Option (List UInt8))
    (c : PacketContext) : Option (Handling × Int) :=
  match data with
  | none => some (S.idle, -1)
  | some data =>
    if data.length < D.minSize then some (S.idle, 0)
    else
      let packetSize := (D.pickLen data).toNat
      if packetSize > D.maxSize then some (S.idle, -1)
      else if packetSize > data.length then some (S.idle, 0)
      else
        match MessageType.ofSubCmd (D.pickSubCmd data) with
        | none => some (S.idle, -1)
        | some type =>
          let (subCmd, pMsg) := D.deserialize data packetSize type
          (S.handleMessage subCmd pMsg c).map fun (done, ret) =>
            (done, if ret then (packetSize : Int) else -1)

/-- The types that `HandleMessage` hands on. -/
def Handles (type : MessageType) : Prop := type = .ping ∨ type = .pong ∨ type = .heartbeat

instance (type : MessageType) : Decidable (Handles type) :=
  inferInstanceAs (Decidable (_ ∨ _))

/-- A message is handed on if its type is one that is handled and the header names it. -/
theorem handleMessage_of_handles (S : PacketServer) {msg : Message} (h : Handles msg.type)
    (c : PacketContext) :
    ∃ done, S.handleMessage msg.cmd msg c = some (done, true) ∧ done.dispatched = [msg] := by
  cases msg with
  | ping m | pong m | heartbeat m => exact ⟨_, rfl, rfl⟩
  | _ => simp [Handles, Message.type] at h

/-- A call returns if the header names the type of the message. -/
theorem handleMessage_isSome (S : PacketServer) (msg : Message) (c : PacketContext) :
    (S.handleMessage msg.cmd msg c).isSome := by
  cases msg <;> rfl

/-- `HandleMessage` succeeds with a message that it hands on, or fails without doing anything. -/
theorem handleMessage_cases {S : PacketServer} {subCmd : UInt16} {msg : Message}
    {c : PacketContext} {done : Handling} {ret : Bool}
    (h : S.handleMessage subCmd msg c = some (done, ret)) :
    (ret = true ∧ Handles msg.type ∧ subCmd = msg.type.cmd ∧ done.dispatched = [msg]) ∨
      (ret = false ∧ ¬(Handles msg.type ∧ subCmd = msg.type.cmd) ∧ done = S.idle) := by
  unfold handleMessage at h
  by_cases hping : subCmd = MessageType.ping.cmd
  · rw [if_pos hping] at h
    cases msg with
    | ping m =>
      cases h
      exact Or.inl ⟨rfl, Or.inl rfl, hping, rfl⟩
    | _ => cases h
  rw [if_neg hping] at h
  by_cases hpong : subCmd = MessageType.pong.cmd
  · rw [if_pos hpong] at h
    cases msg with
    | pong m =>
      cases h
      exact Or.inl ⟨rfl, Or.inr (Or.inl rfl), hpong, rfl⟩
    | _ => cases h
  rw [if_neg hpong] at h
  by_cases hbeat : subCmd = MessageType.heartbeat.cmd
  · rw [if_pos hbeat] at h
    cases msg with
    | heartbeat m =>
      cases h
      exact Or.inl ⟨rfl, Or.inr (Or.inr rfl), hbeat, rfl⟩
    | _ => cases h
  rw [if_neg hbeat] at h
  cases h
  refine Or.inr ⟨rfl, ?_, rfl⟩
  rintro ⟨htype | htype | htype, hsame⟩ <;> rw [htype] at hsame
  · exact hping hsame
  · exact hpong hsame
  · exact hbeat hsame

section HandlePacket

variable {D : Decoder} {bytes : List UInt8}

/-- A packet that is complete and not too long is handled by its command. -/
theorem handlePacket_of_complete {S : PacketServer} {c : PacketContext}
    (hfull : D.FullyReceived bytes) (hmax : (D.pickLen bytes).toNat ≤ D.maxSize) :
    S.handlePacket D (some bytes) c =
      match MessageType.ofSubCmd (D.pickSubCmd bytes) with
      | none => some (S.idle, -1)
      | some type =>
        let (subCmd, pMsg) := D.deserialize bytes (D.pickLen bytes).toNat type
        (S.handleMessage subCmd pMsg c).map fun (done, ret) =>
          (done, if ret then ((D.pickLen bytes).toNat : Int) else -1) := by
  rw [handlePacket, if_neg (not_lt.mpr hfull.1)]
  dsimp only
  rw [if_neg (not_lt.mpr hmax), if_neg (not_lt.mpr hfull.2)]

/-- With any other packet nothing is done, and zero stands for one that is not complete. -/
theorem handlePacket_of_incomplete (S : PacketServer)
    (h : ¬(D.FullyReceived bytes ∧ (D.pickLen bytes).toNat ≤ D.maxSize)) (c : PacketContext) :
    ∃ ret : Int, ret ≤ 0 ∧ S.handlePacket D (some bytes) c = some (S.idle, ret) ∧
      (ret = 0 → ¬D.FullyReceived bytes) := by
  rw [handlePacket]
  by_cases hmin : bytes.length < D.minSize
  · refine ⟨0, le_rfl, if_pos hmin, fun _ hfull => ?_⟩
    exact absurd hfull.1 (not_le.mpr hmin)
  rw [if_neg hmin]
  dsimp only
  by_cases hmax : (D.pickLen bytes).toNat > D.maxSize
  · exact ⟨-1, by decide, if_pos hmax, fun hzero => absurd hzero (by decide)⟩
  have hsize : (D.pickLen bytes).toNat > bytes.length :=
    not_le.mp fun hle => h ⟨⟨not_lt.mp hmin, hle⟩, not_lt.mp hmax⟩
  rw [if_neg hmax, if_pos hsize]
  exact ⟨0, le_rfl, rfl, fun _ hfull => absurd hfull.2 (not_le.mpr hsize)⟩

/-- `HandlePacket` returns if the header names the type of the object that was made. -/
theorem handlePacket_isSome {data : Option (List UInt8)}
    (hheader : ∀ bytes ∈ data, ∀ type ∈ MessageType.ofSubCmd (D.pickSubCmd bytes),
      (D.deserialize bytes (D.pickLen bytes).toNat type).1 = type.cmd)
    (S : PacketServer) (c : PacketContext) : (S.handlePacket D data c).isSome := by
  cases data with
  | none => rfl
  | some bytes =>
    by_cases hcomplete : D.FullyReceived bytes ∧ (D.pickLen bytes).toNat ≤ D.maxSize
    · rw [handlePacket_of_complete hcomplete.1 hcomplete.2]
      cases htype : MessageType.ofSubCmd (D.pickSubCmd bytes) with
      | none => rfl
      | some type =>
        have hmsg := (D.deserialize bytes (D.pickLen bytes).toNat type).2.2
        have hcall := S.handleMessage_isSome
          (D.deserialize bytes (D.pickLen bytes).toNat type).2 c
        rw [Message.cmd, hmsg, ← hheader bytes rfl type htype] at hcall
        rw [Option.isSome_map]
        exact hcall
    · obtain ⟨ret, -, hcall, -⟩ := S.handlePacket_of_incomplete hcomplete c
      rw [hcall]
      rfl

end HandlePacket

end PacketServer

/-- The calls on the network that a message leads to. -/
def Message.networkCalls (c : PacketContext) : Message → List NetworkCall
  | ping m => [.handlePingMessage m c.socket c.rtt]
  | pong m => [.handlePongMessage m c.now.ms]
  | _ => []

/-- What a message hands to the node. -/
def Message.serverMessage : Message → ServerMessage
  | ping _ => .ping
  | pong _ => .pong
  | heartbeat m => .heartbeat m.leaderUID m.leaderProposalID
  | prepare _ => .prepare
  | promise _ => .promise
  | accept _ => .accept
  | permit _ => .permit
  | prepareAck _ => .prepareAck
  | acceptAck _ => .acceptAck

/-- `HandleMessage` takes the steps of the network and of the node, whatever the timers are. -/
theorem PacketServer.handleMessage_steps {S : PacketServer} {msg : Message} {c : PacketContext}
    {done : Handling} {ret : Bool}
    (h : S.handleMessage msg.cmd msg c = some (done, ret)) :
    done.server.network = ServerNetwork.machine.run S.network (msg.networkCalls c) ∧
      done.sent = ServerNetwork.machine.trace S.network (msg.networkCalls c) ∧
      ∀ timers, done.server.paxosNode =
        (Server.handleMessage ⟨S.paxosNode, timers⟩ c.now.us msg.serverMessage).1.paxosNode := by
  cases msg <;> cases h <;> exact ⟨rfl, rfl, fun _ => rfl⟩

end CppPaxos
