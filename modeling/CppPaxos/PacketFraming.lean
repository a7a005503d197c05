import CppPaxos.Library.Framing
import CppPaxos.Packets

/-!
# Packets in a stream

`HandlePacket` returns the length field of a packet whose message was handled, and zero while
a packet is not complete. It compares the length field to the size of the buffer and to the
largest size, but not to the smallest one: a packet with a length below the size of its own
header is handled, and then the receiver drops too few bytes, or none.
-/

namespace CppPaxos

open Machines Framing

namespace Decoder

variable (D : Decoder)

/-- The message of the packet is handed on: the packet is complete and not too long, and the
command at its front and the one in its header name one type, which is handled. -/
def Accepts (data : List UInt8) : Prop :=
  D.FullyReceived data ∧ (D.pickLen data).toNat ≤ D.maxSize ∧
    ∃ type ∈ MessageType.ofSubCmd (D.pickSubCmd data), PacketServer.Handles type ∧
      (D.deserialize data (D.pickLen data).toNat type).1 = type.cmd

/-- The length field of a packet that is accepted covers the header. -/
def CoversHeader (data : Option (List UInt8)) : Prop :=
  ∀ bytes ∈ data, D.Accepts bytes → D.minSize ≤ (D.pickLen bytes).toNat

instance (data : List UInt8) : Decidable (D.Accepts data) :=
  inferInstanceAs (Decidable (_ ∧ _ ∧ _))

instance (data : Option (List UInt8)) : Decidable (D.CoversHeader data) :=
  inferInstanceAs (Decidable (∀ bytes ∈ data, _))

/-- `HandlePacket` as the handler of a receive loop. -/
def handler : Handler PacketServer PacketContext UInt8 Message := fun S c buffer =>
  (S.handlePacket D (some buffer) c).map fun (done, ret) => (done.server, ret, done.dispatched)

/-- The packet at the front of the buffer covers its header whenever it is accepted. -/
def BuffersCover (R : Receiver PacketServer UInt8) : Event PacketContext UInt8 → Prop
  | .arrive _ => True
  | .handle _ => D.CoversHeader (some R.buffer)

instance (R : Receiver PacketServer UInt8) : DecidablePred (D.BuffersCover R)
  | .arrive _ => isTrue trivial
  | .handle _ => inferInstanceAs (Decidable (D.CoversHeader _))

end Decoder

namespace PacketServer

variable {S : PacketServer} {D : Decoder} {c : PacketContext}

/-- If the call returns, its result is proper: zero only if no message was handed on, and a positive
number only if one was, between the smallest size and the size of the buffer. -/
def ProperPacket (S : PacketServer) (D : Decoder) (data : Option (List UInt8))
    (c : PacketContext) : Prop :=
  ∀ done ret, S.handlePacket D data c = some (done, ret) →
    Proper D.minSize (data.getD []).length ret done.dispatched

/-- Zero is returned for a packet that is not complete only. -/
def NeverStalls (S : PacketServer) (D : Decoder) (events : List (Event PacketContext UInt8)) :
    Prop :=
  ∀ pre c, pre ++ [.handle c] <+: events → ∀ done,
    ((receiver D.handler).run ⟨S, []⟩ pre).state.handlePacket D
        (some ((receiver D.handler).run ⟨S, []⟩ pre).buffer) c = some (done, 0) →
      ¬D.FullyReceived ((receiver D.handler).run ⟨S, []⟩ pre).buffer

/-- An accepted packet is handled, and its length field is returned. -/
theorem handlePacket_of_accepts {bytes : List UInt8} (h : D.Accepts bytes) (S : PacketServer)
    (c : PacketContext) :
    ∃ done, S.handlePacket D (some bytes) c = some (done, ((D.pickLen bytes).toNat : Int)) ∧
      done.dispatched.length = 1 := by
  obtain ⟨hfull, hmax, type, htype, hhandles, hheader⟩ := h
  have hmsg := (D.deserialize bytes (D.pickLen bytes).toNat type).2.2
  have hhandled : Handles (D.deserialize bytes (D.pickLen bytes).toNat type).2.1.type := by
    rwa [hmsg]
  obtain ⟨done, hdone, hone⟩ := S.handleMessage_of_handles hhandled c
  rw [Message.cmd, hmsg, ← hheader] at hdone
  refine ⟨done, ?_, by rw [hone]; rfl⟩
  rw [handlePacket_of_complete hfull hmax, Option.mem_def.mp htype]
  dsimp only
  rw [hdone, Option.map_some, if_pos rfl]

/-- A call that returns has handled an accepted packet, or it has done nothing, and returned zero
only because the packet is not complete. -/
theorem handlePacket_cases {data : Option (List UInt8)} {done : Handling} {ret : Int}
    (h : S.handlePacket D data c = some (done, ret)) :
    (∃ bytes ∈ data, D.Accepts bytes ∧ ret = (D.pickLen bytes).toNat ∧
      done.dispatched.length = 1) ∨
    (done = S.idle ∧ ret ≤ 0 ∧ (ret = 0 → ∀ bytes ∈ data, ¬D.FullyReceived bytes)) := by
  have hfails : ∀ {done ret}, some (S.idle, (-1 : Int)) = some (done, ret) →
      done = S.idle ∧ ret ≤ 0 ∧ (ret = 0 → ∀ bytes ∈ data, ¬D.FullyReceived bytes) := by
    intro done ret heq
    cases heq
    exact ⟨rfl, by decide, fun hzero => absurd hzero (by decide)⟩
  cases data with
  | none => exact Or.inr (hfails h)
  | some bytes =>
    by_cases hcomplete : D.FullyReceived bytes ∧ (D.pickLen bytes).toNat ≤ D.maxSize
    · rw [handlePacket_of_complete hcomplete.1 hcomplete.2] at h
      cases htype : MessageType.ofSubCmd (D.pickSubCmd bytes) with
      | none =>
        rw [htype] at h
        exact Or.inr (hfails h)
      | some type =>
        rw [htype] at h
        obtain ⟨⟨done', ret'⟩, hmessage, heq⟩ := Option.map_eq_some_iff.mp h
        have hmsg := (D.deserialize bytes (D.pickLen bytes).toNat type).2.2
        rcases handleMessage_cases hmessage with
          ⟨rfl, hhandles, hheader, hone⟩ | ⟨rfl, -, rfl⟩
        · cases heq
          rw [hmsg] at hhandles hheader
          have haccepts : D.Accepts bytes :=
            ⟨hcomplete.1, hcomplete.2, type, htype, hhandles, hheader⟩
          exact Or.inl ⟨bytes, rfl, haccepts, if_pos rfl, by rw [hone]; rfl⟩
        · exact Or.inr (hfails (congrArg some heq))
    · obtain ⟨ret', hret, hcall, hwaits⟩ := S.handlePacket_of_incomplete hcomplete c
      rw [hcall] at h
      cases h
      refine Or.inr ⟨rfl, hret, ?_⟩
      rintro hzero bytes' ⟨⟩
      exact hwaits hzero

/-- A call is proper exactly if an accepted packet covers its header. -/
theorem properPacket_iff (hmin : 0 < D.minSize) (S : PacketServer) (data : Option (List UInt8))
    (c : PacketContext) : S.ProperPacket D data c ↔ D.CoversHeader data := by
  constructor
  · rintro hproper bytes ⟨⟩ haccepts
    obtain ⟨done, hcall, hone⟩ := handlePacket_of_accepts haccepts S c
    obtain ⟨hwaits, hhandles⟩ := hproper done _ hcall
    have hpos : (0 : Int) < (D.pickLen bytes).toNat := by
      by_contra hzero
      have hnone := hwaits (by omega)
      rw [hnone, List.length_nil] at hone
      exact absurd hone Nat.zero_ne_one
    exact Int.ofNat_le.mp (hhandles hpos).2.1
  · intro hcovers done ret hcall
    rcases handlePacket_cases hcall with
      ⟨bytes, rfl, haccepts, rfl, hone⟩ | ⟨rfl, hret, -⟩
    · have hle := hcovers bytes rfl haccepts
      refine ⟨fun hzero => ?_, fun _ => ⟨hone, Int.ofNat_le.mpr hle, ?_⟩⟩
      · omega
      · exact Int.ofNat_le.mpr haccepts.1.2
    · exact ⟨fun _ => rfl, fun hpos => absurd hret (not_le.mpr hpos)⟩

/-- A call that reports an error has handled nothing. -/
theorem failsSilently_handler (D : Decoder) : FailsSilently D.handler := by
  intro S c buffer S' ret dispatched hcall hneg
  obtain ⟨⟨done, ret'⟩, hpacket, heq⟩ := Option.map_eq_some_iff.mp hcall
  cases heq
  rcases handlePacket_cases hpacket with ⟨bytes, -, -, rfl, -⟩ | ⟨rfl, -, -⟩
  · exact absurd hneg (not_lt.mpr (Int.natCast_nonneg _))
  · rfl

/-- A call of the receive loop is proper if the packet at the front covers its header. -/
theorem callsProperly_of_buffersCover (hmin : 0 < D.minSize) {R : Receiver PacketServer UInt8}
    {event : Event PacketContext UInt8} (h : D.BuffersCover R event) :
    CallsProperly D.handler D.minSize R event := by
  cases event with
  | arrive items => trivial
  | handle c =>
    intro S ret dispatched hcall
    obtain ⟨⟨done, ret'⟩, hpacket, heq⟩ := Option.map_eq_some_iff.mp hcall
    cases heq
    exact (properPacket_iff hmin R.state (some R.buffer) c).mpr h done _ hpacket

/-- **Framing makes progress.** A call of `HandlePacket` is proper exactly if an accepted packet
covers its header. In every run of a receive loop in which each packet at the front of the buffer
does, the stream is received in frames, and the loop waits for an incomplete packet only. -/
theorem handlePacket_progress_iff (hmin : 0 < D.minSize) :
    (∀ (S : PacketServer) (data : Option (List UInt8)) (c : PacketContext),
      S.ProperPacket D data c ↔ D.CoversHeader data) ∧
    ∀ (S : PacketServer) (events : List (Event PacketContext UInt8)),
      (receiver D.handler).Admits D.BuffersCover ⟨S, []⟩ events →
        Receives D.handler D.minSize ⟨S, []⟩ events ∧ S.NeverStalls D events := by
  refine ⟨properPacket_iff hmin, fun S events hrun => ⟨?_, ?_⟩⟩
  · apply receives_of_proper (failsSilently_handler D)
    rw [Machine.admits_iff_forall_prefix] at hrun ⊢
    exact fun pre event hpre => callsProperly_of_buffersCover hmin (hrun pre event hpre)
  · intro pre c hpre done hcall
    have hcovers : D.CoversHeader (some ((receiver D.handler).run ⟨S, []⟩ pre).buffer) :=
      hrun.allowed_of_prefix hpre
    rcases handlePacket_cases hcall with ⟨bytes, hbytes, haccepts, hzero, -⟩ | ⟨-, -, hwaits⟩
    · have hle := hcovers bytes hbytes haccepts
      omega
    · exact hwaits rfl _ rfl

/-- An object of each type, as it is before anything is read into it. -/
def blank : (type : MessageType) → { msg : Message // msg.type = type }
  | .ping => ⟨.ping ⟨0, ⟨[], ⟨0, 0, .tcp⟩, 0⟩, .empty⟩, rfl⟩
  | .pong => ⟨.pong ⟨0, ⟨[], ⟨0, 0, .tcp⟩, 0⟩⟩, rfl⟩
  | .heartbeat => ⟨.heartbeat ⟨⟨[], ⟨0, 0, .tcp⟩, 0⟩, [], .empty⟩, rfl⟩
  | .prepare => ⟨.prepare ⟨⟨[], ⟨0, 0, .tcp⟩, 0⟩, .empty⟩, rfl⟩
  | .promise => ⟨.promise ⟨⟨[], ⟨0, 0, .tcp⟩, 0⟩, .empty, .empty, []⟩, rfl⟩
  | .accept => ⟨.accept ⟨⟨[], ⟨0, 0, .tcp⟩, 0⟩, .empty, []⟩, rfl⟩
  | .permit => ⟨.permit ⟨⟨[], ⟨0, 0, .tcp⟩, 0⟩, .empty, []⟩, rfl⟩
  | .prepareAck => ⟨.prepareAck ⟨⟨[], ⟨0, 0, .tcp⟩, 0⟩, .empty, .empty⟩, rfl⟩
  | .acceptAck => ⟨.acceptAck ⟨⟨[], ⟨0, 0, .tcp⟩, 0⟩, .empty, .empty⟩, rfl⟩

/-- A header of the length, a sequence number and the command, and the message after it. An object
stays as it is if its bytes cannot be read. -/
def headerDecoder : Decoder where
  minSize := 8
  maxSize := 4096
  pickLen data := (data.getD 0 0).toUInt16 + 256 * (data.getD 1 0).toUInt16
  pickSubCmd data := (data.getD 6 0).toUInt16 + 256 * (data.getD 7 0).toUInt16
  deserialize data size type :=
    ((data.getD 6 0).toUInt16 + 256 * (data.getD 7 0).toUInt16,
      match (Message.unmarshal littleEndian 0 type.cmd).run ((data.take size).drop 8) with
      | some (msg, _) => if h : msg.type = type then ⟨msg, h⟩ else blank type
      | none => blank type)

/-- A server without peers. -/
def lonelyServer : PacketServer where
  network := .new [65] 2 1 80 .tcp
  paxosNode := PaxosNode.nodeA

/-- A pong from B, with its header. -/
def pongPacket : List UInt8 :=
  let message := (Message.pong ⟨5, ⟨[66], ⟨1, 80, .tcp⟩, 0⟩⟩).marshal littleEndian
  [(8 + message.length).toUInt8, 0, 0, 0, 0, 0, 2, 0] ++ message

/-- A pong arrives in two parts, the second one together with the begin of another packet. It is
handled once, when it is complete. -/
theorem handlePacket_progress_parts :
    let c : PacketContext := ⟨7, ⟨9, 9000⟩, fun _ => 0⟩
    let events : List (Event PacketContext UInt8) :=
      [.arrive (pongPacket.take 10), .handle c, .arrive (pongPacket.drop 10 ++ [16, 0]), .handle c,
        .handle c]
    ((receiver headerDecoder.handler).trace ⟨lonelyServer, []⟩ events).flatMap Frame.items =
        pongPacket ∧
      Receives headerDecoder.handler headerDecoder.minSize ⟨lonelyServer, []⟩ events ∧
        lonelyServer.NeverStalls headerDecoder events :=
  ⟨by decide, (handlePacket_progress_iff (by decide)).2 lonelyServer _ (by decide)⟩

/-- A header alone that has zero for its length and names a pong: the message is handled, and the
result is zero. -/
theorem handled_but_returns_zero :
    ¬lonelyServer.ProperPacket headerDecoder (some [0, 0, 0, 0, 0, 0, 2, 0])
      ⟨7, ⟨9, 9000⟩, fun _ => 0⟩ := by
  intro h
  have hwaits := (h _ _ rfl).waits (by decide)
  exact absurd hwaits (by decide)

end PacketServer

end CppPaxos
