import CppPaxos.PacketFraming

/-!
# Messages in a stream

Encoded messages of the handled types, one after another in a stream. However the stream is cut
when it arrives and whenever `HandlePacket` is called, the server handles the messages in order,
each of them once. Encoder and decoder are those of `deps`, so they are parameters.
-/

namespace CppPaxos

open Machines Framing Wire

/-- `deps::Decoder` undoes `deps::Encoder` for a message: the length field is among the first bytes
and counts all bytes of the packet, and what is read is the message with the round trip time
that an object has before it is read. -/
structure Decoder.Undoes (D : Decoder) (encode : Message → List UInt8) (rtt : UInt64)
    (m : Message) : Prop where
  minSize_le : D.minSize ≤ (encode m).length
  le_maxSize : (encode m).length ≤ D.maxSize
  pickLen : ∀ data, D.minSize ≤ data.length → data <+: encode m ∨ encode m <+: data →
    (D.pickLen data).toNat = (encode m).length
  pickSubCmd : ∀ rest, D.pickSubCmd (encode m ++ rest) = m.cmd
  subCmd : ∀ rest, (D.deserialize (encode m ++ rest) (encode m).length m.type).1 = m.cmd
  message : ∀ rest,
    (D.deserialize (encode m ++ rest) (encode m).length m.type).2.1 = m.withRtt rtt

/-- The switch makes an object of the type that the command belongs to. -/
theorem MessageType.ofSubCmd_cmd (m : Message) : MessageType.ofSubCmd m.cmd = some m.type := by
  cases m <;> rfl

namespace PacketServer

/-- The server after `HandleMessage`, with the header of the message. -/
def handled (S : PacketServer) (c : PacketContext) (msg : Message) : PacketServer :=
  ((S.handleMessage msg.cmd msg c).get (S.handleMessage_isSome msg c)).1.server

variable {D : Decoder} {encode : Message → List UInt8} {rtt : UInt64} {m : Message}

/-- A packet that was encoded is handled as soon as it is complete. -/
theorem handlePacket_encoded (h : D.Undoes encode rtt m) (hhandles : Handles m.type)
    (S : PacketServer) (c : PacketContext) (rest : List UInt8) :
    D.handler S c (encode m ++ rest) =
      some (S.handled c (m.withRtt rtt), ((encode m).length : Int), [m.withRtt rtt]) := by
  have htype : (m.withRtt rtt).type = m.type := by cases m <;> rfl
  have hcmd : (m.withRtt rtt).cmd = m.cmd := by cases m <;> rfl
  have hsize : (encode m).length ≤ (encode m ++ rest).length :=
    (List.prefix_append _ _).length_le
  have hlen := h.pickLen (encode m ++ rest) (h.minSize_le.trans hsize)
    (Or.inr (List.prefix_append _ _))
  have hfull : D.FullyReceived (encode m ++ rest) :=
    ⟨h.minSize_le.trans hsize, by rw [hlen]; exact hsize⟩
  have hread : Handles (m.withRtt rtt).type := by rwa [htype]
  obtain ⟨done, hdone, hdispatched⟩ := S.handleMessage_of_handles hread c
  have hserver : S.handled c (m.withRtt rtt) = done.server := by
    simp only [handled, hdone, Option.get_some]
  rw [hcmd] at hdone
  rw [Decoder.handler, handlePacket_of_complete hfull (by rw [hlen]; exact h.le_maxSize),
    h.pickSubCmd, MessageType.ofSubCmd_cmd]
  dsimp only
  rw [hlen, h.subCmd, h.message, hdone, hserver]
  dsimp only [Option.map_some]
  rw [if_pos rfl, hdispatched]

/-- Less than a packet is waited for. -/
theorem handlePacket_part (h : D.Undoes encode rtt m) {buffer : List UInt8}
    (hpart : buffer <+: encode m) (hne : buffer ≠ encode m) (S : PacketServer) (c : PacketContext) :
    D.handler S c buffer = some (S, 0, []) := by
  have hshort : buffer.length < (encode m).length :=
    lt_of_le_of_ne hpart.length_le fun heq => hne (hpart.eq_of_length heq)
  rw [Decoder.handler, handlePacket]
  by_cases hmin : buffer.length < D.minSize
  · rw [if_pos hmin]
    rfl
  · have hlen := h.pickLen buffer (not_lt.mp hmin) (Or.inl hpart)
    rw [if_neg hmin]
    dsimp only
    rw [hlen, if_neg (not_lt.mpr h.le_maxSize), if_pos hshort]
    rfl

/-- The handler reads what was encoded. -/
theorem reads_of_undoes (h : D.Undoes encode rtt m) (hhandles : Handles m.type) :
    Reads D.handler encode (Message.withRtt rtt) (fun S c m => S.handled c (m.withRtt rtt)) m :=
  ⟨handlePacket_encoded h hhandles, fun S c _ hpart hne => handlePacket_part h hpart hne S c⟩

/-- **A stream of messages is handled in order.** Let some messages of the handled types be encoded
one after another. Whatever part of this stream has arrived in whatever pieces, and whenever
`HandlePacket` was called, the first of these messages have been handled, each once and in order,
and once all has arrived, as many calls as there are messages handle the last of them. -/
theorem stream_handled {ms : List Message} (hmin : 0 < D.minSize)
    (hms : ∀ m ∈ ms, D.Undoes encode rtt m ∧ Handles m.type) (S : PacketServer)
    (events : List (Event PacketContext UInt8)) :
    (arrived events <+: ms.flatMap encode → ∃ used done todo, ms = done ++ todo ∧
      Received D.handler encode (Message.withRtt rtt) (fun S c m => S.handled c (m.withRtt rtt)) S
        events used done) ∧
    (arrived events = ms.flatMap encode → ∀ more : List PacketContext, ms.length ≤ more.length →
      ∃ used, Received D.handler encode (Message.withRtt rtt)
        (fun S c m => S.handled c (m.withRtt rtt)) S (events ++ more.map .handle) used ms) := by
  have hreads := fun m hm => reads_of_undoes (hms m hm).1 (hms m hm).2
  have hnil : ∀ (S : PacketServer) (c : PacketContext), D.handler S c [] = some (S, 0, []) := by
    intro S c
    rw [Decoder.handler, handlePacket]
    dsimp only [List.length_nil]
    rw [if_pos hmin]
    rfl
  refine ⟨received_of_arrived hreads hnil, fun harrived more hmore => ?_⟩
  obtain ⟨used, done, todo, hsplit, h⟩ :=
    received_of_arrived (s := S) hreads hnil (by rw [harrived])
  refine h.all hreads hnil hsplit harrived (le_trans ?_ hmore)
  rw [hsplit, List.length_append]
  exact Nat.le_add_left _ _

/-- The packet of a message: the header with the length and the command, and its bytes. -/
def headerEncode (m : Message) : List UInt8 :=
  let size := 8 + (m.marshal littleEndian).length
  [size.toUInt8, (size / 256).toUInt8, 0, 0, 0, 0, m.cmd.toUInt8, 0] ++ m.marshal littleEndian

/-- The header takes eight bytes. -/
theorem length_headerEncode (m : Message) :
    (headerEncode m).length = 8 + (m.marshal littleEndian).length := by
  rw [headerEncode, List.length_append]
  rfl

/-- The first bytes of a list are those of its prefixes. -/
theorem getD_eq_of_isPrefix {xs ys : List UInt8} (h : xs <+: ys) {n : ℕ} (hn : n < xs.length) :
    ys.getD n 0 = xs.getD n 0 := by
  obtain ⟨zs, rfl⟩ := h
  rw [List.getD_eq_getElem?_getD, List.getD_eq_getElem?_getD, List.getElem?_append_left hn]

/-- The two formats fit each other for packets that are not too long. -/
theorem headerDecoder_undoes {m : Message} (hsize : (headerEncode m).length ≤ 4096) :
    headerDecoder.Undoes headerEncode 0 m := by
  have hlength := length_headerEncode m
  have hfront : ∀ n < 8, ∀ data : List UInt8, 8 ≤ data.length →
      data <+: headerEncode m ∨ headerEncode m <+: data →
        data.getD n 0 = (headerEncode m).getD n 0 := by
    intro n hn data hdata hprefix
    rcases hprefix with hprefix | hprefix
    · exact (getD_eq_of_isPrefix hprefix (by omega)).symm
    · exact getD_eq_of_isPrefix hprefix (by omega)
  have hcmd : ∀ rest, ((headerEncode m ++ rest).getD 6 0).toUInt16 +
      256 * ((headerEncode m ++ rest).getD 7 0).toUInt16 = m.cmd := by
    intro rest
    cases m <;> rfl
  refine ⟨?_, hsize, ?_, hcmd, hcmd, ?_⟩
  · rw [hlength]
    exact Nat.le_add_right _ _
  · intro data hdata hprefix
    have hlow := hfront 0 (by decide) data hdata hprefix
    have hhigh := hfront 1 (by decide) data hdata hprefix
    change ((data.getD 0 0).toUInt16 + 256 * (data.getD 1 0).toUInt16).toNat = _
    rw [hlow, hhigh, hlength]
    rw [hlength] at hsize
    change ((8 + (m.marshal littleEndian).length).toUInt8.toUInt16 +
      256 * ((8 + (m.marshal littleEndian).length) / 256).toUInt8.toUInt16).toNat = _
    have hbyte : ∀ n : ℕ, n.toUInt8.toNat = n % 2 ^ 8 := fun n => UInt8.toNat_ofNat'
    simp only [UInt16.toNat_add, UInt16.toNat_mul, UInt8.toNat_toUInt16, hbyte, UInt16.toNat_ofNat]
    omega
  · intro rest
    have hbody : ((headerEncode m ++ rest).take (headerEncode m).length).drop 8 =
        m.marshal littleEndian := by
      rw [List.take_left]
      rfl
    have hread := littleEndian_lawful.message 0 m []
    rw [List.append_nil, Message.cmd] at hread
    have htype : (m.withRtt 0).type = m.type := by cases m <;> rfl
    simp only [headerDecoder, hbody, hread, dif_pos htype]

/-- A pong and a heartbeat from B. -/
def twoMessages : List Message :=
  [.pong ⟨5, ⟨[66], ⟨1, 80, .tcp⟩, 0⟩⟩, .heartbeat ⟨⟨[66], ⟨1, 80, .tcp⟩, 0⟩, [66], ⟨1, [66]⟩⟩]

/-- Ten bytes arrive, and after a call the others. The two calls after that handle both messages. -/
theorem stream_handled_twoMessages :
    let c : PacketContext := ⟨7, ⟨9, 9000⟩, fun _ => 0⟩
    let events : List (Event PacketContext UInt8) :=
      [.arrive ((twoMessages.flatMap headerEncode).take 10), .handle c,
        .arrive ((twoMessages.flatMap headerEncode).drop 10)]
    ∃ used, Received headerDecoder.handler headerEncode (Message.withRtt 0)
      (fun S c m => S.handled c (m.withRtt 0)) lonelyServer (events ++ [c, c].map .handle) used
        twoMessages := by
  have hms : ∀ m ∈ twoMessages, (headerEncode m).length ≤ 4096 ∧ Handles m.type := by decide
  exact (stream_handled (by decide) (fun m hm => ⟨headerDecoder_undoes (hms m hm).1, (hms m hm).2⟩)
    lonelyServer _).2 (by decide) _ (by decide)

end PacketServer

end CppPaxos
