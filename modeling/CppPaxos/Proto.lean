import CppPaxos.Library.Table
import CppPaxos.Library.Wire
import CppPaxos.Peer

/-!
# The messages and their wire format

`paxos/proto.h`, with `marshal` and `unmarshal` of `paxos/peer.h` and
`paxos/proposalid.cpp`. `deps::Pack` and `deps::Unpack` write and read the integers, the
strings and the counts of sets; they are a parameter, and all that is assumed of them is
that each read undoes its write. A message is unmarshalled into a new object, whose round
trip time is whatever its memory held.
-/

namespace CppPaxos

open Wire Tables

/-- What `deps::Pack` and `deps::Unpack` do with integers, strings and the count of a set. -/
structure PackUnpack where
  packUInt8 : UInt8 → List UInt8
  packUInt16 : UInt16 → List UInt8
  packUInt32 : UInt32 → List UInt8
  packUInt64 : UInt64 → List UInt8
  packString : Str → List UInt8
  packCount : ℕ → List UInt8
  unpackUInt8 : Reader UInt8 UInt8
  unpackUInt16 : Reader UInt8 UInt16
  unpackUInt32 : Reader UInt8 UInt32
  unpackUInt64 : Reader UInt8 UInt64
  unpackString : Reader UInt8 Str
  unpackCount : Reader UInt8 ℕ

/-- Each read undoes its write and takes exactly the bytes written. -/
structure PackUnpack.Lawful (D : PackUnpack) : Prop where
  uint8 : Undoes D.unpackUInt8 D.packUInt8 id
  uint16 : Undoes D.unpackUInt16 D.packUInt16 id
  uint32 : Undoes D.unpackUInt32 D.packUInt32 id
  uint64 : Undoes D.unpackUInt64 D.packUInt64 id
  string : Undoes D.unpackString D.packString id
  count : Undoes D.unpackCount D.packCount id

section Format

variable (D : PackUnpack)

/-- `ProposalID::marshal`. -/
def ProposalID.marshal (p : ProposalID) : List UInt8 :=
  D.packUInt32 p.number ++ D.packString p.uid

/-- `ProposalID::unmarshal`. -/
def ProposalID.unmarshal : Reader UInt8 ProposalID := do
  let number ← D.unpackUInt32
  let uid ← D.unpackString
  pure ⟨number, uid⟩

/-- `PeerAddr::marshal`. -/
def PeerAddr.marshal (a : PeerAddr) : List UInt8 :=
  let socketType : UInt8 := if a.socketType = .tcp then 0 else 1
  D.packUInt32 a.ip ++ D.packUInt16 a.port ++ D.packUInt8 socketType

/-- `PeerAddr::unmarshal`. -/
def PeerAddr.unmarshal : Reader UInt8 PeerAddr := do
  let ip ← D.unpackUInt32
  let port ← D.unpackUInt16
  let socketType ← D.unpackUInt8
  pure ⟨ip, port, if socketType = 0 then .tcp else .udp⟩

/-- `PeerInfo::marshal`. -/
def PeerInfo.marshal (p : PeerInfo) : List UInt8 := D.packString p.id ++ p.addr.marshal D

/-- `PeerInfo::unmarshal`, which leaves the round trip time as it is. -/
def PeerInfo.unmarshal (rtt : UInt64) : Reader UInt8 PeerInfo := do
  let id ← D.unpackString
  let addr ← PeerAddr.unmarshal D
  pure ⟨id, addr, rtt⟩

/-- `std::set<PeerInfo>`: peers are compared by their UIDs. -/
abbrev PeerSet := Table PeerInfo.id

/-- A set is written as its count and its items in order. -/
def PeerSet.marshal (peers : PeerSet) : List UInt8 :=
  D.packCount peers.size ++ peers.entries.flatMap (PeerInfo.marshal D)

/-- The items are read one after another and copied into the set. -/
def PeerSet.unmarshal (rtt : UInt64) : Reader UInt8 PeerSet := do
  let n ← D.unpackCount
  let items ← readMany (PeerInfo.unmarshal D rtt) n
  pure (Table.ofList (items.map PeerInfo.copy))

/-- `struct PingMessage`. -/
structure PingMessage where
  timestamp : UInt64
  myInfo : PeerInfo
  peers : PeerSet
  deriving DecidableEq

def PingMessage.marshal (m : PingMessage) : List UInt8 :=
  D.packUInt64 m.timestamp ++ m.myInfo.marshal D ++ PeerSet.marshal D m.peers

def PingMessage.unmarshal (rtt : UInt64) : Reader UInt8 PingMessage := do
  let timestamp ← D.unpackUInt64
  let myInfo ← PeerInfo.unmarshal D rtt
  let peers ← PeerSet.unmarshal D rtt
  pure ⟨timestamp, myInfo, peers⟩

/-- `struct PongMessage`. -/
structure PongMessage where
  timestamp : UInt64
  myInfo : PeerInfo
  deriving DecidableEq

def PongMessage.marshal (m : PongMessage) : List UInt8 :=
  D.packUInt64 m.timestamp ++ m.myInfo.marshal D

def PongMessage.unmarshal (rtt : UInt64) : Reader UInt8 PongMessage := do
  let timestamp ← D.unpackUInt64
  let myInfo ← PeerInfo.unmarshal D rtt
  pure ⟨timestamp, myInfo⟩

/-- `struct HeartbeatMessage`: from the leader to the other proposers. -/
structure HeartbeatMessage where
  myInfo : PeerInfo
  leaderUID : Str
  leaderProposalID : ProposalID
  deriving DecidableEq

def HeartbeatMessage.marshal (m : HeartbeatMessage) : List UInt8 :=
  m.myInfo.marshal D ++ D.packString m.leaderUID ++ m.leaderProposalID.marshal D

def HeartbeatMessage.unmarshal (rtt : UInt64) : Reader UInt8 HeartbeatMessage := do
  let myInfo ← PeerInfo.unmarshal D rtt
  let leaderUID ← D.unpackString
  let leaderProposalID ← ProposalID.unmarshal D
  pure ⟨myInfo, leaderUID, leaderProposalID⟩

/-- `struct PrepareMessage`. -/
structure PrepareMessage where
  myInfo : PeerInfo
  proposalID : ProposalID
  deriving DecidableEq

def PrepareMessage.marshal (m : PrepareMessage) : List UInt8 :=
  m.myInfo.marshal D ++ m.proposalID.marshal D

def PrepareMessage.unmarshal (rtt : UInt64) : Reader UInt8 PrepareMessage := do
  let myInfo ← PeerInfo.unmarshal D rtt
  let proposalID ← ProposalID.unmarshal D
  pure ⟨myInfo, proposalID⟩

/-- `struct PromiseMessage`: the answer to a prepare request. -/
structure PromiseMessage where
  myInfo : PeerInfo
  proposalID : ProposalID
  acceptID : ProposalID
  acceptValue : Str
  deriving DecidableEq

def PromiseMessage.marshal (m : PromiseMessage) : List UInt8 :=
  m.myInfo.marshal D ++ m.proposalID.marshal D ++ m.acceptID.marshal D ++
    D.packString m.acceptValue

def PromiseMessage.unmarshal (rtt : UInt64) : Reader UInt8 PromiseMessage := do
  let myInfo ← PeerInfo.unmarshal D rtt
  let proposalID ← ProposalID.unmarshal D
  let acceptID ← ProposalID.unmarshal D
  let acceptValue ← D.unpackString
  pure ⟨myInfo, proposalID, acceptID, acceptValue⟩

/-- `struct AcceptMessage`. -/
structure AcceptMessage where
  myInfo : PeerInfo
  proposalID : ProposalID
  proposalValue : Str
  deriving DecidableEq

def AcceptMessage.marshal (m : AcceptMessage) : List UInt8 :=
  m.myInfo.marshal D ++ m.proposalID.marshal D ++ D.packString m.proposalValue

def AcceptMessage.unmarshal (rtt : UInt64) : Reader UInt8 AcceptMessage := do
  let myInfo ← PeerInfo.unmarshal D rtt
  let proposalID ← ProposalID.unmarshal D
  let proposalValue ← D.unpackString
  pure ⟨myInfo, proposalID, proposalValue⟩

/-- `struct PermitMessage`: the answer to an accept request. -/
structure PermitMessage where
  myInfo : PeerInfo
  proposalID : ProposalID
  acceptedValue : Str
  deriving DecidableEq

def PermitMessage.marshal (m : PermitMessage) : List UInt8 :=
  m.myInfo.marshal D ++ m.proposalID.marshal D ++ D.packString m.acceptedValue

def PermitMessage.unmarshal (rtt : UInt64) : Reader UInt8 PermitMessage := do
  let myInfo ← PeerInfo.unmarshal D rtt
  let proposalID ← ProposalID.unmarshal D
  let acceptedValue ← D.unpackString
  pure ⟨myInfo, proposalID, acceptedValue⟩

/-- `struct PrepareAckMessage`: the refusal of a prepare request. -/
structure PrepareAckMessage where
  myInfo : PeerInfo
  proposalID : ProposalID
  promiseID : ProposalID
  deriving DecidableEq

def PrepareAckMessage.marshal (m : PrepareAckMessage) : List UInt8 :=
  m.myInfo.marshal D ++ m.proposalID.marshal D ++ m.promiseID.marshal D

def PrepareAckMessage.unmarshal (rtt : UInt64) : Reader UInt8 PrepareAckMessage := do
  let myInfo ← PeerInfo.unmarshal D rtt
  let proposalID ← ProposalID.unmarshal D
  let promiseID ← ProposalID.unmarshal D
  pure ⟨myInfo, proposalID, promiseID⟩

/-- `struct AcceptAckMessage`: the refusal of an accept request. -/
structure AcceptAckMessage where
  myInfo : PeerInfo
  proposalID : ProposalID
  promiseID : ProposalID
  deriving DecidableEq

def AcceptAckMessage.marshal (m : AcceptAckMessage) : List UInt8 :=
  m.myInfo.marshal D ++ m.proposalID.marshal D ++ m.promiseID.marshal D

def AcceptAckMessage.unmarshal (rtt : UInt64) : Reader UInt8 AcceptAckMessage := do
  let myInfo ← PeerInfo.unmarshal D rtt
  let proposalID ← ProposalID.unmarshal D
  let promiseID ← ProposalID.unmarshal D
  pure ⟨myInfo, proposalID, promiseID⟩

end Format

/-- The message types of `paxos/proto.h`. -/
inductive MessageType
  | ping
  | pong
  | heartbeat
  | prepare
  | promise
  | accept
  | permit
  | prepareAck
  | acceptAck
  deriving DecidableEq

/-- The constant `cmd` of the type. -/
def MessageType.cmd : MessageType → UInt16
  | ping => 1
  | pong => 2
  | heartbeat => 3
  | prepare => 4
  | promise => 5
  | accept => 6
  | permit => 7
  | prepareAck => 8
  | acceptAck => 9

/-- A message of one of the nine types. -/
inductive Message
  | ping (m : PingMessage)
  | pong (m : PongMessage)
  | heartbeat (m : HeartbeatMessage)
  | prepare (m : PrepareMessage)
  | promise (m : PromiseMessage)
  | accept (m : AcceptMessage)
  | permit (m : PermitMessage)
  | prepareAck (m : PrepareAckMessage)
  | acceptAck (m : AcceptAckMessage)
  deriving DecidableEq

namespace Message

/-- The type of a message. -/
def type : Message → MessageType
  | ping _ => .ping
  | pong _ => .pong
  | heartbeat _ => .heartbeat
  | prepare _ => .prepare
  | promise _ => .promise
  | accept _ => .accept
  | permit _ => .permit
  | prepareAck _ => .prepareAck
  | acceptAck _ => .acceptAck

/-- The constant `cmd` of the message's type. -/
def cmd (m : Message) : UInt16 := m.type.cmd

/-- `marshal` of the message's type. -/
def marshal (D : PackUnpack) : Message → List UInt8
  | ping m => m.marshal D
  | pong m => m.marshal D
  | heartbeat m => m.marshal D
  | prepare m => m.marshal D
  | promise m => m.marshal D
  | accept m => m.marshal D
  | permit m => m.marshal D
  | prepareAck m => m.marshal D
  | acceptAck m => m.marshal D

/-- The switch of `HandlePacket`: a new object of the type that `subCmd` names, and its
`unmarshal`. -/
def unmarshal (D : PackUnpack) (rtt : UInt64) (subCmd : UInt16) : Reader UInt8 Message :=
  if subCmd = MessageType.ping.cmd then ping <$> PingMessage.unmarshal D rtt
  else if subCmd = MessageType.pong.cmd then pong <$> PongMessage.unmarshal D rtt
  else if subCmd = MessageType.heartbeat.cmd then heartbeat <$> HeartbeatMessage.unmarshal D rtt
  else if subCmd = MessageType.prepare.cmd then prepare <$> PrepareMessage.unmarshal D rtt
  else if subCmd = MessageType.promise.cmd then promise <$> PromiseMessage.unmarshal D rtt
  else if subCmd = MessageType.accept.cmd then accept <$> AcceptMessage.unmarshal D rtt
  else if subCmd = MessageType.permit.cmd then permit <$> PermitMessage.unmarshal D rtt
  else if subCmd = MessageType.prepareAck.cmd then prepareAck <$> PrepareAckMessage.unmarshal D rtt
  else if subCmd = MessageType.acceptAck.cmd then acceptAck <$> AcceptAckMessage.unmarshal D rtt
  else fun _ => none

end Message

/-! ### What is received -/

/-- A peer with another round trip time. -/
def PeerInfo.withRtt (rtt : UInt64) (p : PeerInfo) : PeerInfo := { p with rtt := rtt }

/-- The same peers, as `std::set` copies them. -/
def PeerSet.copied (peers : PeerSet) : PeerSet := peers.map PeerInfo.copy fun _ => rfl

/-- The message with every field but the round trip times: the sender's is `rtt`, and those of the
peers it carries are the ones of copies. -/
def Message.withRtt (rtt : UInt64) : Message → Message
  | .ping m => .ping ⟨m.timestamp, m.myInfo.withRtt rtt, PeerSet.copied m.peers⟩
  | .pong m => .pong { m with myInfo := m.myInfo.withRtt rtt }
  | .heartbeat m => .heartbeat { m with myInfo := m.myInfo.withRtt rtt }
  | .prepare m => .prepare { m with myInfo := m.myInfo.withRtt rtt }
  | .promise m => .promise { m with myInfo := m.myInfo.withRtt rtt }
  | .accept m => .accept { m with myInfo := m.myInfo.withRtt rtt }
  | .permit m => .permit { m with myInfo := m.myInfo.withRtt rtt }
  | .prepareAck m => .prepareAck { m with myInfo := m.myInfo.withRtt rtt }
  | .acceptAck m => .acceptAck { m with myInfo := m.myInfo.withRtt rtt }

namespace PackUnpack.Lawful

variable {D : PackUnpack} (h : D.Lawful)

include h

/-- An ID is read back as it was written. -/
theorem proposalID : Undoes (ProposalID.unmarshal D) (ProposalID.marshal D) id := by
  intro p rest
  rw [ProposalID.unmarshal, ProposalID.marshal, List.append_assoc, h.uint32.run_bind,
    h.string.run_bind]
  rfl

/-- So is an address. -/
theorem peerAddr : Undoes (PeerAddr.unmarshal D) (PeerAddr.marshal D) id := by
  intro a rest
  simp only [PeerAddr.unmarshal, PeerAddr.marshal, List.append_assoc, h.uint32.run_bind,
    h.uint16.run_bind, h.uint8.run_bind]
  rcases a with ⟨ip, port, _ | _⟩ <;> rfl

/-- A peer is read back with the round trip time that the memory held. -/
theorem peerInfo (rtt : UInt64) :
    Undoes (PeerInfo.unmarshal D rtt) (PeerInfo.marshal D) (PeerInfo.withRtt rtt) := by
  intro p rest
  rw [PeerInfo.unmarshal, PeerInfo.marshal, List.append_assoc, h.string.run_bind,
    h.peerAddr.run_bind]
  rfl

/-- A set of peers is read back as a copy. -/
theorem peerSet (rtt : UInt64) :
    Undoes (PeerSet.unmarshal D rtt) (PeerSet.marshal D) PeerSet.copied := by
  intro peers rest
  have hcopies : (peers.entries.map (PeerInfo.withRtt rtt)).map PeerInfo.copy =
      (PeerSet.copied peers).entries := by
    rw [List.map_map]
    rfl
  rw [PeerSet.unmarshal, PeerSet.marshal, List.append_assoc, h.count.run_bind, id, Table.size,
    StateT.run_bind, (h.peerInfo rtt).readMany]
  change some (Table.ofList _, rest) = _
  rw [hcopies, Table.ofList_entries]

/-! ### One lemma for each type of message -/

/-- A ping is read back up to the round trip times. -/
theorem pingMessage (rtt : UInt64) :
    Undoes (PingMessage.unmarshal D rtt) (PingMessage.marshal D)
      fun m => ⟨m.timestamp, m.myInfo.withRtt rtt, PeerSet.copied m.peers⟩ := by
  intro m rest
  simp only [PingMessage.unmarshal, PingMessage.marshal, List.append_assoc, h.uint64.run_bind,
    (h.peerInfo rtt).run_bind, (h.peerSet rtt).run_bind]
  rfl

/-- A pong is read back up to the round trip time. -/
theorem pongMessage (rtt : UInt64) :
    Undoes (PongMessage.unmarshal D rtt) (PongMessage.marshal D)
      fun m => { m with myInfo := m.myInfo.withRtt rtt } := by
  intro m rest
  simp only [PongMessage.unmarshal, PongMessage.marshal, List.append_assoc, h.uint64.run_bind,
    (h.peerInfo rtt).run_bind]
  rfl

/-- A heartbeat is read back up to the round trip time. -/
theorem heartbeatMessage (rtt : UInt64) :
    Undoes (HeartbeatMessage.unmarshal D rtt) (HeartbeatMessage.marshal D)
      fun m => { m with myInfo := m.myInfo.withRtt rtt } := by
  intro m rest
  simp only [HeartbeatMessage.unmarshal, HeartbeatMessage.marshal, List.append_assoc, (h.peerInfo
    rtt).run_bind, h.string.run_bind, h.proposalID.run_bind]
  rfl

/-- A prepare request is read back up to the round trip time. -/
theorem prepareMessage (rtt : UInt64) :
    Undoes (PrepareMessage.unmarshal D rtt) (PrepareMessage.marshal D)
      fun m => { m with myInfo := m.myInfo.withRtt rtt } := by
  intro m rest
  simp only [PrepareMessage.unmarshal, PrepareMessage.marshal, List.append_assoc, (h.peerInfo
    rtt).run_bind, h.proposalID.run_bind]
  rfl

/-- A promise is read back up to the round trip time. -/
theorem promiseMessage (rtt : UInt64) :
    Undoes (PromiseMessage.unmarshal D rtt) (PromiseMessage.marshal D)
      fun m => { m with myInfo := m.myInfo.withRtt rtt } := by
  intro m rest
  simp only [PromiseMessage.unmarshal, PromiseMessage.marshal, List.append_assoc, (h.peerInfo
    rtt).run_bind, h.proposalID.run_bind, h.string.run_bind]
  rfl

/-- An accept request is read back up to the round trip time. -/
theorem acceptMessage (rtt : UInt64) :
    Undoes (AcceptMessage.unmarshal D rtt) (AcceptMessage.marshal D)
      fun m => { m with myInfo := m.myInfo.withRtt rtt } := by
  intro m rest
  simp only [AcceptMessage.unmarshal, AcceptMessage.marshal, List.append_assoc, (h.peerInfo
    rtt).run_bind, h.proposalID.run_bind, h.string.run_bind]
  rfl

/-- A permit is read back up to the round trip time. -/
theorem permitMessage (rtt : UInt64) :
    Undoes (PermitMessage.unmarshal D rtt) (PermitMessage.marshal D)
      fun m => { m with myInfo := m.myInfo.withRtt rtt } := by
  intro m rest
  simp only [PermitMessage.unmarshal, PermitMessage.marshal, List.append_assoc, (h.peerInfo
    rtt).run_bind, h.proposalID.run_bind, h.string.run_bind]
  rfl

/-- The refusal of a prepare request is read back up to the round trip time. -/
theorem prepareAckMessage (rtt : UInt64) :
    Undoes (PrepareAckMessage.unmarshal D rtt) (PrepareAckMessage.marshal D)
      fun m => { m with myInfo := m.myInfo.withRtt rtt } := by
  intro m rest
  simp only [PrepareAckMessage.unmarshal, PrepareAckMessage.marshal, List.append_assoc, (h.peerInfo
    rtt).run_bind, h.proposalID.run_bind]
  rfl

/-- The refusal of an accept request is read back up to the round trip time. -/
theorem acceptAckMessage (rtt : UInt64) :
    Undoes (AcceptAckMessage.unmarshal D rtt) (AcceptAckMessage.marshal D)
      fun m => { m with myInfo := m.myInfo.withRtt rtt } := by
  intro m rest
  simp only [AcceptAckMessage.unmarshal, AcceptAckMessage.marshal, List.append_assoc, (h.peerInfo
    rtt).run_bind, h.proposalID.run_bind]
  rfl

/-- A message is read back as it was written, up to the round trip times. -/
theorem message (rtt : UInt64) (m : Message) (rest : List UInt8) :
    (Message.unmarshal D rtt m.cmd).run (m.marshal D ++ rest) = some (m.withRtt rtt, rest) := by
  cases m with
  | ping m => exact (h.pingMessage rtt).map Message.ping m rest
  | pong m => exact (h.pongMessage rtt).map Message.pong m rest
  | heartbeat m => exact (h.heartbeatMessage rtt).map Message.heartbeat m rest
  | prepare m => exact (h.prepareMessage rtt).map Message.prepare m rest
  | promise m => exact (h.promiseMessage rtt).map Message.promise m rest
  | accept m => exact (h.acceptMessage rtt).map Message.accept m rest
  | permit m => exact (h.permitMessage rtt).map Message.permit m rest
  | prepareAck m => exact (h.prepareAckMessage rtt).map Message.prepareAck m rest
  | acceptAck m => exact (h.acceptAckMessage rtt).map Message.acceptAck m rest

end PackUnpack.Lawful

/-- **The wire format.** If the reads of `deps` undo its writes, every message of each of the nine
types, followed by any bytes, is read back with all its fields but the round trip times and leaves
exactly these bytes; and messages of one type with the same bytes differ in round trip times
only. -/
theorem unmarshal_marshal {D : PackUnpack} (h : D.Lawful) (rtt : UInt64) :
    (∀ (m : Message) (rest : List UInt8),
      (Message.unmarshal D rtt m.cmd).run (m.marshal D ++ rest) = some (m.withRtt rtt, rest)) ∧
    ∀ m m' : Message, m.cmd = m'.cmd → m.marshal D = m'.marshal D →
      m.withRtt rtt = m'.withRtt rtt := by
  refine ⟨h.message rtt, ?_⟩
  intro m m' hcmd hbytes
  have hread := h.message rtt m []
  rw [hcmd, hbytes, h.message rtt m' []] at hread
  exact (Prod.mk.inj (Option.some.inj hread)).1.symm

/-- A format: integers of fixed width with the least significant byte first, and strings with
their length before them. -/
def littleEndian : PackUnpack where
  packUInt8 n := writeNat 1 n.toNat
  packUInt16 n := writeNat 2 n.toNat
  packUInt32 n := writeNat 4 n.toNat
  packUInt64 n := writeNat 8 n.toNat
  packString s := writeCount s.length ++ s.flatMap (fun c => writeNat 1 c.toNat)
  packCount := writeCount
  unpackUInt8 := UInt8.ofNat <$> readNat 1
  unpackUInt16 := UInt16.ofNat <$> readNat 2
  unpackUInt32 := UInt32.ofNat <$> readNat 4
  unpackUInt64 := UInt64.ofNat <$> readNat 8
  unpackString := do
    let n ← readCount
    readMany (UInt8.ofNat <$> readNat 1) n
  unpackCount := readCount

/-- Its reads undo its writes. -/
theorem littleEndian_lawful : littleEndian.Lawful := by
  have hint : ∀ {α : Type} (width : ℕ) (toNat : α → ℕ) (ofNat : ℕ → α),
      (∀ a, ofNat (toNat a % 256 ^ width) = a) →
      Undoes (ofNat <$> readNat width) (fun a => writeNat width (toNat a)) id := by
    intro α width toNat ofNat hinv a rest
    have hread := (readNat_undoes width).map ofNat (toNat a) rest
    rwa [Function.comp_apply, hinv] at hread
  have hbyte : Undoes (UInt8.ofNat <$> readNat 1) (fun c => writeNat 1 c.toNat) id :=
    hint 1 UInt8.toNat UInt8.ofNat fun a => by simp
  refine ⟨hbyte, hint 2 UInt16.toNat UInt16.ofNat fun a => by simp,
    hint 4 UInt32.toNat UInt32.ofNat fun a => by simp,
    hint 8 UInt64.toNat UInt64.ofNat fun a => by simp, ?_, readCount_undoes⟩
  intro s rest
  rw [littleEndian, List.append_assoc, readCount_undoes.run_bind, id, hbyte.readMany, List.map_id,
    id]

/-- A ping that carries two peers, one of them reached over UDP, and a byte after it. -/
theorem unmarshal_marshal_ping :
    let a : PeerInfo := ⟨[97], ⟨1, 80, .tcp⟩, 7⟩
    let b : PeerInfo := ⟨[98], ⟨2, 81, .udp⟩, 8⟩
    let m : Message := .ping ⟨5, a, Table.ofList [b, a]⟩
    (Message.unmarshal littleEndian 0 1).run (m.marshal littleEndian ++ [255]) =
      some (m.withRtt 0, [255]) :=
  (unmarshal_marshal littleEndian_lawful 0).1 (.ping ⟨5, ⟨[97], ⟨1, 80, .tcp⟩, 7⟩, Table.ofList
    [⟨[98], ⟨2, 81, .udp⟩, 8⟩, ⟨[97], ⟨1, 80, .tcp⟩, 7⟩]⟩) [255]

end CppPaxos
