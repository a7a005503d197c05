import CppPaxos.Library.Machine
import CppPaxos.Proto

/-!
# The server and its network

`server.h` and `server.cpp`, as far as the server knows its peers, holds sockets to them
and sends the messages of its node. What `Connect` returns is part of a call, in the order
in which the call may ask for it. A message counts as sent when it is handed to a socket;
what `SendPacket` returns is not looked at.
-/

namespace CppPaxos

open Machines Tables

/-- `deps::SocketBase*`, as the address of the socket. -/
abbrev SocketPtr := ℕ

/-- `nullptr`. -/
abbrev SocketPtr.null : SocketPtr := 0

/-- A message handed to a socket. -/
abbrev Packet := SocketPtr × Message

/-- `std::set<std::string>`. -/
abbrev UIDSet := Table (id : Str → Str)

/-- `class Server`: the peers, the sockets and the chosen acceptors. -/
structure ServerNetwork where
  /-- `m_myUID`. -/
  myUID : Str
  /-- `m_localIP`. -/
  localIP : UInt32
  /-- `m_localPort`. -/
  localPort : UInt16
  /-- `m_socketType`. -/
  socketType : SocketType
  /-- `m_stablePeers`: the configured peers, whose UIDs are learnt later. -/
  stablePeers : List PeerInfo
  /-- `m_peers`. -/
  peers : Map Str PeerInfo
  /-- `m_addr2socket`. -/
  addr2socket : Map PeerAddr SocketPtr
  /-- `m_socket2addr`. -/
  socket2addr : Map SocketPtr PeerAddr
  /-- `m_maxChoosenAcceptorUID`: the largest UID chosen so far. -/
  maxChoosenAcceptorUID : Str
  /-- `m_majorityAcceptors`. -/
  majorityAcceptors : UIDSet
  /-- `m_quorumSize`. -/
  quorumSize : ℕ
  deriving DecidableEq

namespace ServerNetwork

/-- The constructor. It leaves the local address unset, so its first contents are arguments;
`quorumSize` is the argument as converted to `size_t`. -/
def new (myid : Str) (quorumSize : ℕ) (localIP : UInt32) (localPort : UInt16)
    (socketType : SocketType) : ServerNetwork where
  myUID := myid
  localIP := localIP
  localPort := localPort
  socketType := socketType
  stablePeers := []
  peers := .empty
  addr2socket := .empty
  socket2addr := .empty
  maxChoosenAcceptorUID := []
  majorityAcceptors := .empty
  quorumSize := quorumSize

/-- `Init`, with the two IPs as `inet_addr` converts them. -/
def init (S : ServerNetwork) (type : SocketType) (localIP : UInt32) (localPort : UInt16)
    (dstIP : UInt32) (dstPort : UInt16) : ServerNetwork :=
  { S with
    localIP := localIP
    localPort := localPort
    socketType := type
    stablePeers := S.stablePeers ++ [PeerInfo.copy ⟨[], ⟨dstIP, dstPort, type⟩, 0⟩] }

/-- `GetMyNodeInfo`, which returns a copy. -/
def getMyNodeInfo (S : ServerNetwork) : PeerInfo :=
  PeerInfo.copy ⟨S.myUID, ⟨S.localIP, S.localPort, S.socketType⟩, 0⟩

/-! ### Peers -/

/-- `updateStablePeers`: a configured peer without a UID gets the one learnt for its address. -/
def updateStablePeers (S : ServerNetwork) (peerId : Str) (addr : PeerAddr) : ServerNetwork :=
  { S with
    stablePeers := S.stablePeers.map fun peer =>
      if peer.noPeerId ∧ peer.addr = addr then { peer with id := peerId } else peer }

/-- `AddPeerInfo`: one UID has one address, the first one. The round trip time of a new entry is
unset, so it is an argument. -/
def addPeerInfo (S : ServerNetwork) (peerId : Str) (addr : PeerAddr) (rtt : UInt64) :
    ServerNetwork × Bool :=
  if peerId.isEmpty then (S, false)
  else if peerId = S.myUID then (S, false)
  else
    match Map.get? S.peers peerId with
    | some peer => (S, peer.addr = addr)
    | none =>
      ({ S with peers := S.peers.assign (peerId, ⟨peerId, addr, rtt⟩) }.updateStablePeers
        peerId addr, true)

/-- `UpdatePeerInfo`. -/
def updatePeerInfo (S : ServerNetwork) (peerId : Str) (rtt : UInt64) : ServerNetwork :=
  match Map.get? S.peers peerId with
  | some peer =>
    { S with peers := S.peers.assign (peerId, { peer with rtt := (peer.rtt * 3 + rtt) / 4 }) }
  | none => S

/-- `RemovePeerInfo`. -/
def removePeerInfo (S : ServerNetwork) (peerId : Str) : ServerNetwork :=
  { S with peers := S.peers.erase peerId }

/-- The calls of `AddPeerInfo` for a list of peers. -/
def addPeers (S : ServerNetwork) (rtt : ℕ → UInt64) : List PeerInfo → ServerNetwork
  | [] => S
  | peer :: rest =>
    (S.addPeerInfo peer.id peer.addr (rtt 0)).1.addPeers (fun i => rtt (i + 1)) rest

/-- `HandlePingMessage`: the sender is added, then the peers that the message carries, and the
socket gets a pong. -/
def handlePingMessage (S : ServerNetwork) (m : PingMessage) (s : SocketPtr) (rtt : ℕ → UInt64) :
    ServerNetwork × List Packet :=
  let S := S.addPeers rtt (m.myInfo :: m.peers.entries)
  (S, [(s, .pong ⟨m.timestamp, S.getMyNodeInfo⟩)])

/-- `HandlePongMessage`. -/
def handlePongMessage (S : ServerNetwork) (m : PongMessage) (now : UInt64) : ServerNetwork :=
  let lastStamp := m.timestamp
  let rtt := if now > lastStamp then now - lastStamp else 0
  S.updatePeerInfo m.myInfo.id rtt

/-! ### Sockets -/

/-- `SendMessageToPeer`. `connect` is what `Connect` returns. A message for an address without a
socket is not sent: the socket is only stored. -/
def sendMessageToPeer (S : ServerNetwork) (msg : Message) (addr : PeerAddr)
    (connect : SocketPtr) : ServerNetwork × List Packet :=
  match Map.get? S.addr2socket addr with
  | none =>
    if connect = .null then (S, [])
    else
      ({ S with
        addr2socket := S.addr2socket.assign (addr, connect)
        socket2addr := S.socket2addr.assign (connect, addr) }, [])
  | some pSocket => (S, if pSocket = .null then [] else [(pSocket, msg)])

/-- The calls of `SendMessageToPeer` for a list of addresses. -/
def sendMessageToEach (S : ServerNetwork) (msg : Message) (connect : ℕ → SocketPtr) :
    List PeerAddr → ServerNetwork × List Packet
  | [] => (S, [])
  | addr :: rest =>
    let (S, sent) := S.sendMessageToPeer msg addr (connect 0)
    let (S, more) := S.sendMessageToEach msg (fun i => connect (i + 1)) rest
    (S, sent ++ more)

/-- The addresses that `SendMessageToAllPeer` hands to `SendMessageToPeer`: those of the peers,
then those of the configured peers whose UIDs are not among the peers. -/
def broadcastTargets (S : ServerNetwork) : List PeerAddr :=
  S.peers.entries.map (fun entry => entry.2.addr) ++
    (S.stablePeers.filter fun peer => (Map.get? S.peers peer.id).isNone).map PeerInfo.addr

/-- `SendMessageToAllPeer`. The peers do not change while it sends. -/
def sendMessageToAllPeer (S : ServerNetwork) (msg : Message) (connect : ℕ → SocketPtr) :
    ServerNetwork × List Packet :=
  S.sendMessageToEach msg connect S.broadcastTargets

/-- `SendPingMessage`. -/
def sendPingMessage (S : ServerNetwork) (now : UInt64) (connect : ℕ → SocketPtr) :
    ServerNetwork × List Packet :=
  let peers : PeerSet := .ofList (S.peers.entries.map fun entry => entry.2.copy)
  S.sendMessageToAllPeer (.ping ⟨now, S.getMyNodeInfo, peers⟩) connect

/-- `HandleClose`. -/
def handleClose (S : ServerNetwork) (s : SocketPtr) : ServerNetwork :=
  match Map.get? S.socket2addr s with
  | some addr =>
    { S with
      addr2socket := S.addr2socket.erase addr
      socket2addr := S.socket2addr.erase s }
  | none => S

/-! ### Messages of the node -/

/-- The loop of `SelectMajorityAcceptors`. The iterator is the list of the entries from its
position on, and at the end it is the empty list. `none` means that the fuel ran out. -/
def selectLoop (S : ServerNetwork) : ℕ → ℕ → List (Str × PeerInfo) → UIDSet → Option UIDSet
  | 0, cnt, _, acceptors => if cnt < S.quorumSize then none else some acceptors
  | fuel + 1, cnt, itr, acceptors =>
    if cnt < S.quorumSize then
      match itr with
      | [] => S.selectLoop fuel cnt S.peers.entries acceptors
      | entry :: rest => S.selectLoop fuel (cnt + 1) rest (acceptors.insert entry.2.id)
    else some acceptors

/-- `SelectMajorityAcceptors`, with fuel for the loop. -/
def selectWithFuel (S : ServerNetwork) (fuel : ℕ) (acceptors : UIDSet) : Option UIDSet :=
  if S.peers.size < S.quorumSize then some acceptors
  else S.selectLoop fuel 0 (S.peers.upperBound S.maxChoosenAcceptorUID) .empty

/-- `SelectMajorityAcceptors`. One round more than there are acceptors to choose is enough. -/
def selectMajorityAcceptors (S : ServerNetwork) (acceptors : UIDSet) : UIDSet :=
  (S.selectWithFuel (S.quorumSize + 1) acceptors).getD acceptors

/-- The addresses of the chosen acceptors that are peers. -/
def acceptorAddrs (S : ServerNetwork) : List PeerAddr :=
  S.majorityAcceptors.entries.filterMap fun uid => (Map.get? S.peers uid).map PeerInfo.addr

/-- The first line of `sendPrepare`. -/
def chooseAcceptors (S : ServerNetwork) : ServerNetwork :=
  { S with majorityAcceptors := S.selectMajorityAcceptors S.majorityAcceptors }

/-- `sendPrepare`. -/
def sendPrepare (S : ServerNetwork) (proposalID : ProposalID) (connect : ℕ → SocketPtr) :
    ServerNetwork × List Packet :=
  let S := S.chooseAcceptors
  if S.majorityAcceptors.entries.isEmpty then (S, [])
  else S.sendMessageToEach (.prepare ⟨S.getMyNodeInfo, proposalID⟩) connect S.acceptorAddrs

/-- `sendAccept`. -/
def sendAccept (S : ServerNetwork) (proposalID : ProposalID) (proposalValue : Str)
    (connect : ℕ → SocketPtr) : ServerNetwork × List Packet :=
  S.sendMessageToEach (.accept ⟨S.getMyNodeInfo, proposalID, proposalValue⟩) connect
    S.acceptorAddrs

/-- The address of a peer. -/
def addrOf (S : ServerNetwork) (uid : Str) : List PeerAddr :=
  ((Map.get? S.peers uid).map PeerInfo.addr).toList

/-- What `sendPromise`, `sendPermit` and the two refusals share: the message goes to the peer with
that UID, if there is one. -/
def sendToUID (S : ServerNetwork) (msg : Message) (toUID : Str) (connect : ℕ → SocketPtr) :
    ServerNetwork × List Packet :=
  S.sendMessageToEach msg connect (S.addrOf toUID)

/-- `sendPromise`. -/
def sendPromise (S : ServerNetwork) (toUID : Str) (proposalID acceptID : ProposalID)
    (acceptValue : Str) (connect : ℕ → SocketPtr) : ServerNetwork × List Packet :=
  S.sendToUID (.promise ⟨S.getMyNodeInfo, proposalID, acceptID, acceptValue⟩) toUID connect

/-- `sendPermit`. -/
def sendPermit (S : ServerNetwork) (proposerUID : Str) (proposalID : ProposalID)
    (acceptedValue : Str) (connect : ℕ → SocketPtr) : ServerNetwork × List Packet :=
  S.sendToUID (.permit ⟨S.getMyNodeInfo, proposalID, acceptedValue⟩) proposerUID connect

/-- `sendPrepareNACK`. -/
def sendPrepareNACK (S : ServerNetwork) (proposerUID : Str) (proposalID promisedID : ProposalID)
    (connect : ℕ → SocketPtr) : ServerNetwork × List Packet :=
  S.sendToUID (.prepareAck ⟨S.getMyNodeInfo, proposalID, promisedID⟩) proposerUID connect

/-- `sendAcceptNACK`. -/
def sendAcceptNACK (S : ServerNetwork) (proposerUID : Str) (proposalID promisedID : ProposalID)
    (connect : ℕ → SocketPtr) : ServerNetwork × List Packet :=
  S.sendToUID (.acceptAck ⟨S.getMyNodeInfo, proposalID, promisedID⟩) proposerUID connect

/-- `sendHeartbeat`. -/
def sendHeartbeat (S : ServerNetwork) (leaderUID : Str) (leaderProposalID : ProposalID)
    (connect : ℕ → SocketPtr) : ServerNetwork × List Packet :=
  S.sendMessageToAllPeer (.heartbeat ⟨S.getMyNodeInfo, leaderUID, leaderProposalID⟩) connect

end ServerNetwork

/-- A call of a member function of `Server` that concerns its network. -/
inductive NetworkCall
  | init (type : SocketType) (localIP : UInt32) (localPort : UInt16) (dstIP : UInt32)
      (dstPort : UInt16)
  | addPeerInfo (peerId : Str) (addr : PeerAddr) (rtt : UInt64)
  | updatePeerInfo (peerId : Str) (rtt : UInt64)
  | removePeerInfo (peerId : Str)
  | handlePingMessage (m : PingMessage) (s : SocketPtr) (rtt : ℕ → UInt64)
  | handlePongMessage (m : PongMessage) (now : UInt64)
  | sendMessageToPeer (msg : Message) (addr : PeerAddr) (connect : SocketPtr)
  | sendMessageToAllPeer (msg : Message) (connect : ℕ → SocketPtr)
  | sendPingMessage (now : UInt64) (connect : ℕ → SocketPtr)
  | handleClose (s : SocketPtr)
  | sendPrepare (proposalID : ProposalID) (connect : ℕ → SocketPtr)
  | sendPromise (toUID : Str) (proposalID acceptID : ProposalID) (acceptValue : Str)
      (connect : ℕ → SocketPtr)
  | sendAccept (proposalID : ProposalID) (proposalValue : Str) (connect : ℕ → SocketPtr)
  | sendPermit (proposerUID : Str) (proposalID : ProposalID) (acceptedValue : Str)
      (connect : ℕ → SocketPtr)
  | sendPrepareNACK (proposerUID : Str) (proposalID promisedID : ProposalID)
      (connect : ℕ → SocketPtr)
  | sendAcceptNACK (proposerUID : Str) (proposalID promisedID : ProposalID)
      (connect : ℕ → SocketPtr)
  | sendHeartbeat (leaderUID : Str) (leaderProposalID : ProposalID) (connect : ℕ → SocketPtr)

namespace ServerNetwork

/-- The network of the server as a machine. -/
def machine : Machine ServerNetwork NetworkCall Packet where
  step S
    | .init type localIP localPort dstIP dstPort =>
      (S.init type localIP localPort dstIP dstPort, [])
    | .addPeerInfo peerId addr rtt => ((S.addPeerInfo peerId addr rtt).1, [])
    | .updatePeerInfo peerId rtt => (S.updatePeerInfo peerId rtt, [])
    | .removePeerInfo peerId => (S.removePeerInfo peerId, [])
    | .handlePingMessage m s rtt => S.handlePingMessage m s rtt
    | .handlePongMessage m now => (S.handlePongMessage m now, [])
    | .sendMessageToPeer msg addr connect => S.sendMessageToPeer msg addr connect
    | .sendMessageToAllPeer msg connect => S.sendMessageToAllPeer msg connect
    | .sendPingMessage now connect => S.sendPingMessage now connect
    | .handleClose s => (S.handleClose s, [])
    | .sendPrepare proposalID connect => S.sendPrepare proposalID connect
    | .sendPromise toUID proposalID acceptID acceptValue connect =>
      S.sendPromise toUID proposalID acceptID acceptValue connect
    | .sendAccept proposalID proposalValue connect =>
      S.sendAccept proposalID proposalValue connect
    | .sendPermit proposerUID proposalID acceptedValue connect =>
      S.sendPermit proposerUID proposalID acceptedValue connect
    | .sendPrepareNACK proposerUID proposalID promisedID connect =>
      S.sendPrepareNACK proposerUID proposalID promisedID connect
    | .sendAcceptNACK proposerUID proposalID promisedID connect =>
      S.sendAcceptNACK proposerUID proposalID promisedID connect
    | .sendHeartbeat leaderUID leaderProposalID connect =>
      S.sendHeartbeat leaderUID leaderProposalID connect

end ServerNetwork

end CppPaxos
