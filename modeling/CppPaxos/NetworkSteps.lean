import CppPaxos.ServerNetwork

/-!
# What the network of a server does at one call

A call either changes what is known of the peers, or closes a socket, or sends one message
to a list of addresses, which may open sockets. The lemmas here say which members each kind
of call leaves as they are.
-/

namespace CppPaxos

open Machines Tables

namespace ServerNetwork

section Sends

variable (S : ServerNetwork) (msg : Message)

/-- The two socket maps are all that `SendMessageToPeer` changes. -/
theorem sendMessageToPeer_eq (addr : PeerAddr) (connect : SocketPtr) :
    (S.sendMessageToPeer msg addr connect).1 =
      { S with
        addr2socket := (S.sendMessageToPeer msg addr connect).1.addr2socket
        socket2addr := (S.sendMessageToPeer msg addr connect).1.socket2addr } := by
  unfold sendMessageToPeer
  split
  · split <;> rfl
  · rfl

/-- The same for a list of addresses. -/
theorem sendMessageToEach_eq (connect : ℕ → SocketPtr) (addrs : List PeerAddr) :
    (S.sendMessageToEach msg connect addrs).1 =
      { S with
        addr2socket := (S.sendMessageToEach msg connect addrs).1.addr2socket
        socket2addr := (S.sendMessageToEach msg connect addrs).1.socket2addr } := by
  induction addrs generalizing S connect with
  | nil => rfl
  | cons addr rest ih =>
    rw [sendMessageToEach]
    dsimp only
    rw [ih, sendMessageToPeer_eq]

/-- Sending leaves the peers as they are. -/
@[simp] theorem sendMessageToEach_peers (connect : ℕ → SocketPtr) (addrs : List PeerAddr) :
    (S.sendMessageToEach msg connect addrs).1.peers = S.peers := by rw [sendMessageToEach_eq]

/-- Sending leaves the configured peers. -/
@[simp] theorem sendMessageToEach_stablePeers (connect : ℕ → SocketPtr) (addrs : List PeerAddr) :
    (S.sendMessageToEach msg connect addrs).1.stablePeers = S.stablePeers := by
  rw [sendMessageToEach_eq]

/-- Sending leaves the chosen acceptors. -/
@[simp] theorem sendMessageToEach_majorityAcceptors (connect : ℕ → SocketPtr)
    (addrs : List PeerAddr) :
    (S.sendMessageToEach msg connect addrs).1.majorityAcceptors = S.majorityAcceptors := by
  rw [sendMessageToEach_eq]

/-- Sending leaves the quorum size. -/
@[simp] theorem sendMessageToEach_quorumSize (connect : ℕ → SocketPtr) (addrs : List PeerAddr) :
    (S.sendMessageToEach msg connect addrs).1.quorumSize = S.quorumSize := by
  rw [sendMessageToEach_eq]

/-- Sending leaves the UID after which the choice of acceptors begins. -/
@[simp] theorem sendMessageToEach_maxChoosenAcceptorUID (connect : ℕ → SocketPtr)
    (addrs : List PeerAddr) :
    (S.sendMessageToEach msg connect addrs).1.maxChoosenAcceptorUID =
      S.maxChoosenAcceptorUID := by
  rw [sendMessageToEach_eq]

/-- The first address is served first. -/
theorem sendMessageToEach_cons_fst (connect : ℕ → SocketPtr) (addr : PeerAddr)
    (rest : List PeerAddr) :
    (S.sendMessageToEach msg connect (addr :: rest)).1 =
      ((S.sendMessageToPeer msg addr (connect 0)).1.sendMessageToEach msg
        (fun i => connect (i + 1)) rest).1 := rfl

/-- So its packets are the first ones. -/
theorem sendMessageToEach_cons_snd (connect : ℕ → SocketPtr) (addr : PeerAddr)
    (rest : List PeerAddr) :
    (S.sendMessageToEach msg connect (addr :: rest)).2 =
      (S.sendMessageToPeer msg addr (connect 0)).2 ++
        ((S.sendMessageToPeer msg addr (connect 0)).1.sendMessageToEach msg
          (fun i => connect (i + 1)) rest).2 := rfl

end Sends

/-- What a call sends: one message to a list of addresses, from some state on. -/
structure Sending where
  start : ServerNetwork
  msg : Message
  connect : ℕ → SocketPtr
  addrs : List PeerAddr

/-- What the calls of `SendMessageToPeer` in a call are. -/
def sending (S : ServerNetwork) : NetworkCall → Option Sending
  | .sendMessageToPeer msg addr connect => some ⟨S, msg, fun _ => connect, [addr]⟩
  | .sendMessageToAllPeer msg connect => some ⟨S, msg, connect, S.broadcastTargets⟩
  | .sendPingMessage now connect =>
    some ⟨S, .ping ⟨now, S.getMyNodeInfo, .ofList (S.peers.entries.map fun entry => entry.2.copy)⟩,
      connect, S.broadcastTargets⟩
  | .sendPrepare proposalID connect =>
    some ⟨S.chooseAcceptors, .prepare ⟨S.getMyNodeInfo, proposalID⟩, connect,
      S.chooseAcceptors.acceptorAddrs⟩
  | .sendPromise toUID proposalID acceptID acceptValue connect =>
    some ⟨S, .promise ⟨S.getMyNodeInfo, proposalID, acceptID, acceptValue⟩, connect,
      S.addrOf toUID⟩
  | .sendAccept proposalID proposalValue connect =>
    some ⟨S, .accept ⟨S.getMyNodeInfo, proposalID, proposalValue⟩, connect, S.acceptorAddrs⟩
  | .sendPermit proposerUID proposalID acceptedValue connect =>
    some ⟨S, .permit ⟨S.getMyNodeInfo, proposalID, acceptedValue⟩, connect, S.addrOf proposerUID⟩
  | .sendPrepareNACK proposerUID proposalID promisedID connect =>
    some ⟨S, .prepareAck ⟨S.getMyNodeInfo, proposalID, promisedID⟩, connect,
      S.addrOf proposerUID⟩
  | .sendAcceptNACK proposerUID proposalID promisedID connect =>
    some ⟨S, .acceptAck ⟨S.getMyNodeInfo, proposalID, promisedID⟩, connect,
      S.addrOf proposerUID⟩
  | .sendHeartbeat leaderUID leaderProposalID connect =>
    some ⟨S, .heartbeat ⟨S.getMyNodeInfo, leaderUID, leaderProposalID⟩, connect,
      S.broadcastTargets⟩
  | .init .. | .addPeerInfo .. | .updatePeerInfo .. | .removePeerInfo _ | .handlePingMessage ..
  | .handlePongMessage .. | .handleClose _ => none

/-- Nothing is sent to acceptors if there are none. -/
theorem sendPrepare_eq (S : ServerNetwork) (proposalID : ProposalID) (connect : ℕ → SocketPtr) :
    S.sendPrepare proposalID connect =
      S.chooseAcceptors.sendMessageToEach (.prepare ⟨S.getMyNodeInfo, proposalID⟩) connect
        S.chooseAcceptors.acceptorAddrs := by
  unfold sendPrepare
  dsimp only
  split
  · rename_i hempty
    rw [List.isEmpty_iff] at hempty
    rw [acceptorAddrs, hempty]
    rfl
  · rfl

/-- A call that sends is what it sends. -/
theorem step_of_sending {S : ServerNetwork} {call : NetworkCall} {d : Sending}
    (h : d ∈ S.sending call) :
    machine.step S call = d.start.sendMessageToEach d.msg d.connect d.addrs := by
  rw [Option.mem_def] at h
  cases call with
  | sendPrepare proposalID connect =>
    cases h
    exact S.sendPrepare_eq proposalID connect
  | sendMessageToPeer msg addr connect =>
    cases h
    simp only [machine, sendMessageToEach, List.append_nil]
  | _ => cases h <;> rfl

/-- It sends from the state before it, in which only the acceptors may have been chosen anew. -/
theorem start_of_sending {S : ServerNetwork} {call : NetworkCall} {d : Sending}
    (h : d ∈ S.sending call) : d.start = S ∨ d.start = S.chooseAcceptors := by
  rw [Option.mem_def] at h
  cases call with
  | sendPrepare proposalID connect =>
    cases h
    exact Or.inr rfl
  | _ => cases h <;> exact Or.inl rfl

/-- So it sends with the sockets that there are. -/
theorem sockets_of_sending {S : ServerNetwork} {call : NetworkCall} {d : Sending}
    (h : d ∈ S.sending call) :
    d.start.addr2socket = S.addr2socket ∧ d.start.socket2addr = S.socket2addr := by
  rcases start_of_sending h with hstart | hstart
  · rw [hstart]
    exact ⟨rfl, rfl⟩
  · rw [hstart]
    exact ⟨rfl, rfl⟩

/-- A peer that is known or rejected changes nothing. -/
theorem addPeerInfo_cases (S : ServerNetwork) (peerId : Str) (addr : PeerAddr) (rtt : UInt64) :
    (peerId = [] ∨ peerId = S.myUID ∨ (Map.get? S.peers peerId).isSome) ∧
        (S.addPeerInfo peerId addr rtt).1 = S ∨
      peerId ≠ [] ∧ peerId ≠ S.myUID ∧ Map.get? S.peers peerId = none ∧
        (S.addPeerInfo peerId addr rtt).1 =
          { S with peers := S.peers.assign (peerId, ⟨peerId, addr, rtt⟩) }.updateStablePeers
            peerId addr := by
  unfold addPeerInfo
  by_cases hempty : peerId.isEmpty
  · exact Or.inl ⟨Or.inl (List.isEmpty_iff.mp hempty), by rw [if_pos hempty]⟩
  · by_cases hmine : peerId = S.myUID
    · exact Or.inl ⟨Or.inr (Or.inl hmine), by rw [if_neg hempty, if_pos hmine]⟩
    · rw [if_neg hempty, if_neg hmine]
      cases hfound : Map.get? S.peers peerId with
      | some peer => exact Or.inl ⟨Or.inr (Or.inr rfl), rfl⟩
      | none =>
        have hne : peerId ≠ [] := by simpa using hempty
        exact Or.inr ⟨hne, hmine, rfl, rfl⟩

/-- Only `sendPrepare` chooses acceptors anew. -/
theorem start_eq_of_sending {S : ServerNetwork} {call : NetworkCall} {d : Sending}
    (h : d ∈ S.sending call) (hcall : ∀ p connect, call ≠ .sendPrepare p connect) :
    d.start = S := by
  rw [Option.mem_def] at h
  cases call with
  | sendPrepare p connect => exact absurd rfl (hcall p connect)
  | _ => cases h <;> rfl

section Peers

variable (S : ServerNetwork)

/-- The peers are all that `AddPeerInfo` changes. -/
theorem addPeerInfo_eq (peerId : Str) (addr : PeerAddr) (rtt : UInt64) :
    (S.addPeerInfo peerId addr rtt).1 =
      { S with
        peers := (S.addPeerInfo peerId addr rtt).1.peers
        stablePeers := (S.addPeerInfo peerId addr rtt).1.stablePeers } := by
  unfold addPeerInfo
  split
  · rfl
  · split
    · rfl
    · split <;> rfl

/-- A received ping changes the peers and the configured peers only. -/
theorem addPeers_eq (rtt : ℕ → UInt64) (peers : List PeerInfo) :
    S.addPeers rtt peers =
      { S with
        peers := (S.addPeers rtt peers).peers
        stablePeers := (S.addPeers rtt peers).stablePeers } := by
  induction peers generalizing S rtt with
  | nil => rfl
  | cons peer rest ih => rw [addPeers, ih, addPeerInfo_eq]

/-- A round trip time changes the peers only. -/
theorem updatePeerInfo_eq (peerId : Str) (rtt : UInt64) :
    S.updatePeerInfo peerId rtt = { S with peers := (S.updatePeerInfo peerId rtt).peers } := by
  unfold updatePeerInfo
  split <;> rfl

end Peers

/-- The members that a call may change only by sending or closing. -/
structure SameSockets (S T : ServerNetwork) : Prop where
  addr2socket : T.addr2socket = S.addr2socket
  socket2addr : T.socket2addr = S.socket2addr
  majorityAcceptors : T.majorityAcceptors = S.majorityAcceptors

/-- The members that a call may change only by learning of peers. -/
structure SamePeers (S T : ServerNetwork) : Prop where
  peers : T.peers = S.peers
  stablePeers : T.stablePeers = S.stablePeers

/-- A call that neither sends nor closes leaves the sockets as they are. -/
theorem sameSockets_of_silent {S : ServerNetwork} {call : NetworkCall}
    (h : S.sending call = none) (hclose : ∀ s, call ≠ .handleClose s) :
    S.SameSockets (machine.next S call) := by
  cases call with
  | init => exact ⟨rfl, rfl, rfl⟩
  | addPeerInfo peerId addr rtt =>
    change S.SameSockets (S.addPeerInfo peerId addr rtt).1
    rw [addPeerInfo_eq]
    exact ⟨rfl, rfl, rfl⟩
  | updatePeerInfo peerId rtt =>
    change S.SameSockets (S.updatePeerInfo peerId rtt)
    rw [updatePeerInfo_eq]
    exact ⟨rfl, rfl, rfl⟩
  | removePeerInfo => exact ⟨rfl, rfl, rfl⟩
  | handlePingMessage m s rtt =>
    change S.SameSockets (S.addPeers rtt (m.myInfo :: m.peers.entries))
    rw [addPeers_eq]
    exact ⟨rfl, rfl, rfl⟩
  | handlePongMessage m now =>
    change S.SameSockets (S.updatePeerInfo _ _)
    rw [updatePeerInfo_eq]
    exact ⟨rfl, rfl, rfl⟩
  | handleClose s => exact absurd rfl (hclose s)
  | _ => cases h

/-- A call that sends leaves the peers as they are. -/
theorem samePeers_of_sending {S : ServerNetwork} {call : NetworkCall} {d : Sending}
    (h : d ∈ S.sending call) : S.SamePeers (machine.next S call) := by
  have hnext : machine.next S call = (d.start.sendMessageToEach d.msg d.connect d.addrs).1 := by
    rw [Machine.next, step_of_sending h]
  rw [hnext]
  constructor <;> rcases start_of_sending h with hstart | hstart <;> simp [hstart, chooseAcceptors]

/-- So does `HandleClose`. -/
theorem samePeers_handleClose (S : ServerNetwork) (s : SocketPtr) :
    S.SamePeers (S.handleClose s) := by
  unfold handleClose
  split <;> exact ⟨rfl, rfl⟩

/-- Only `sendPrepare` changes the chosen acceptors. -/
theorem majorityAcceptors_next {S : ServerNetwork} {call : NetworkCall}
    (hcall : ∀ p connect, call ≠ .sendPrepare p connect) :
    (machine.next S call).majorityAcceptors = S.majorityAcceptors := by
  cases hsending : S.sending call with
  | some d =>
    rw [Machine.next, step_of_sending hsending, sendMessageToEach_majorityAcceptors,
      start_eq_of_sending hsending hcall]
  | none =>
    by_cases hclose : ∃ s, call = .handleClose s
    · obtain ⟨s, rfl⟩ := hclose
      change (S.handleClose s).majorityAcceptors = _
      unfold handleClose
      split <;> rfl
    · exact (sameSockets_of_silent hsending fun s hs => hclose ⟨s, hs⟩).majorityAcceptors

/-- The entry of a peer carries its UID. -/
def PeersNamed (S : ServerNetwork) : Prop :=
  ∀ uid peer, Map.get? S.peers uid = some peer → peer.id = uid

/-- A new entry carries its UID. -/
theorem PeersNamed.addPeerInfo {S : ServerNetwork} (h : S.PeersNamed) (peerId : Str)
    (addr : PeerAddr) (rtt : UInt64) : (S.addPeerInfo peerId addr rtt).1.PeersNamed := by
  rcases S.addPeerInfo_cases peerId addr rtt with ⟨-, hsame⟩ | ⟨-, -, -, heq⟩
  · rwa [hsame]
  · rw [heq]
    intro uid peer hpeer
    change Map.get? (S.peers.assign _) uid = some peer at hpeer
    rw [Map.get?_assign] at hpeer
    by_cases huid : peerId = uid
    · rw [if_pos huid, Option.some_inj] at hpeer
      rw [← hpeer]
      exact huid
    · rw [if_neg huid] at hpeer
      exact h uid peer hpeer

/-- So do all entries that are made for a ping. -/
theorem PeersNamed.addPeers {peers : List PeerInfo} : ∀ {S : ServerNetwork} {rtt : ℕ → UInt64},
    S.PeersNamed → (S.addPeers rtt peers).PeersNamed := by
  induction peers with
  | nil => exact fun h => h
  | cons peer rest ih => exact fun h => ih (h.addPeerInfo _ _ _)

/-- A round trip time leaves the UID of the entry. -/
theorem PeersNamed.updatePeerInfo {S : ServerNetwork} (h : S.PeersNamed) (peerId : Str)
    (rtt : UInt64) : (S.updatePeerInfo peerId rtt).PeersNamed := by
  unfold ServerNetwork.updatePeerInfo
  split
  · rename_i known hfound
    intro uid peer hpeer
    change Map.get? (S.peers.assign _) uid = some peer at hpeer
    rw [Map.get?_assign] at hpeer
    by_cases huid : peerId = uid
    · rw [if_pos huid, Option.some_inj] at hpeer
      rw [← hpeer, ← huid]
      exact h peerId known hfound
    · rw [if_neg huid] at hpeer
      exact h uid peer hpeer
  · exact h

/-- Every call keeps the names. -/
theorem PeersNamed.next {S : ServerNetwork} (h : S.PeersNamed) (call : NetworkCall) :
    (machine.next S call).PeersNamed := by
  have hframe : ∀ {T : ServerNetwork}, S.SamePeers T → T.PeersNamed := by
    intro T hsame
    rwa [PeersNamed, hsame.peers]
  cases hsending : S.sending call with
  | some d => exact hframe (samePeers_of_sending hsending)
  | none =>
    cases call with
    | init => exact h
    | addPeerInfo peerId addr rtt => exact h.addPeerInfo peerId addr rtt
    | updatePeerInfo peerId rtt => exact h.updatePeerInfo peerId rtt
    | removePeerInfo peerId =>
      intro uid peer hpeer
      change Map.get? (S.peers.erase peerId) uid = some peer at hpeer
      rw [Map.get?_erase] at hpeer
      split at hpeer
      · cases hpeer
      · exact h uid peer hpeer
    | handlePingMessage m s rtt => exact PeersNamed.addPeers h
    | handlePongMessage m now => exact h.updatePeerInfo _ _
    | handleClose s => exact hframe (S.samePeers_handleClose s)
    | _ => cases hsending

/-- The entries are named in every reachable state. -/
theorem peersNamed_run (myid : Str) (quorumSize : ℕ) (localIP : UInt32) (localPort : UInt16)
    (socketType : SocketType) (calls : List NetworkCall) :
    (machine.run (new myid quorumSize localIP localPort socketType) calls).PeersNamed := by
  induction calls using List.reverseRecOn with
  | nil =>
    intro uid peer hpeer
    cases hpeer
  | append_singleton calls call ih =>
    rw [Machine.run_concat]
    exact ih.next call

end ServerNetwork

end CppPaxos
