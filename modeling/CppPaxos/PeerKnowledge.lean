import CppPaxos.EventLoop
import CppPaxos.PeerRecords

/-!
# What a server learns of its peers

Only a received ping adds peers, and nothing in the event loop removes one. So the peers of a
server are those that were named in the pings it has received, except itself, and what is
true of each peer named there is true of each entry.
-/

namespace CppPaxos

open Machines Tables

/-- The peers that a call may add, as they are named in it. -/
def NetworkCall.carried : NetworkCall → List PeerInfo
  | .addPeerInfo peerId addr rtt => [⟨peerId, addr, rtt⟩]
  | .handlePingMessage m _ _ => m.myInfo :: m.peers.entries
  | _ => []

section Named

variable {myUID uid : Str}

/-- Addresses are named for a UID if the list has a peer with it. -/
theorem exists_mem_namedEvents_iff {peers : List PeerInfo} {rtt : ℕ → UInt64} :
    (∃ event ∈ namedEvents myUID uid rtt peers, event.addr?.isSome) ↔
      (∃ peer ∈ peers, peer.id = uid) ∧ IsPeerUID myUID uid := by
  induction peers generalizing rtt with
  | nil => simp [namedEvents]
  | cons peer rest ih =>
    have hfirst : (∃ event ∈ (if peer.id = uid ∧ IsPeerUID myUID uid then
        [PeerEvent.named peer.addr (rtt 0)] else []), event.addr?.isSome) ↔
          peer.id = uid ∧ IsPeerUID myUID uid := by
      split <;> simp_all [PeerEvent.addr?]
    rw [List.exists_mem_cons_iff, or_and_right, ← hfirst, ← @ih fun i => rtt (i + 1), namedEvents]
    simp only [List.mem_append, or_and_right, exists_or]

/-- Naming peers removes nothing. -/
theorem removed_notMem_namedEvents {peers : List PeerInfo} {rtt : ℕ → UInt64} :
    PeerEvent.removed ∉ namedEvents myUID uid rtt peers := by
  induction peers generalizing rtt with
  | nil => exact List.not_mem_nil
  | cons peer rest ih =>
    rw [namedEvents, List.mem_append, not_or]
    refine ⟨?_, ih⟩
    split <;> simp

/-- No call of the event loop is `Init`. -/
theorem NetworkCall.InLoop.ne_init {call : NetworkCall} (h : call.InLoop) (type : SocketType)
    (localIP : UInt32) (localPort : UInt16) (dstIP : UInt32) (dstPort : UInt16) :
    call ≠ .init type localIP localPort dstIP dstPort := by
  rintro rfl
  cases h

/-- A call of the event loop removes no peer. -/
theorem NetworkCall.InLoop.removed_notMem {call : NetworkCall} (h : call.InLoop) :
    PeerEvent.removed ∉ call.peerEvents myUID uid := by
  cases h with
  | handlePingMessage m s rtt => exact removed_notMem_namedEvents
  | handlePongMessage m now =>
    rw [NetworkCall.peerEvents]
    split <;> simp
  | sendPingMessage | sendHeartbeat | handleClose => exact List.not_mem_nil

/-- It names addresses for the peers that it carries. -/
theorem NetworkCall.InLoop.exists_named_iff {call : NetworkCall} (h : call.InLoop) :
    (∃ event ∈ call.peerEvents myUID uid, event.addr?.isSome) ↔
      (∃ peer ∈ call.carried, peer.id = uid) ∧ IsPeerUID myUID uid := by
  cases h with
  | handlePingMessage m s rtt => exact exists_mem_namedEvents_iff
  | handlePongMessage m now =>
    rw [NetworkCall.peerEvents]
    split <;> simp [PeerEvent.addr?, NetworkCall.carried]
  | sendPingMessage | sendHeartbeat | handleClose =>
    simp [NetworkCall.peerEvents, NetworkCall.carried]

end Named

namespace ServerNetwork

/-- Calls of the event loop do not change who and where the server is. -/
theorem getMyNodeInfo_run {calls : List NetworkCall} (h : ∀ call ∈ calls, call.InLoop)
    (S : ServerNetwork) : (machine.run S calls).getMyNodeInfo = S.getMyNodeInfo := by
  induction calls generalizing S with
  | nil => rfl
  | cons call calls ih =>
    obtain ⟨hcall, hcalls⟩ := List.forall_mem_cons.mp h
    rw [Machine.run_cons, ih hcalls, S.getMyNodeInfo_next hcall.ne_init]

/-- Calls that only send leave the peers as they are. -/
theorem samePeers_run {calls : List NetworkCall}
    (h : ∀ call ∈ calls, ∀ S : ServerNetwork, (S.sending call).isSome) (S : ServerNetwork) :
    S.SamePeers (machine.run S calls) := by
  induction calls generalizing S with
  | nil => exact ⟨rfl, rfl⟩
  | cons call calls ih =>
    obtain ⟨hcall, hcalls⟩ := List.forall_mem_cons.mp h
    obtain ⟨d, hd⟩ := Option.isSome_iff_exists.mp (hcall S)
    obtain ⟨hpeers, hstable⟩ := samePeers_of_sending hd
    obtain ⟨hpeers', hstable'⟩ := ih hcalls (machine.next S call)
    exact ⟨hpeers'.trans hpeers, hstable'.trans hstable⟩

/-- Calls of the event loop add the peers that they carry and remove none. -/
theorem isSome_run {calls : List NetworkCall} (h : ∀ call ∈ calls, call.InLoop)
    (S : ServerNetwork) (uid : Str) :
    (Map.get? (machine.run S calls).peers uid).isSome ↔ (Map.get? S.peers uid).isSome ∨
      (∃ call ∈ calls, ∃ peer ∈ call.carried, peer.id = uid) ∧ uid ≠ [] ∧ uid ≠ S.myUID := by
  have hkept : PeerEvent.removed ∉ calls.flatMap (NetworkCall.peerEvents S.myUID uid) := by
    intro hremoved
    obtain ⟨call, hcall, hevent⟩ := List.mem_flatMap.mp hremoved
    exact (h call hcall).removed_notMem hevent
  rw [get?_run, PeerEvent.isSome_foldl_record hkept]
  refine or_congr Iff.rfl ?_
  constructor
  · rintro ⟨event, hevent, hnamed⟩
    obtain ⟨call, hcall, hevent⟩ := List.mem_flatMap.mp hevent
    obtain ⟨hpeer, hother⟩ := (h call hcall).exists_named_iff.mp ⟨event, hevent, hnamed⟩
    exact ⟨⟨call, hcall, hpeer⟩, hother⟩
  · rintro ⟨⟨call, hcall, hpeer⟩, hother⟩
    obtain ⟨event, hevent, hnamed⟩ := (h call hcall).exists_named_iff.mpr ⟨hpeer, hother⟩
    exact ⟨event, List.mem_flatMap.mpr ⟨call, hcall, hevent⟩, hnamed⟩

section Vouched

/-- Whatever the server knows of its peers satisfies `P`: each entry carries its UID, is not for
the server itself, and `P` holds of its UID and address, as it does for a configured peer once its
UID is known. -/
structure Vouched (P : Str → PeerAddr → Prop) (S : ServerNetwork) : Prop where
  named : S.PeersNamed
  not_mine : ∀ uid entry, Map.get? S.peers uid = some entry → uid ≠ [] ∧ uid ≠ S.myUID
  peers : ∀ uid entry, Map.get? S.peers uid = some entry → P uid entry.addr
  stablePeers : ∀ peer ∈ S.stablePeers, peer.id ≠ [] → P peer.id peer.addr

variable {P : Str → PeerAddr → Prop} {S : ServerNetwork}

/-- It is a matter of the peers and the UID of the server. -/
theorem Vouched.of_eq {T : ServerNetwork} (h : S.Vouched P) (hmine : T.myUID = S.myUID)
    (hsame : S.SamePeers T) : T.Vouched P := by
  refine ⟨?_, ?_, ?_, ?_⟩
  · rw [PeersNamed, hsame.peers]
    exact h.named
  · rw [hsame.peers, hmine]
    exact h.not_mine
  · rw [hsame.peers]
    exact h.peers
  · rw [hsame.stablePeers]
    exact h.stablePeers

/-- A peer that satisfies `P` may be added. -/
theorem Vouched.addPeerInfo (h : S.Vouched P) {peerId : Str} {addr : PeerAddr} (rtt : UInt64)
    (hP : peerId ≠ [] → P peerId addr) : (S.addPeerInfo peerId addr rtt).1.Vouched P := by
  have hmine : (S.addPeerInfo peerId addr rtt).1.myUID = S.myUID := by rw [addPeerInfo_eq]
  refine ⟨h.named.addPeerInfo peerId addr rtt, ?_, ?_, ?_⟩
  · intro uid entry hentry
    rw [hmine]
    rcases get?_or_of_get?_addPeerInfo hentry with hold | ⟨-, hother, -⟩
    · exact h.not_mine uid entry hold
    · exact hother
  · intro uid entry hentry
    rcases get?_or_of_get?_addPeerInfo hentry with hold | ⟨rfl, hother, rfl⟩
    · exact h.peers uid entry hold
    · exact hP hother.1
  · rcases S.addPeerInfo_cases peerId addr rtt with ⟨-, hsame⟩ | ⟨hne, -, -, heq⟩
    · rw [hsame]
      exact h.stablePeers
    · rw [heq]
      intro peer hpeer hid
      obtain ⟨old, hold, rfl⟩ := List.mem_map.mp hpeer
      by_cases hlearnt : old.noPeerId ∧ old.addr = addr
      · rw [if_pos hlearnt]
        rw [← hlearnt.2] at hP
        exact hP hne
      · rw [if_neg hlearnt] at hid ⊢
        exact h.stablePeers old hold hid

/-- So may several. -/
theorem Vouched.addPeers {peers : List PeerInfo} : ∀ {S : ServerNetwork} {rtt : ℕ → UInt64},
    S.Vouched P → (∀ peer ∈ peers, peer.id ≠ [] → P peer.id peer.addr) →
      (S.addPeers rtt peers).Vouched P := by
  induction peers with
  | nil => exact fun h _ => h
  | cons peer rest ih =>
    intro S rtt h hP
    obtain ⟨hpeer, hrest⟩ := List.forall_mem_cons.mp hP
    exact ih (h.addPeerInfo _ hpeer) hrest

/-- A round trip time does not matter. -/
theorem Vouched.updatePeerInfo (h : S.Vouched P) (peerId : Str) (rtt : UInt64) :
    (S.updatePeerInfo peerId rtt).Vouched P := by
  refine ⟨h.named.updatePeerInfo peerId rtt, ?_, ?_, ?_⟩
  · intro uid entry hentry
    obtain ⟨old, hold, -⟩ := exists_of_get?_updatePeerInfo hentry
    rw [updatePeerInfo_eq]
    exact h.not_mine uid old hold
  · intro uid entry hentry
    obtain ⟨old, hold, haddr⟩ := exists_of_get?_updatePeerInfo hentry
    rw [haddr]
    exact h.peers uid old hold
  · rw [updatePeerInfo_eq]
    exact h.stablePeers

/-- A call of the event loop keeps it, if it holds of the peers that the call carries. -/
theorem Vouched.next (h : S.Vouched P) {call : NetworkCall} (hloop : call.InLoop)
    (hP : ∀ peer ∈ call.carried, peer.id ≠ [] → P peer.id peer.addr) :
    (machine.next S call).Vouched P := by
  have hmine : (machine.next S call).myUID = S.myUID :=
    congrArg PeerInfo.id (S.getMyNodeInfo_next hloop.ne_init)
  cases hloop with
  | handlePingMessage m s rtt => exact h.addPeers hP
  | handlePongMessage m now => exact h.updatePeerInfo _ _
  | sendPingMessage now connect => exact h.of_eq hmine (samePeers_of_sending rfl)
  | sendHeartbeat leaderUID leaderProposalID connect =>
    exact h.of_eq hmine (samePeers_of_sending rfl)
  | handleClose s => exact h.of_eq hmine (S.samePeers_handleClose s)

end Vouched

/-! ### What a ping carries -/

/-- The set of peers in a ping holds the entries in their order. -/
theorem PeersNamed.pingPeers {S : ServerNetwork} (h : S.PeersNamed) :
    (Table.ofList (S.peers.entries.map fun entry => entry.2.copy) : PeerSet).entries =
      S.peers.entries.map fun entry => entry.2.copy := by
  have hsorted : (S.peers.entries.map fun entry => entry.2.copy).Pairwise
      fun p q => p.id < q.id := by
    rw [List.pairwise_map]
    refine S.peers.sorted.imp_of_mem ?_
    intro entry entry' hmem hmem' hlt
    change entry.2.id < entry'.2.id
    rwa [h entry.1 entry.2 (Map.get?_eq_some_iff.mpr hmem),
      h entry'.1 entry'.2 (Map.get?_eq_some_iff.mpr hmem')]
  exact congrArg Table.entries (Table.ofList_entries (⟨_, hsorted⟩ : PeerSet))

/-- Whatever is sent to a list of addresses is the message. -/
theorem snd_of_mem_sendMessageToEach {msg : Message} {addrs : List PeerAddr} {packet : Packet} :
    ∀ {S : ServerNetwork} {connect : ℕ → SocketPtr},
      packet ∈ (S.sendMessageToEach msg connect addrs).2 → packet.2 = msg := by
  induction addrs with
  | nil => exact fun h => absurd h List.not_mem_nil
  | cons addr rest ih =>
    intro S connect h
    rw [sendMessageToEach_cons_snd] at h
    rcases List.mem_append.mp h with hfirst | hrest
    · unfold sendMessageToPeer at hfirst
      split at hfirst
      · split at hfirst <;> cases hfirst
      · split at hfirst
        · cases hfirst
        · rw [List.mem_singleton.mp hfirst]
    · exact ih hrest

/-- What a call of the event loop sends: a pong to a ping, a ping with everything that is known, or
a heartbeat. -/
theorem snd_of_mem_emits {S : ServerNetwork} {call : NetworkCall} (h : call.InLoop)
    {packet : Packet} (hpacket : packet ∈ machine.emits S call) :
    (∃ m s rtt, call = .handlePingMessage m s rtt ∧
        packet.2 = .pong ⟨m.timestamp, S.getMyNodeInfo⟩) ∨
      (∃ now connect, call = .sendPingMessage now connect ∧
        packet.2 = .ping ⟨now, S.getMyNodeInfo,
          .ofList (S.peers.entries.map fun entry => entry.2.copy)⟩) ∨
      ∃ uid id connect, call = .sendHeartbeat uid id connect ∧
        packet.2 = .heartbeat ⟨S.getMyNodeInfo, uid, id⟩ := by
  cases h with
  | handlePingMessage m s rtt =>
    refine Or.inl ⟨m, s, rtt, rfl, ?_⟩
    have hmine : (S.addPeers rtt (m.myInfo :: m.peers.entries)).getMyNodeInfo =
        S.getMyNodeInfo := by
      rw [addPeers_eq]
      rfl
    rw [List.mem_singleton.mp hpacket, hmine]
  | handlePongMessage m now => cases hpacket
  | sendPingMessage now connect =>
    exact Or.inr (Or.inl ⟨now, connect, rfl, snd_of_mem_sendMessageToEach hpacket⟩)
  | sendHeartbeat uid id connect =>
    exact Or.inr (Or.inr ⟨uid, id, connect, rfl, snd_of_mem_sendMessageToEach hpacket⟩)
  | handleClose s => cases hpacket

end ServerNetwork

end CppPaxos
