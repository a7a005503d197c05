import CppPaxos.NetworkSteps

/-!
# Broadcasts and the configured peers

`SendMessageToAllPeer` skips a configured peer once its UID is among the peers. This
reaches its address as long as the entry for that UID has the same address. The UID of a
configured peer is never forgotten, so the entry may be removed and learnt again with
another address.
-/

namespace CppPaxos

open Machines Tables

/-- The address of a peer that a call configures. -/
def NetworkCall.configured : NetworkCall → Option PeerAddr
  | .init type _ _ dstIP dstPort => some ⟨dstIP, dstPort, type⟩
  | _ => none

namespace ServerNetwork

/-- A broadcast reaches the address of every peer and every configured address. -/
structure ReachesAll (S : ServerNetwork) (configured : List PeerAddr) : Prop where
  peers : ∀ uid peer, Map.get? S.peers uid = some peer → peer.addr ∈ S.broadcastTargets
  configured : ∀ addr ∈ configured, addr ∈ S.broadcastTargets

/-- A new entry for a UID that a configured peer carries, with another address. -/
def Reassigns (S : ServerNetwork) (peerId : Str) (addr : PeerAddr) : Prop :=
  Map.get? S.peers peerId = none ∧ ∃ peer ∈ S.stablePeers, peer.id = peerId ∧ peer.addr ≠ addr

instance (S : ServerNetwork) (peerId : Str) (addr : PeerAddr) :
    Decidable (S.Reassigns peerId addr) :=
  inferInstanceAs (Decidable (_ ∧ _))

/-- No `AddPeerInfo` of a list makes such an entry. -/
def AddsKeep (S : ServerNetwork) (rtt : ℕ → UInt64) : List PeerInfo → Prop
  | [] => True
  | peer :: rest =>
    (peer.id = [] ∨ peer.id = S.myUID ∨ ¬S.Reassigns peer.id peer.addr) ∧
      (S.addPeerInfo peer.id peer.addr (rtt 0)).1.AddsKeep (fun i => rtt (i + 1)) rest

instance decidableAddsKeep : ∀ (S : ServerNetwork) (rtt : ℕ → UInt64) (peers : List PeerInfo),
    Decidable (S.AddsKeep rtt peers)
  | _, _, [] => isTrue trivial
  | S, rtt, peer :: rest =>
    have := decidableAddsKeep (S.addPeerInfo peer.id peer.addr (rtt 0)).1 (fun i => rtt (i + 1))
      rest
    inferInstanceAs (Decidable (_ ∧ _))

/-- No peer is learnt under the UID of a configured peer with another address. -/
def KeepsAddresses (S : ServerNetwork) : NetworkCall → Prop
  | .addPeerInfo peerId addr rtt => S.AddsKeep (fun _ => rtt) [⟨peerId, addr, rtt⟩]
  | .handlePingMessage m _ rtt => S.AddsKeep rtt (m.myInfo :: m.peers.entries)
  | _ => True

instance (S : ServerNetwork) : DecidablePred S.KeepsAddresses
  | .addPeerInfo peerId addr rtt =>
    inferInstanceAs (Decidable (S.AddsKeep (fun _ => rtt) [⟨peerId, addr, rtt⟩]))
  | .handlePingMessage m _ rtt =>
    inferInstanceAs (Decidable (S.AddsKeep rtt (m.myInfo :: m.peers.entries)))
  | .init .. | .updatePeerInfo .. | .removePeerInfo _ | .handlePongMessage ..
  | .sendMessageToPeer .. | .sendMessageToAllPeer .. | .sendPingMessage .. | .handleClose _
  | .sendPrepare .. | .sendPromise .. | .sendAccept .. | .sendPermit .. | .sendPrepareNACK ..
  | .sendAcceptNACK .. | .sendHeartbeat .. => isTrue trivial

/-- The entry for the UID of a configured peer has its address. -/
structure Linked (S : ServerNetwork) : Prop where
  not_empty : Map.get? S.peers [] = none
  addr_eq : ∀ peer ∈ S.stablePeers, ∀ entry, Map.get? S.peers peer.id = some entry →
    entry.addr = peer.addr

/-- A configured peer that is skipped is reached by its entry. -/
theorem Linked.reachesAll {S : ServerNetwork} (h : S.Linked) {configured : List PeerAddr}
    (hconfigured : ∀ addr ∈ configured, ∃ peer ∈ S.stablePeers, peer.addr = addr) :
    S.ReachesAll configured := by
  have hpeers : ∀ uid peer, Map.get? S.peers uid = some peer →
      peer.addr ∈ S.broadcastTargets := by
    intro uid peer hpeer
    have hentry : (uid, peer) ∈ S.peers.entries := Map.get?_eq_some_iff.mp hpeer
    exact List.mem_append_left _ (List.mem_map.mpr ⟨_, hentry, rfl⟩)
  refine ⟨hpeers, fun addr haddr => ?_⟩
  obtain ⟨peer, hpeer, rfl⟩ := hconfigured addr haddr
  cases hfound : Map.get? S.peers peer.id with
  | some entry =>
    rw [← h.addr_eq peer hpeer entry hfound]
    exact hpeers peer.id entry hfound
  | none =>
    have hkept : peer ∈ S.stablePeers.filter fun peer => (Map.get? S.peers peer.id).isNone :=
      List.mem_filter.mpr ⟨hpeer, by rw [hfound]; rfl⟩
    exact List.mem_append_right _ (List.mem_map_of_mem hkept)

/-- A new peer keeps the link, unless its UID is that of a configured peer elsewhere. -/
theorem Linked.addPeerInfo {S : ServerNetwork} (h : S.Linked) {peerId : Str} {addr : PeerAddr}
    (rtt : UInt64) (hkeeps : peerId = [] ∨ peerId = S.myUID ∨ ¬S.Reassigns peerId addr) :
    (S.addPeerInfo peerId addr rtt).1.Linked := by
  rcases S.addPeerInfo_cases peerId addr rtt with ⟨-, hsame⟩ | ⟨hne, hmine, hnew, heq⟩
  · rwa [hsame]
  · have hreassigns : ¬S.Reassigns peerId addr := (hkeeps.resolve_left hne).resolve_left hmine
    rw [heq]
    constructor
    · change Map.get? (S.peers.assign _) [] = none
      rw [Map.get?_assign, if_neg hne]
      exact h.not_empty
    · intro peer hpeer entry hentry
      change Map.get? (S.peers.assign _) peer.id = some entry at hentry
      obtain ⟨old, hold, rfl⟩ := List.mem_map.mp hpeer
      rw [Map.get?_assign] at hentry
      by_cases hnamed : old.noPeerId ∧ old.addr = addr
      · rw [if_pos hnamed] at hentry ⊢
        rw [if_pos rfl, Option.some_inj] at hentry
        rw [← hentry]
        exact hnamed.2.symm
      · rw [if_neg hnamed] at hentry ⊢
        by_cases hid : peerId = old.id
        · rw [if_pos hid, Option.some_inj] at hentry
          rw [← hentry]
          by_contra haddr
          exact hreassigns ⟨hnew, old, hold, hid.symm, Ne.symm haddr⟩
        · rw [if_neg hid] at hentry
          exact h.addr_eq old hold entry hentry

/-- So do the peers of a ping, each in its turn. -/
theorem Linked.addPeers {peers : List PeerInfo} : ∀ {S : ServerNetwork} {rtt : ℕ → UInt64},
    S.Linked → S.AddsKeep rtt peers → (S.addPeers rtt peers).Linked := by
  induction peers with
  | nil => exact fun h _ => h
  | cons peer rest ih =>
    intro S rtt h hkeeps
    exact ih (h.addPeerInfo (rtt 0) hkeeps.1) hkeeps.2

/-- The round trip time is no part of the link. -/
theorem Linked.updatePeerInfo {S : ServerNetwork} (h : S.Linked) (peerId : Str) (rtt : UInt64) :
    (S.updatePeerInfo peerId rtt).Linked := by
  unfold ServerNetwork.updatePeerInfo
  split
  · rename_i known hfound
    constructor
    · change Map.get? (S.peers.assign _) [] = none
      rw [Map.get?_assign, if_neg]
      · exact h.not_empty
      · rintro rfl
        rw [h.not_empty] at hfound
        cases hfound
    · intro peer hpeer entry hentry
      change Map.get? (S.peers.assign _) peer.id = some entry at hentry
      rw [Map.get?_assign] at hentry
      split at hentry
      · rename_i hid
        cases hentry
        exact h.addr_eq peer hpeer known (by rw [← hid, hfound])
      · exact h.addr_eq peer hpeer entry hentry
  · exact h

/-- Removing an entry leaves no more than there was. -/
theorem Linked.removePeerInfo {S : ServerNetwork} (h : S.Linked) (peerId : Str) :
    (S.removePeerInfo peerId).Linked := by
  constructor
  · change Map.get? (S.peers.erase peerId) [] = none
    rw [Map.get?_erase, h.not_empty, ite_self]
  · intro peer hpeer entry hentry
    change Map.get? (S.peers.erase peerId) peer.id = some entry at hentry
    rw [Map.get?_erase] at hentry
    split at hentry
    · cases hentry
    · exact h.addr_eq peer hpeer entry hentry

/-- A configured peer has no UID yet. -/
theorem Linked.init {S : ServerNetwork} (h : S.Linked) (type : SocketType) (localIP : UInt32)
    (localPort : UInt16) (dstIP : UInt32) (dstPort : UInt16) :
    (S.init type localIP localPort dstIP dstPort).Linked := by
  refine ⟨h.not_empty, fun peer hpeer entry hentry => ?_⟩
  rcases List.mem_append.mp hpeer with hold | hnew
  · exact h.addr_eq peer hold entry hentry
  · rw [List.mem_singleton.mp hnew] at hentry
    cases h.not_empty.symm.trans hentry

/-- Every call that keeps the addresses keeps the link. -/
theorem Linked.next {S : ServerNetwork} (h : S.Linked) {call : NetworkCall}
    (hkeeps : S.KeepsAddresses call) : (machine.next S call).Linked := by
  have hframe : ∀ {T : ServerNetwork}, S.SamePeers T → T.Linked := fun hsame =>
    ⟨by rw [hsame.peers]; exact h.not_empty,
      by rw [hsame.stablePeers, hsame.peers]; exact h.addr_eq⟩
  cases hsending : S.sending call with
  | some d => exact hframe (samePeers_of_sending hsending)
  | none =>
    cases call with
    | init type localIP localPort dstIP dstPort =>
      exact h.init type localIP localPort dstIP dstPort
    | addPeerInfo peerId addr rtt => exact h.addPeerInfo rtt hkeeps.1
    | updatePeerInfo peerId rtt => exact h.updatePeerInfo peerId rtt
    | removePeerInfo peerId => exact h.removePeerInfo peerId
    | handlePingMessage m s rtt => exact h.addPeers hkeeps
    | handlePongMessage m now => exact h.updatePeerInfo _ _
    | handleClose s => exact hframe (S.samePeers_handleClose s)
    | _ => cases hsending

/-- A new peer may give a configured one its UID, and leaves its address as it is. -/
theorem stablePeers_addPeerInfo (S : ServerNetwork) (peerId : Str) (addr : PeerAddr)
    (rtt : UInt64) :
    (S.addPeerInfo peerId addr rtt).1.stablePeers.map PeerInfo.addr =
      S.stablePeers.map PeerInfo.addr := by
  rcases S.addPeerInfo_cases peerId addr rtt with ⟨-, hsame⟩ | ⟨-, -, -, heq⟩
  · rw [hsame]
  · rw [heq]
    change (S.stablePeers.map _).map _ = _
    rw [List.map_map]
    refine List.map_congr_left fun peer _ => ?_
    rw [Function.comp_apply]
    split <;> rfl

/-- The addresses of the configured peers stay, whatever peers a ping names. -/
theorem stablePeers_addPeers (peers : List PeerInfo) : ∀ (S : ServerNetwork) (rtt : ℕ → UInt64),
    (S.addPeers rtt peers).stablePeers.map PeerInfo.addr = S.stablePeers.map PeerInfo.addr := by
  induction peers with
  | nil => exact fun _ _ => rfl
  | cons peer rest ih =>
    intro S rtt
    rw [addPeers, ih, stablePeers_addPeerInfo]

/-- The addresses of the configured peers do not change, and `Init` adds one. -/
theorem stablePeers_next (S : ServerNetwork) (call : NetworkCall) :
    (machine.next S call).stablePeers.map PeerInfo.addr =
      S.stablePeers.map PeerInfo.addr ++ call.configured.toList := by
  cases hsending : S.sending call with
  | some d =>
    have hconfigured : call.configured = none := by
      cases call with
      | init => cases hsending
      | _ => rfl
    rw [(samePeers_of_sending hsending).stablePeers, hconfigured, Option.toList_none,
      List.append_nil]
  | none =>
    cases call with
    | init type localIP localPort dstIP dstPort => exact List.map_append
    | addPeerInfo peerId addr rtt =>
      exact (S.stablePeers_addPeerInfo peerId addr rtt).trans (List.append_nil _).symm
    | updatePeerInfo peerId rtt =>
      change (S.updatePeerInfo peerId rtt).stablePeers.map _ = _
      rw [updatePeerInfo_eq]
      exact (List.append_nil _).symm
    | removePeerInfo peerId => exact (List.append_nil _).symm
    | handlePingMessage m s rtt =>
      exact (stablePeers_addPeers (m.myInfo :: m.peers.entries) S rtt).trans
        (List.append_nil _).symm
    | handlePongMessage m now =>
      change (S.updatePeerInfo _ _).stablePeers.map _ = _
      rw [updatePeerInfo_eq]
      exact (List.append_nil _).symm
    | handleClose s =>
      change (S.handleClose s).stablePeers.map _ = _
      rw [(S.samePeers_handleClose s).stablePeers]
      exact (List.append_nil _).symm
    | _ => cases hsending

/-- **Broadcasts miss no known address** in any run of the server in which no peer is learnt under
the UID of a configured peer with another address. -/
theorem broadcast_reachesAll {myid : Str} {quorumSize : ℕ} {localIP : UInt32}
    {localPort : UInt16} {socketType : SocketType} {calls : List NetworkCall}
    (hkeeps :
      machine.Admits KeepsAddresses (new myid quorumSize localIP localPort socketType) calls) :
    (machine.run (new myid quorumSize localIP localPort socketType) calls).ReachesAll
      (calls.filterMap NetworkCall.configured) := by
  generalize hnew : new myid quorumSize localIP localPort socketType = S at hkeeps ⊢
  have hlinked : S.Linked := by
    rw [← hnew]
    exact ⟨rfl, by simp [new]⟩
  have hstart : S.stablePeers.map PeerInfo.addr = [] := by rw [← hnew]; rfl
  have haddrs : (machine.run S calls).stablePeers.map PeerInfo.addr =
      calls.filterMap NetworkCall.configured :=
    hkeeps.induction
      (I := fun calls T => T.stablePeers.map PeerInfo.addr = calls.filterMap NetworkCall.configured)
      hstart fun pre call hpre _ => by
        rw [stablePeers_next, hpre, List.filterMap_append]
        cases hconfigured : call.configured <;> simp [hconfigured]
  refine (hkeeps.invariant hlinked fun _ _ hI hcall => hI.next hcall).reachesAll ?_
  intro addr haddr
  rw [← haddrs] at haddr
  exact List.mem_map.mp haddr

/-- The peer X is learnt at a configured address, removed, and learnt again at that address from
the gossip of another peer. -/
theorem broadcast_reachesAll_learnt_again :
    let S := machine.run (new [65] 2 1 1 .tcp)
      [.init .tcp 1 1 2 80, .addPeerInfo [88] ⟨2, 80, .tcp⟩ 0, .removePeerInfo [88],
        .handlePingMessage ⟨0, ⟨[89], ⟨3, 80, .tcp⟩, 0⟩, .ofList [⟨[88], ⟨2, 80, .tcp⟩, 0⟩]⟩ 5
          (fun _ => 0)]
    S.ReachesAll [⟨2, 80, .tcp⟩] :=
  broadcast_reachesAll (by decide)

/-- The peer X is learnt at a configured address, removed, and learnt again at another address: the
configured address is not reached any more. -/
theorem broadcast_misses_configured_address :
    ¬(machine.run (new [65] 2 1 1 .tcp)
      [.init .tcp 1 1 2 80, .addPeerInfo [88] ⟨2, 80, .tcp⟩ 0, .removePeerInfo [88],
        .addPeerInfo [88] ⟨3, 80, .tcp⟩ 0]).ReachesAll [⟨2, 80, .tcp⟩] := by
  intro h
  exact absurd (h.configured ⟨2, 80, .tcp⟩ (List.mem_singleton_self _)) (by decide)

end ServerNetwork

end CppPaxos
