import CppPaxos.AcceptorSelection
import CppPaxos.SocketMaps

/-!
# Requests to a quorum

`sendPrepare` chooses a quorum of peers, and `sendPrepare` and `sendAccept` hand their
messages to `SendMessageToPeer` once for each of them. A message for an address that has no
socket opens one and is dropped, so a quorum gets the request only if every chosen peer has
a socket before.
-/

namespace CppPaxos

open Machines Tables

namespace ServerNetwork

/-- No two peers have the same address. -/
def DistinctAddrs (S : ServerNetwork) : Prop :=
  (S.peers.entries.map fun entry => entry.2.addr).Nodup

instance (S : ServerNetwork) : Decidable S.DistinctAddrs :=
  inferInstanceAs (Decidable (List.Nodup _))

/-- No two peers have the same address. -/
theorem DistinctAddrs.uid_eq {S : ServerNetwork} (h : S.DistinctAddrs) {uid uid' : Str}
    {peer peer' : PeerInfo} (hpeer : Map.get? S.peers uid = some peer)
    (hpeer' : Map.get? S.peers uid' = some peer') (haddr : peer.addr = peer'.addr) : uid = uid' :=
  congrArg Prod.fst (List.inj_on_of_nodup_map h (Map.get?_eq_some_iff.mp hpeer)
    (Map.get?_eq_some_iff.mp hpeer') haddr)

/-- The socket to a peer. -/
def socketOf (S : ServerNetwork) (uid : Str) : Option SocketPtr :=
  (Map.get? S.peers uid).bind fun peer => Map.get? S.addr2socket peer.addr

/-- The message is handed to the socket of each of these peers once, and to no other socket. -/
structure HandsTo (S : ServerNetwork) (uids : List Str) (msg : Message) (sent : List Packet) :
    Prop where
  one_each : List.Forall₂ (fun packet uid => packet.2 = msg ∧ S.socketOf uid = some packet.1)
    sent uids
  sockets_nodup : (sent.map Prod.fst).Nodup

/-- A prepare request, and the accept request that follows it in the state `T`, reach the same
quorum of different peers. -/
def ReachesQuorum (S T : ServerNetwork) (proposalID : ProposalID) (proposalValue : Str)
    (connect connect' : ℕ → SocketPtr) : Prop :=
  ∃ uids : List Str, uids.Nodup ∧ uids.length = S.quorumSize ∧
    (∀ uid ∈ uids, ∃ peer, Map.get? S.peers uid = some peer) ∧
    HandsTo (S.sendPrepare proposalID connect).1 uids (.prepare ⟨S.getMyNodeInfo, proposalID⟩)
      (S.sendPrepare proposalID connect).2 ∧
    HandsTo (T.sendAccept proposalID proposalValue connect').1 uids
      (.accept ⟨T.getMyNodeInfo, proposalID, proposalValue⟩)
      (T.sendAccept proposalID proposalValue connect').2

/-- Each of these entries has an address with a socket. -/
def Connected (S : ServerNetwork) (entries : List (Str × PeerInfo)) : Prop :=
  ∀ entry ∈ entries, (Map.get? S.addr2socket entry.2.addr).isSome

instance (S : ServerNetwork) (entries : List (Str × PeerInfo)) : Decidable (S.Connected entries) :=
  inferInstanceAs (Decidable (∀ entry ∈ entries, (Map.get? S.addr2socket entry.2.addr).isSome))

/-! ### Sending to different addresses -/

section Send

variable {S : ServerNetwork} (msg : Message)

/-- A stored socket stays stored. -/
theorem get?_sendMessageToPeer_of_isSome {addr addr' : PeerAddr} (connect : SocketPtr)
    (h : (Map.get? S.addr2socket addr).isSome) :
    Map.get? (S.sendMessageToPeer msg addr' connect).1.addr2socket addr =
      Map.get? S.addr2socket addr := by
  unfold sendMessageToPeer
  split
  · rename_i hnone
    split
    · rfl
    · have hne : addr' ≠ addr := by
        rintro rfl
        rw [hnone] at h
        cases h
      exact (Map.get?_assign _ _ _ _).trans (if_neg hne)
  · rfl

/-- Sending to an address does not open sockets to others. -/
theorem get?_sendMessageToPeer_of_ne {addr addr' : PeerAddr} (connect : SocketPtr)
    (h : addr' ≠ addr) :
    Map.get? (S.sendMessageToPeer msg addr' connect).1.addr2socket addr =
      Map.get? S.addr2socket addr := by
  unfold sendMessageToPeer
  split
  · split
    · rfl
    · exact (Map.get?_assign _ _ _ _).trans (if_neg h)
  · rfl

/-- Sending keeps the sockets that are stored. -/
theorem get?_sendMessageToEach_of_isSome {addr : PeerAddr} (addrs : List PeerAddr) :
    ∀ {S : ServerNetwork} (connect : ℕ → SocketPtr), (Map.get? S.addr2socket addr).isSome →
      Map.get? (S.sendMessageToEach msg connect addrs).1.addr2socket addr =
        Map.get? S.addr2socket addr := by
  induction addrs with
  | nil => exact fun _ _ => rfl
  | cons addr' rest ih =>
    intro S connect h
    have hpeer : Map.get? (S.sendMessageToPeer msg addr' (connect 0)).1.addr2socket addr =
        Map.get? S.addr2socket addr := get?_sendMessageToPeer_of_isSome msg (connect 0) h
    rw [sendMessageToEach_cons_fst, ih _ (by rwa [hpeer]), hpeer]

/-- One address gets the message if it has a socket. -/
theorem sendMessageToPeer_snd (hnull : ∀ addr s, Map.get? S.addr2socket addr = some s → s ≠ .null)
    (addr : PeerAddr) (connect : SocketPtr) :
    (S.sendMessageToPeer msg addr connect).2 =
      ((Map.get? S.addr2socket addr).map fun s => (s, msg)).toList := by
  unfold sendMessageToPeer
  split
  · rename_i hnone
    rw [hnone]
    split <;> rfl
  · rename_i s hs
    rw [hs, if_neg (hnull addr s hs)]
    rfl

/-- Of different addresses exactly those with a socket get the message. -/
theorem sendMessageToEach_snd {addrs : List PeerAddr} (hnodup : addrs.Nodup) :
    ∀ {S : ServerNetwork} {connect : ℕ → SocketPtr}, S.SocketsInverse →
      S.ConnectsFresh msg connect addrs →
      (S.sendMessageToEach msg connect addrs).2 =
        addrs.filterMap fun addr => (Map.get? S.addr2socket addr).map fun s => (s, msg) := by
  induction addrs with
  | nil => exact fun _ _ => rfl
  | cons addr rest ih =>
    intro S connect hinverse hfresh
    obtain ⟨hnotin, hrest⟩ := List.nodup_cons.mp hnodup
    have hlater := ih hrest (hinverse.sendMessageToPeer msg hfresh.1) hfresh.2
    have hsame : (rest.filterMap fun addr' =>
          (Map.get? (S.sendMessageToPeer msg addr (connect 0)).1.addr2socket addr').map
            fun s => (s, msg)) =
        rest.filterMap fun addr' => (Map.get? S.addr2socket addr').map fun s => (s, msg) := by
      refine List.filterMap_congr fun addr' haddr' => ?_
      rw [get?_sendMessageToPeer_of_ne]
      rintro rfl
      exact hnotin haddr'
    rw [sendMessageToEach_cons_snd, sendMessageToPeer_snd msg hinverse.ne_null, hlater, hsame,
      List.filterMap_cons]
    cases Map.get? S.addr2socket addr <;> rfl

end Send

/-! ### Sending to the chosen acceptors -/

/-- Different peers have different sockets. -/
theorem SocketsInverse.uid_unique {S : ServerNetwork} (hinverse : S.SocketsInverse)
    (haddrs : S.DistinctAddrs) {uid uid' : Str} {s : SocketPtr} (h : S.socketOf uid = some s)
    (h' : S.socketOf uid' = some s) : uid = uid' := by
  obtain ⟨peer, hpeer, hs⟩ := Option.bind_eq_some_iff.mp h
  obtain ⟨peer', hpeer', hs'⟩ := Option.bind_eq_some_iff.mp h'
  exact haddrs.uid_eq hpeer hpeer' (hinverse.addr_unique hs hs')

/-- The addresses of the chosen acceptors are different. -/
theorem DistinctAddrs.acceptorAddrs_nodup {S : ServerNetwork} (h : S.DistinctAddrs) :
    S.acceptorAddrs.Nodup := by
  refine S.majorityAcceptors.nodup.filterMap ?_
  intro uid uid' addr haddr haddr'
  obtain ⟨peer, hpeer, rfl⟩ := Option.map_eq_some_iff.mp haddr
  obtain ⟨peer', hpeer', hsame⟩ := Option.map_eq_some_iff.mp haddr'
  exact h.uid_eq hpeer hpeer' hsame.symm

/-- A socket that a peer has is not replaced while a message is sent. -/
theorem socketOf_sendMessageToEach {S : ServerNetwork} (msg : Message)
    (connect : ℕ → SocketPtr) (addrs : List PeerAddr) {uid : Str} {s : SocketPtr}
    (h : S.socketOf uid = some s) :
    (S.sendMessageToEach msg connect addrs).1.socketOf uid = some s := by
  obtain ⟨peer, hpeer, haddr⟩ := Option.bind_eq_some_iff.mp h
  rw [socketOf, sendMessageToEach_peers, hpeer, Option.bind_some,
    get?_sendMessageToEach_of_isSome msg _ _ (by rw [haddr]; rfl), haddr]

/-- Peers that all have sockets get one packet each, at the socket that they still have. -/
theorem sockets_of_isSome {S T : ServerNetwork}
    (hkept : ∀ uid s, S.socketOf uid = some s → T.socketOf uid = some s) (msg : Message)
    {uids : List Str} (h : ∀ uid ∈ uids, (S.socketOf uid).isSome) :
    List.Forall₂ (fun packet uid => packet.2 = msg ∧ T.socketOf uid = some packet.1)
      (uids.filterMap fun uid => (S.socketOf uid).map fun s => (s, msg)) uids := by
  induction uids with
  | nil => exact List.Forall₂.nil
  | cons uid rest ih =>
    obtain ⟨hfirst, hrest⟩ := List.forall_mem_cons.mp h
    obtain ⟨s, hs⟩ := Option.isSome_iff_exists.mp hfirst
    rw [List.filterMap_cons_some (by rw [hs]; rfl)]
    exact List.Forall₂.cons ⟨rfl, hkept uid s hs⟩ (ih hrest)

/-- The state in which a request is sent to the chosen acceptors. -/
structure ReadyToSend (S : ServerNetwork) (msg : Message) (connect : ℕ → SocketPtr) : Prop where
  inverse : S.SocketsInverse
  addrs : S.DistinctAddrs
  fresh : S.ConnectsFresh msg connect S.acceptorAddrs

section Acceptors

variable {S : ServerNetwork} {msg : Message} {connect : ℕ → SocketPtr}
  (h : S.ReadyToSend msg connect)

include h

/-- Exactly the chosen acceptors with a socket get the message. -/
theorem ReadyToSend.sent_eq :
    (S.sendMessageToEach msg connect S.acceptorAddrs).2 =
      S.majorityAcceptors.entries.filterMap fun uid =>
        (S.socketOf uid).map fun s => (s, msg) := by
  rw [sendMessageToEach_snd msg h.addrs.acceptorAddrs_nodup h.inverse h.fresh, acceptorAddrs,
    List.filterMap_filterMap]
  refine List.filterMap_congr fun uid _ => ?_
  rw [socketOf]
  cases Map.get? S.peers uid <;> rfl

/-- If all of them have sockets, each of them gets it once. -/
theorem ReadyToSend.handsTo (hconnected : ∀ uid ∈ S.majorityAcceptors.entries,
      (S.socketOf uid).isSome) :
    HandsTo (S.sendMessageToEach msg connect S.acceptorAddrs).1 S.majorityAcceptors.entries msg
      (S.sendMessageToEach msg connect S.acceptorAddrs).2 := by
  constructor
  · rw [h.sent_eq]
    exact sockets_of_isSome (fun uid s hs => socketOf_sendMessageToEach msg connect _ hs) msg
      hconnected
  · rw [h.sent_eq, List.map_filterMap]
    refine S.majorityAcceptors.nodup.filterMap fun uid uid' s hs hs' => ?_
    simp only [Option.map_map, Option.mem_def, Option.map_eq_some_iff] at hs hs'
    obtain ⟨_, hs, rfl⟩ := hs
    obtain ⟨_, hs', rfl⟩ := hs'
    exact h.inverse.uid_unique h.addrs hs hs'

/-- If as many peers as were chosen get it, all of them had sockets. -/
theorem ReadyToSend.connected_of_handsTo {T : ServerNetwork} {uids : List Str}
    (hsent : HandsTo T uids msg (S.sendMessageToEach msg connect S.acceptorAddrs).2)
    (hlength : uids.length = S.majorityAcceptors.size) :
    ∀ uid ∈ S.majorityAcceptors.entries, (S.socketOf uid).isSome := by
  have hcount := hsent.one_each.length_eq
  rw [h.sent_eq, hlength, Table.size, List.filterMap_length_eq_length] at hcount
  intro uid huid
  simpa using hcount uid huid

end Acceptors

/-- The chosen acceptors have sockets exactly if the first entries of the walk do. -/
theorem connected_iff {S T : ServerNetwork} (hnamed : S.PeersNamed)
    (hsize : S.quorumSize ≤ S.peers.size) (hpeers : T.peers = S.peers)
    (hchosen : T.majorityAcceptors = S.chooseAcceptors.majorityAcceptors) :
    (∀ uid ∈ T.majorityAcceptors.entries, (T.socketOf uid).isSome) ↔
      T.Connected (S.walk.take S.quorumSize) := by
  have hperm : T.majorityAcceptors.entries.Perm ((S.walk.take S.quorumSize).map Prod.fst) := by
    rw [hchosen, chooseAcceptors, selectMajorityAcceptors_eq hsize]
    exact hnamed.chosen_perm S.quorumSize
  have hsocket : ∀ entry ∈ S.walk.take S.quorumSize,
      T.socketOf entry.1 = Map.get? T.addr2socket entry.2.addr := by
    intro entry hentry
    have hpeer : Map.get? S.peers entry.1 = some entry.2 :=
      Map.get?_eq_some_iff.mpr (mem_of_mem_walk_take entry hentry)
    rw [socketOf, hpeers, hpeer, Option.bind_some]
  simp only [hperm.mem_iff, List.forall_mem_map]
  refine forall₂_congr fun entry hentry => ?_
  rw [hsocket entry hentry]

/-- The number of acceptors chosen is the quorum size. -/
theorem PeersNamed.chosen_size {S : ServerNetwork} (hnamed : S.PeersNamed)
    (hsize : S.quorumSize ≤ S.peers.size) :
    S.chooseAcceptors.majorityAcceptors.size = S.quorumSize := by
  rw [chooseAcceptors, selectMajorityAcceptors_eq hsize, Table.size,
    (hnamed.chosen_perm S.quorumSize).length_eq, List.length_map, List.length_take, walk_length,
    min_eq_left hsize]

/-- The acceptors chosen for a prepare request stay chosen until the next one. -/
theorem majorityAcceptors_after_prepare (S : ServerNetwork) (proposalID : ProposalID)
    (connect : ℕ → SocketPtr) {between : List NetworkCall}
    (hbetween : ∀ call ∈ between, ∀ p c, call ≠ .sendPrepare p c) :
    (machine.run S (.sendPrepare proposalID connect :: between)).majorityAcceptors =
      S.chooseAcceptors.majorityAcceptors := by
  have hafter : (machine.next S (.sendPrepare proposalID connect)).majorityAcceptors =
      S.chooseAcceptors.majorityAcceptors := by
    change (S.sendPrepare proposalID connect).1.majorityAcceptors = _
    rw [sendPrepare_eq, sendMessageToEach_majorityAcceptors]
  have hadmits : machine.Admits (fun _ call => ∀ p c, call ≠ .sendPrepare p c)
      (machine.next S (.sendPrepare proposalID connect)) between :=
    Machine.admits_const_iff.mpr hbetween
  rw [Machine.run_cons]
  exact hadmits.invariant
    (I := fun U => U.majorityAcceptors = S.chooseAcceptors.majorityAcceptors) hafter
    fun U call hU hcall => (majorityAcceptors_next hcall).trans hU

/-- **A prepare and its accept reach a quorum**, from any reachable state with enough peers at
different addresses, exactly if each of the peers to be chosen has a socket before the prepare
request is sent, and has one before the accept request is sent. -/
theorem reachesQuorum_iff {myid : Str} {quorumSize : ℕ} {localIP : UInt32} {localPort : UInt16}
    {socketType : SocketType} {calls between : List NetworkCall} {proposalID : ProposalID}
    {proposalValue : Str} {connect connect' : ℕ → SocketPtr} {S T : ServerNetwork}
    (hS : machine.run (new myid quorumSize localIP localPort socketType) calls = S)
    (hT : machine.run S (.sendPrepare proposalID connect :: between) = T)
    (hfresh : machine.Admits FreshConnects (new myid quorumSize localIP localPort socketType)
      (calls ++ (.sendPrepare proposalID connect :: between ++
        [.sendAccept proposalID proposalValue connect'])))
    (hbetween : ∀ call ∈ between, ∀ p c, call ≠ .sendPrepare p c)
    (hpeers : T.peers = S.peers) (hsize : S.quorumSize ≤ S.peers.size)
    (haddrs : S.DistinctAddrs) :
    S.ReachesQuorum T proposalID proposalValue connect connect' ↔
      S.Connected (S.walk.take S.quorumSize) ∧ T.Connected (S.walk.take S.quorumSize) := by
  obtain ⟨hcalls, hlater⟩ := (machine.admits_append).mp hfresh
  rw [hS] at hlater
  obtain ⟨hprepare, haccept⟩ := machine.admits_concat.mp hlater
  rw [hT] at haccept
  have hinverse : S.SocketsInverse := by
    rw [← hS]
    exact socketsInverse_of_fresh hcalls
  have hnamed : S.PeersNamed := by
    rw [← hS]
    exact peersNamed_run _ _ _ _ _ _
  have hTinverse : T.SocketsInverse := by
    rw [← hT]
    exact hprepare.invariant hinverse fun _ _ hI hcall => hI.next hcall
  have hchosen : T.majorityAcceptors = S.chooseAcceptors.majorityAcceptors := by
    rw [← hT]
    exact S.majorityAcceptors_after_prepare proposalID connect hbetween
  have hsendPrepare : S.chooseAcceptors.ReadyToSend (.prepare ⟨S.getMyNodeInfo, proposalID⟩)
      connect :=
    ⟨hinverse.of_eq rfl rfl, haddrs, hprepare.1 _ rfl⟩
  have hsendAccept : T.ReadyToSend (.accept ⟨T.getMyNodeInfo, proposalID, proposalValue⟩)
      connect' := by
    refine ⟨hTinverse, ?_, haccept _ rfl⟩
    rw [DistinctAddrs, hpeers]
    exact haddrs
  have hprepareIff := connected_iff (T := S.chooseAcceptors) hnamed hsize rfl rfl
  have hacceptIff := connected_iff hnamed hsize hpeers hchosen
  have hchosenSize := hnamed.chosen_size hsize
  rw [ReachesQuorum, sendPrepare_eq]
  constructor
  · rintro ⟨uids, -, hlength, -, hprepares, haccepts⟩
    constructor
    · exact hprepareIff.mp
        (hsendPrepare.connected_of_handsTo hprepares (hlength.trans hchosenSize.symm))
    · refine hacceptIff.mp (hsendAccept.connected_of_handsTo haccepts ?_)
      rw [hlength, hchosen, hchosenSize]
  · rintro ⟨hconnected, hstill⟩
    have hknown : ∀ uid ∈ S.chooseAcceptors.majorityAcceptors.entries,
        ∃ peer, Map.get? S.peers uid = some peer := by
      intro uid huid
      have hsome : (S.socketOf uid).isSome := hprepareIff.mpr hconnected uid huid
      obtain ⟨s, hs⟩ := Option.isSome_iff_exists.mp hsome
      obtain ⟨peer, hpeer, -⟩ := Option.bind_eq_some_iff.mp hs
      exact ⟨peer, hpeer⟩
    refine ⟨S.chooseAcceptors.majorityAcceptors.entries, Table.nodup _, hchosenSize, hknown,
      hsendPrepare.handsTo (hprepareIff.mpr hconnected), ?_⟩
    have hhands := hsendAccept.handsTo (hacceptIff.mpr hstill)
    rwa [hchosen] at hhands

/-- The calls of a server with two peers that has sent two heartbeats: the first one opens the
sockets, the second one is sent. -/
def connectedCalls : List NetworkCall :=
  [.addPeerInfo [66] ⟨1, 1, .tcp⟩ 0, .addPeerInfo [67] ⟨2, 1, .tcp⟩ 0,
    .sendHeartbeat [65] ⟨1, [65]⟩ (fun i => 7 + i), .sendHeartbeat [65] ⟨1, [65]⟩ (fun i => 9 + i)]

/-- With sockets to both peers, a quorum of two gets the prepare request and the accept request,
also if an accepted connection is closed between them. -/
theorem reachesQuorum_connected :
    let S := machine.run (new [65] 2 1 1 .tcp) connectedCalls
    let T := machine.run S [.sendPrepare ⟨1, [65]⟩ (fun i => 11 + i), .handleClose 20]
    S.ReachesQuorum T ⟨1, [65]⟩ [118] (fun i => 11 + i) (fun i => 13 + i) :=
  (reachesQuorum_iff rfl rfl (by decide) (by simp) (by decide)
    (by decide) (by decide)).mpr (by decide)

/-- A server that has just learnt of its only peer opens a socket instead of sending the prepare
request. -/
theorem prepare_lost_on_first_connect :
    let S := machine.run (new [65] 1 1 1 .tcp) [.addPeerInfo [66] ⟨1, 1, .tcp⟩ 0]
    let T := machine.run S [.sendPrepare ⟨1, [65]⟩ (fun i => 7 + i)]
    ¬S.ReachesQuorum T ⟨1, [65]⟩ [118] (fun i => 7 + i) (fun i => 8 + i) := by
  intro S T h
  obtain ⟨uids, -, hlength, -, hprepares, -⟩ := h
  have hsent : (S.sendPrepare ⟨1, [65]⟩ (fun i => 7 + i)).2 = [] := by decide
  have hcount := hprepares.one_each.length_eq
  rw [hsent, hlength] at hcount
  exact absurd hcount (by decide)

end ServerNetwork

end CppPaxos
