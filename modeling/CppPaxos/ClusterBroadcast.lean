import CppPaxos.Discovery

/-!
# Broadcasts in a cluster

`SendMessageToAllPeer` skips a configured peer whose UID is among the peers. The UID is learnt
together with the entry, so in a cluster of servers with different addresses the message goes
to every known server and to the configured address, and to none of them twice.
-/

namespace CppPaxos

open Machines Tables

namespace ServerNetwork

variable {S : ServerNetwork} {P : Str → PeerAddr → Prop}

/-- A configured peer whose address is known has its UID. -/
def Resolved (S : ServerNetwork) : Prop :=
  ∀ peer ∈ S.stablePeers, ∀ uid entry, Map.get? S.peers uid = some entry →
    entry.addr = peer.addr → peer.id = uid

/-- It is a matter of the peers only. -/
theorem Resolved.of_samePeers {T : ServerNetwork} (h : S.Resolved) (hsame : S.SamePeers T) :
    T.Resolved := by
  rwa [Resolved, hsame.stablePeers, hsame.peers]

/-- A new entry gives its UID to the configured peer with its address, unless that one has it. -/
theorem Resolved.addPeerInfo (h : S.Resolved) (hP : S.Vouched P)
    (hunique : ∀ uid uid' addr, P uid addr → P uid' addr → uid = uid') {peerId : Str}
    {addr : PeerAddr} (rtt : UInt64) (hnew : peerId ≠ [] → P peerId addr) :
    (S.addPeerInfo peerId addr rtt).1.Resolved := by
  rcases S.addPeerInfo_cases peerId addr rtt with ⟨-, hsame⟩ | ⟨hne, -, -, heq⟩
  · rwa [hsame]
  intro peer hpeer uid entry hentry haddr
  rw [heq] at hpeer
  obtain ⟨old, hold, rfl⟩ := List.mem_map.mp hpeer
  have hkept : (if old.noPeerId ∧ old.addr = addr then { old with id := peerId } else old).addr =
      old.addr := by
    split <;> rfl
  rw [hkept] at haddr
  rcases get?_or_of_get?_addPeerInfo hentry with hentry | ⟨rfl, -, hentry⟩
  · have hid : old.id = uid := h old hold uid entry hentry haddr
    have hne' := (hP.not_mine uid entry hentry).1
    rw [if_neg fun hboth => hne' (by rw [← hid]; simpa [PeerInfo.noPeerId] using hboth.1)]
    exact hid
  · have hsame : old.addr = addr := haddr.symm.trans hentry
    by_cases hid : old.noPeerId
    · rw [if_pos ⟨hid, hsame⟩]
    · rw [if_neg fun hboth => hid hboth.1]
      have hold' := hP.stablePeers old hold (by simpa [PeerInfo.noPeerId] using hid)
      rw [hsame] at hold'
      exact hunique _ _ _ hold' (hnew hne)

/-- The peers of a ping keep it, each in its turn. -/
theorem Resolved.addPeers (hunique : ∀ uid uid' addr, P uid addr → P uid' addr → uid = uid')
    {peers : List PeerInfo} : ∀ {S : ServerNetwork} {rtt : ℕ → UInt64}, S.Resolved →
      S.Vouched P → (∀ peer ∈ peers, peer.id ≠ [] → P peer.id peer.addr) →
        (S.addPeers rtt peers).Resolved := by
  induction peers with
  | nil => exact fun h _ _ => h
  | cons peer rest ih =>
    intro S rtt h hP hnew
    obtain ⟨hpeer, hrest⟩ := List.forall_mem_cons.mp hnew
    exact ih (h.addPeerInfo hP hunique _ hpeer) (hP.addPeerInfo _ hpeer) hrest

/-- A round trip time does not matter. -/
theorem Resolved.updatePeerInfo (h : S.Resolved) (peerId : Str) (rtt : UInt64) :
    (S.updatePeerInfo peerId rtt).Resolved := by
  intro peer hpeer uid entry hentry haddr
  rw [updatePeerInfo_eq] at hpeer
  obtain ⟨old, hold, hsame⟩ := exists_of_get?_updatePeerInfo hentry
  exact h peer hpeer uid old hold (hsame.symm.trans haddr)

/-- A call of the event loop keeps it. -/
theorem Resolved.next (h : S.Resolved) (hP : S.Vouched P)
    (hunique : ∀ uid uid' addr, P uid addr → P uid' addr → uid = uid') {call : NetworkCall}
    (hloop : call.InLoop) (hnew : ∀ peer ∈ call.carried, peer.id ≠ [] → P peer.id peer.addr) :
    (machine.next S call).Resolved := by
  cases hloop with
  | handlePingMessage m s rtt => exact Resolved.addPeers hunique h hP hnew
  | handlePongMessage m now => exact h.updatePeerInfo _ _
  | sendPingMessage now connect => exact h.of_samePeers (samePeers_of_sending rfl)
  | sendHeartbeat uid id connect => exact h.of_samePeers (samePeers_of_sending rfl)
  | handleClose s => exact h.of_samePeers (S.samePeers_handleClose s)

end ServerNetwork

namespace ServerSetup

variable {ι : Type*} {S : ServerSetup ι} {i : ι} {T : RunningServer} {sent : List Packet}

/-- An event with a true message keeps it. -/
theorem Truthful.resolved_next (h : S.Truthful i T sent) (hresolved : T.network.Resolved)
    (haddr : Function.Injective S.addr) {event : LoopEvent}
    (hmsg : ∀ msg ∈ event.message, ∀ pair ∈ msg.addresses, S.Belongs pair.1 pair.2) :
    (RunningServer.machine.next T event).network.Resolved := by
  have hunique : ∀ uid uid' addr, S.Belongs uid addr → S.Belongs uid' addr → uid = uid' := by
    rintro _ _ _ ⟨k, rfl, rfl⟩ ⟨l, rfl, hl⟩
    rw [haddr hl]
  have hcalls := T.calls_vouched hmsg
  rw [T.next_network]
  exact ((Machine.admits_const_iff.mpr hcalls).invariant
    (I := fun N : ServerNetwork => N.Vouched S.Belongs ∧ N.Resolved) ⟨h.vouched, hresolved⟩
    fun _ _ hI hcall => ⟨hI.1.next hcall.1 hcall.2, hI.2.next hI.1 hunique hcall.1 hcall.2⟩).2

/-- A broadcast addresses nobody twice. -/
theorem Truthful.broadcastTargets_nodup (h : S.Truthful i T sent)
    (hresolved : T.network.Resolved) (haddr : Function.Injective S.addr) :
    T.network.broadcastTargets.Nodup := by
  have hentry : ∀ entry ∈ T.network.peers.entries,
      Map.get? T.network.peers entry.1 = some entry.2 := fun _ h => Map.get?_eq_some_iff.mpr h
  refine List.nodup_append'.mpr ⟨?_, ?_, ?_⟩
  · refine T.network.peers.nodup.map_on fun e he e' he' hsame => ?_
    obtain ⟨k, hk, hek⟩ := h.vouched.peers _ _ (hentry e he)
    obtain ⟨l, hl, hel⟩ := h.vouched.peers _ _ (hentry e' he')
    refine T.network.peers.eq_of_key_eq he he' ?_
    rw [hk, hl, haddr (hek.symm.trans (hsame.trans hel))]
  · have hall : (T.network.stablePeers.map PeerInfo.addr).Nodup := by
      rw [h.dst]
      exact List.nodup_singleton _
    exact hall.sublist (List.filter_sublist.map _)
  · intro addr hpeers hstable
    obtain ⟨e, he, rfl⟩ := List.mem_map.mp hpeers
    obtain ⟨peer, hpeer, hsame⟩ := List.mem_map.mp hstable
    obtain ⟨hpeer, hnone⟩ := List.mem_filter.mp hpeer
    rw [hresolved peer hpeer e.1 e.2 (hentry e he) hsame.symm, hentry e he] at hnone
    cases hnone

/-- It addresses the configured peer and all entries. -/
theorem Truthful.mem_broadcastTargets_iff (h : S.Truthful i T sent) {addr : PeerAddr} :
    addr ∈ T.network.broadcastTargets ↔ addr = S.dst i ∨
      ∃ uid entry, Map.get? T.network.peers uid = some entry ∧ entry.addr = addr := by
  constructor
  · intro hmem
    rcases List.mem_append.mp hmem with hpeers | hstable
    · obtain ⟨e, he, rfl⟩ := List.mem_map.mp hpeers
      exact Or.inr ⟨e.1, e.2, Map.get?_eq_some_iff.mpr he, rfl⟩
    · have hall := (List.filter_sublist.map PeerInfo.addr).subset hstable
      rw [h.dst] at hall
      exact Or.inl (List.mem_singleton.mp hall)
  · rintro (rfl | ⟨uid, entry, hentry, rfl⟩)
    · exact h.dst_mem_broadcastTargets
    · exact addr_mem_broadcastTargets hentry

variable [DecidableEq ι]

/-- At every server the configured peers stay resolved, since whatever is handed on is true. -/
theorem resolved_run {acts : List (ι × LoopEvent)}
    (hrun : (RunningServer.machine.network ι).Admits ServerCluster.Enabled S.start acts)
    (haddr : Function.Injective S.addr) (i : ι) :
    (((RunningServer.machine.network ι).run S.start acts).parties i).network.Resolved := by
  refine (hrun.network_invariant
    (I := fun sent i T => S.Truthful i T (sent i) ∧ T.network.Resolved) ?_ ?_ ?_ i).2
  · refine fun i => ⟨truthful_start S i, fun peer hpeer uid entry hentry => ?_⟩
    cases hentry
  · intro sent sent' i T hT hsent _
    rwa [hsent]
  · intro C i event hC henabled
    have hmsg := belongs_of_enabled (fun j => (hC j).1) henabled
    rw [Machine.network_next_sent_self]
    exact ⟨(hC i).1.next hmsg, (hC i).1.resolved_next (hC i).2 haddr hmsg⟩

/-- **A broadcast reaches whom it should, once.** In every run of servers with different addresses,
the addresses to which a server's broadcast goes are all different, and they are the configured
one and those of the servers from which a chain of handled pings has led to it. -/
theorem broadcast_exact {acts : List (ι × LoopEvent)}
    (hrun : (RunningServer.machine.network ι).Admits ServerCluster.Enabled S.start acts)
    (haddr : Function.Injective S.addr) (i : ι) :
    (((RunningServer.machine.network ι).run S.start acts).parties
        i).network.broadcastTargets.Nodup ∧
      ∀ addr, addr ∈ (((RunningServer.machine.network ι).run S.start acts).parties
          i).network.broadcastTargets ↔
        addr = S.dst i ∨
          ∃ k, k ≠ i ∧ addr = S.addr k ∧ RunningServer.pings.Flows S.start k acts i := by
  have hI := truthful_run hrun i
  refine ⟨hI.broadcastTargets_nodup (resolved_run hrun haddr i) haddr, fun addr => ?_⟩
  rw [hI.mem_broadcastTargets_iff]
  refine or_congr Iff.rfl ?_
  constructor
  · rintro ⟨uid, hentry⟩
    obtain ⟨k, hki, -, hk, hknown⟩ := hI.entry_iff.mp hentry
    exact ⟨k, hki, hk, (myid_mem_known_iff hrun).mp hknown⟩
  · rintro ⟨k, hki, hk, hflows⟩
    exact ⟨S.myid k, hI.entry_iff.mpr ⟨k, hki, rfl, hk, (myid_mem_known_iff hrun).mpr hflows⟩⟩

/-- The first round of A and B. -/
theorem broadcast_exact_twoServers :
    (((RunningServer.machine.network Bool).run twoServers.start firstRound).parties
        true).network.broadcastTargets.Nodup ∧
      ∀ addr, addr ∈ (((RunningServer.machine.network Bool).run twoServers.start
          firstRound).parties true).network.broadcastTargets ↔
        addr = twoServers.dst true ∨ ∃ k, k ≠ true ∧ addr = twoServers.addr k ∧
          RunningServer.pings.Flows twoServers.start k firstRound true :=
  broadcast_exact (by decide) (by decide) true

end ServerSetup

end CppPaxos
