import CppPaxos.ServerCluster

/-!
# How the servers find each other

The entries of a server are exactly for those servers from which a chain of handled pings has
led to it, with their addresses. As long as each server's pings keep reaching those that it
addresses, two servers know of each other after twice as many rounds as there are configured
links between them.
-/

namespace CppPaxos

open Machines Tables

namespace ServerSetup

variable {ι : Type*} {S : ServerSetup ι}

/-- Every entry is addressed by the broadcasts. -/
theorem addr_mem_broadcastTargets {N : ServerNetwork} {uid : Str} {entry : PeerInfo}
    (h : Map.get? N.peers uid = some entry) : entry.addr ∈ N.broadcastTargets :=
  List.mem_append_left _ (List.mem_map.mpr ⟨_, Map.get?_eq_some_iff.mp h, rfl⟩)

/-- The broadcasts of a server reach the address that it is configured with. -/
theorem Truthful.dst_mem_broadcastTargets {i : ι} {T : RunningServer} {sent : List Packet}
    (h : S.Truthful i T sent) : S.dst i ∈ T.network.broadcastTargets := by
  have hmem : S.dst i ∈ T.network.stablePeers.map PeerInfo.addr := by
    rw [h.dst]
    exact List.mem_cons_self
  obtain ⟨peer, hpeer, haddr⟩ := List.mem_map.mp hmem
  rw [← haddr]
  cases hfound : Map.get? T.network.peers peer.id with
  | none =>
    exact List.mem_append_right _ (List.mem_map_of_mem (List.mem_filter.mpr
      ⟨hpeer, by rw [hfound]; rfl⟩))
  | some entry =>
    have hid := (h.vouched.not_mine peer.id entry hfound).1
    obtain ⟨k, hk, hentry⟩ := h.vouched.peers peer.id entry hfound
    obtain ⟨l, hl, hpeerAddr⟩ := h.vouched.stablePeers peer hpeer hid
    rw [hpeerAddr, S.myid_injective (hl.symm.trans hk), ← hentry]
    exact addr_mem_broadcastTargets hfound

/-- A server that knows of another one has an entry for it. -/
theorem Truthful.entry_of_known {i k : ι} {T : RunningServer} {sent : List Packet}
    (h : S.Truthful i T sent) (hne : k ≠ i) (hknown : S.myid k ∈ T.known) :
    ∃ entry, Map.get? T.network.peers (S.myid k) = some entry ∧ entry.addr = S.addr k := by
  obtain ⟨-, hmine | hsome⟩ := hknown
  · rw [h.myUID_eq] at hmine
    exact absurd (S.myid_injective hmine) hne
  · obtain ⟨entry, hfound⟩ := Option.isSome_iff_exists.mp hsome
    obtain ⟨l, hl, haddr⟩ := h.vouched.peers _ entry hfound
    exact ⟨entry, hfound, by rw [haddr, S.myid_injective hl]⟩

/-- They reach all the servers that it knows of. -/
theorem Truthful.contacts {i t : ι} {T : RunningServer} {sent : List Packet}
    (h : S.Truthful i T sent) (hne : t ≠ i) (hknown : S.dst i = S.addr t ∨ S.myid t ∈ T.known) :
    S.addr t ∈ T.network.broadcastTargets := by
  rcases hknown with hdst | hknown
  · rw [← hdst]
    exact h.dst_mem_broadcastTargets
  · obtain ⟨entry, hfound, haddr⟩ := h.entry_of_known hne hknown
    rw [← haddr]
    exact addr_mem_broadcastTargets hfound

/-- Messages that were sent are taken. -/
theorem taken_of_enabled {C : ServerCluster ι} {act : ι × LoopEvent}
    (h : ServerCluster.Enabled C act) : RunningServer.pings.Taken C act := by
  intro m hm
  obtain ⟨msg, hmsg, rfl⟩ := Option.mem_map.mp hm
  exact h msg hmsg

/-- At the start a server knows of itself only. -/
theorem known_start (i : ι) : (S.start.parties i).known = {S.myid i} := by
  ext uid
  rw [RunningServer.mem_known, Set.mem_singleton_iff]
  constructor
  · rintro ⟨-, huid | hsome⟩
    · exact huid
    · cases hsome
  · rintro rfl
    exact ⟨S.myid_ne_nil i, Or.inl rfl⟩

/-- The entries of a server are for the others that it knows of. -/
theorem Truthful.entry_iff {i : ι} {T : RunningServer} {sent : List Packet}
    (h : S.Truthful i T sent) {uid : Str} {addr : PeerAddr} :
    (∃ entry, Map.get? T.network.peers uid = some entry ∧ entry.addr = addr) ↔
      ∃ k, k ≠ i ∧ uid = S.myid k ∧ addr = S.addr k ∧ S.myid k ∈ T.known := by
  constructor
  · rintro ⟨entry, hfound, rfl⟩
    obtain ⟨hne, hmine⟩ := h.vouched.not_mine uid entry hfound
    obtain ⟨k, rfl, haddr⟩ := h.vouched.peers uid entry hfound
    refine ⟨k, ?_, rfl, haddr, hne, Or.inr (by rw [hfound]; rfl)⟩
    rintro rfl
    exact hmine h.myUID_eq.symm
  · rintro ⟨k, hki, rfl, rfl, hknown⟩
    exact h.entry_of_known hki hknown

variable [DecidableEq ι]

/-- All servers are truthful after every run. -/
theorem truthful_run {acts : List (ι × LoopEvent)}
    (h : (RunningServer.machine.network ι).Admits ServerCluster.Enabled S.start acts) (i : ι) :
    S.Truthful i (((RunningServer.machine.network ι).run S.start acts).parties i)
      (((RunningServer.machine.network ι).run S.start acts).sent i) :=
  h.invariant (I := fun C => ∀ i, S.Truthful i (C.parties i) (C.sent i)) (truthful_start S)
    (fun _ _ hI henabled => truthful_next hI henabled) i

/-- A server knows of those from which a chain of handled pings has led to it. -/
theorem myid_mem_known_iff {acts : List (ι × LoopEvent)}
    (hrun : (RunningServer.machine.network ι).Admits ServerCluster.Enabled S.start acts) {i k : ι} :
    S.myid k ∈ (((RunningServer.machine.network ι).run S.start acts).parties i).known ↔
      RunningServer.pings.Flows S.start k acts i := by
  have hflows := Gossip.mem_known_run_iff (x := S.myid k) (i := i)
    (hrun.mono fun _ _ => taken_of_enabled) (fun _ => rfl)
    fun i => (truthful_start S i).vouched.named
  have hstart : ∀ l, S.myid k ∈ RunningServer.pings.known (S.start.parties l) ↔ k = l := by
    intro l
    change S.myid k ∈ (S.start.parties l).known ↔ _
    rw [known_start, Set.mem_singleton_iff, S.myid_injective.eq_iff]
  refine hflows.trans ⟨?_, fun h => ⟨k, (hstart k).mpr rfl, h⟩⟩
  rintro ⟨l, hl, h⟩
  rwa [(hstart l).mp hl]

/-- Servers A and B, both configured with the address of B. -/
def twoServers : ServerSetup Bool where
  myid b := if b then [66] else [65]
  quorumSize := 1
  addr b := ⟨1, if b then 81 else 80, .tcp⟩
  dstIP _ := 1
  dstPort _ := 81
  acceptorNow _ := 0
  now _ := 0
  unset _ := ⟨false, false, false, false⟩
  unsetAddr _ := ⟨0, 0, .tcp⟩
  myid_injective := by decide
  myid_ne_nil := by decide

/-- A check of the timers at one moment. -/
def checkAt (t : UInt64) : LoopEvent :=
  .checkTimer ⟨fun _ => ⟨t, t * 1000⟩, t, fun _ => 7, fun _ _ => 7⟩

/-- A message that is handed on at one moment. -/
def receivedAt (t : UInt64) (msg : Message) : LoopEvent :=
  .handleMessage msg ⟨8, ⟨t, t * 1000⟩, fun _ => 0⟩

/-- A ping of A that knows of nobody. -/
def pingA (t : UInt64) : Message := .ping ⟨t, ⟨[65], ⟨1, 80, .tcp⟩, 100⟩, .empty⟩

/-- A ping of B that knows of A. -/
def pingB (t : UInt64) : Message :=
  .ping ⟨t, ⟨[66], ⟨1, 81, .tcp⟩, 100⟩, .ofList [⟨[65], ⟨1, 80, .tcp⟩, 100⟩]⟩

/-- A connects and pings B. -/
def firstRound : List (Bool × LoopEvent) :=
  [(false, checkAt 1), (false, checkAt 6000), (true, receivedAt 6001 (pingA 6000))]

/-- A pings B once more. B, which has heard of A by now, connects and pings A. -/
def secondRound : List (Bool × LoopEvent) :=
  [(false, checkAt 12000), (true, receivedAt 12001 (pingA 12000)), (true, checkAt 12002),
    (true, checkAt 18000), (false, receivedAt 18001 (pingB 18000))]

/-- **Peers are found by chains of pings.** In every run, a server has an entry for a UID exactly if
it belongs to another server from which a chain of handled pings has led to this one, and the
entry has the address of that server. -/
theorem peers_exact {acts : List (ι × LoopEvent)}
    (hrun : (RunningServer.machine.network ι).Admits ServerCluster.Enabled S.start acts) (i : ι)
    (uid : Str) (addr : PeerAddr) :
    (∃ entry, Map.get? (((RunningServer.machine.network ι).run S.start acts).parties
        i).network.peers uid = some entry ∧ entry.addr = addr) ↔
      ∃ k, k ≠ i ∧ uid = S.myid k ∧ addr = S.addr k ∧
        RunningServer.pings.Flows S.start k acts i := by
  rw [(truthful_run hrun i).entry_iff]
  refine exists_congr fun k => and_congr Iff.rfl (and_congr Iff.rfl (and_congr Iff.rfl ?_))
  exact myid_mem_known_iff hrun

/-- After the first round, B has an entry for A, so a chain of pings has led to it. -/
theorem peers_exact_twoServers :
    (∃ entry, Map.get? (((RunningServer.machine.network Bool).run twoServers.start
        firstRound).parties true).network.peers [65] = some entry ∧ entry.addr = ⟨1, 80, .tcp⟩) ∧
      ∃ k, k ≠ true ∧ [65] = twoServers.myid k ∧ ⟨1, 80, .tcp⟩ = twoServers.addr k ∧
        RunningServer.pings.Flows twoServers.start k firstRound true := by
  have hentry : ∃ entry, Map.get? (((RunningServer.machine.network Bool).run twoServers.start
      firstRound).parties true).network.peers [65] = some entry ∧ entry.addr = ⟨1, 80, .tcp⟩ :=
    ⟨⟨[65], ⟨1, 80, .tcp⟩, 0⟩, by decide, rfl⟩
  exact ⟨hentry, (peers_exact (by decide) true [65] ⟨1, 80, .tcp⟩).mp hentry⟩

/-! ### Rounds of pings -/

/-- Two servers are linked if one of them is configured with the address of the other. -/
def links (S : ServerSetup ι) : SimpleGraph ι := SimpleGraph.fromRel fun i t => S.dst i = S.addr t

/-- The run contains `r` rounds, one after another: in each of them pings of every server are
handled by all the servers that its broadcasts address at the beginning of the round. -/
def Rounds (S : ServerSetup ι) (r : ℕ) (acts : List (ι × LoopEvent)) : Prop :=
  RunningServer.pings.Rounds (fun T t => S.addr t ∈ T.network.broadcastTargets) r S.start acts

/-- **The servers find each other.** In every run with twice as many rounds as a walk of links from
one server to another has links, the latter has an entry for the former, with its address. -/
theorem peers_complete {acts : List (ι × LoopEvent)}
    (hrun : (RunningServer.machine.network ι).Admits ServerCluster.Enabled S.start acts) {i k : ι}
    (hne : k ≠ i) (w : S.links.Walk k i) (hrounds : S.Rounds (2 * w.length) acts) :
    ∃ entry, Map.get? (((RunningServer.machine.network ι).run S.start acts).parties
      i).network.peers (S.myid k) = some entry ∧ entry.addr = S.addr k := by
  refine (truthful_run hrun i).entry_of_known hne ?_
  have hself : ∀ C : ServerCluster ι, (∀ i, S.Truthful i (C.parties i) (C.sent i)) →
      ∀ i, S.myid i ∈ (C.parties i).known := fun C hC i =>
    ⟨S.myid_ne_nil i, Or.inl (hC i).myUID_eq.symm⟩
  exact Gossip.known_of_walk (G := RunningServer.pings) hself
    (fun C hC i t hne hknown => (hC i).contacts hne hknown)
    (fun _ _ hC henabled => truthful_next hC henabled) w (truthful_start S)
    (fun i => (truthful_start S i).vouched.named) hrun hrounds (hself S.start (truthful_start S) k)

/-- B, with whose address A is configured, is known to A after two rounds. -/
theorem peers_complete_twoServers :
    ∃ entry, Map.get? (((RunningServer.machine.network Bool).run twoServers.start
      (firstRound ++ secondRound)).parties false).network.peers [66] = some entry ∧
        entry.addr = ⟨1, 81, .tcp⟩ := by
  have hadj : twoServers.links.Adj true false :=
    (SimpleGraph.fromRel_adj _ _ _).mpr ⟨by decide, Or.inr (by decide)⟩
  refine peers_complete (S := twoServers) (by decide) (by decide) (.cons hadj .nil)
    ⟨firstRound, secondRound, rfl, ?_, secondRound, [], rfl, ?_, trivial⟩
  · rintro (_ | _) (_ | _) hne hcontacts
    · exact absurd rfl hne
    · exact ⟨[(false, checkAt 1)], checkAt 6000, _, rfl, (7, pingA 6000), by decide, rfl,
        receivedAt 6001 (pingA 6000), by simp, rfl⟩
    · exact absurd hcontacts (by decide)
    · exact absurd rfl hne
  · rintro (_ | _) (_ | _) hne hcontacts
    · exact absurd rfl hne
    · exact ⟨[], checkAt 12000, _, rfl, (7, pingA 12000), by decide, rfl,
        receivedAt 12001 (pingA 12000), by simp, rfl⟩
    · exact ⟨secondRound.take 3, checkAt 18000, _, rfl, (7, pingB 18000), by decide, rfl,
        receivedAt 18001 (pingB 18000), by simp, rfl⟩
    · exact absurd rfl hne

end ServerSetup

end CppPaxos
