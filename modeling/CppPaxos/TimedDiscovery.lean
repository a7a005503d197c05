import CppPaxos.ClusterBroadcast
import CppPaxos.Library.Windows
import CppPaxos.PingCadence

/-!
# How soon the servers find each other

In time, the event loops of timely servers make the rounds of pings by themselves. A server that
checks its timers often enough pings within each period, the first ping opens the connections,
and the second one arrives. What happened before the system was timely does not matter.
-/

namespace CppPaxos

open Machines Tables

namespace ServerSetup

variable {ι : Type*} {acts pre post mid : List (ℕ × ι × LoopEvent)} {skew : ι → ℕ} {i j k : ι}

/-- The moments of a run, in milliseconds, are what the ping timers read, each shifted by a
constant. -/
structure InTime (skew : ι → ℕ) (acts : List (ℕ × ι × LoopEvent)) : Prop where
  inOrder : InOrder acts
  clock : ∀ t i c, (t, i, .checkTimer c) ∈ acts → (c.clock 0).ms.toNat = skew i + t

variable [DecidableEq ι] (S : ServerSetup ι)

/-- The cluster after a part of a run. -/
def stateAt (acts : List (ℕ × ι × LoopEvent)) : ServerCluster ι :=
  (RunningServer.machine.network ι).run S.start (acts.map Prod.snd)

/-- From one moment to another, every server checks its timers at least every `δ` milliseconds,
`Connect` does not fail for pings, no stored socket is closed, and a ping that is handed to the
socket for the address of another server is handled by that one within `D` milliseconds. -/
structure Timely (t₀ t₁ δ D : ℕ) (acts : List (ℕ × ι × LoopEvent)) : Prop where
  checks : ∀ i t, t₀ ≤ t → t + δ ≤ t₁ → ∃ u c, (u, i, .checkTimer c) ∈ acts ∧ t < u ∧ u ≤ t + δ
  connects : ∀ u i c, (u, i, .checkTimer c) ∈ acts → t₀ < u → u ≤ t₁ → ∀ k, c.pingConnect k ≠ .null
  keeps : ∀ pre u i event rest, acts = pre ++ (u, i, event) :: rest → t₀ < u → u ≤ t₁ →
    ((S.stateAt pre).parties i).ClosesNone event
  arrives : ∀ pre u i event rest, acts = pre ++ (u, i, event) :: rest → t₀ < u → u + D ≤ t₁ →
    ∀ packet ∈ RunningServer.machine.emits ((S.stateAt pre).parties i) event,
      packet.2.type = .ping → ∀ j, j ≠ i →
        Map.get? ((S.stateAt pre).parties i).network.addr2socket (S.addr j) = some packet.1 →
          ∃ act ∈ rest, act.2.1 = j ∧ act.1 ≤ u + D ∧ ∃ msg ∈ act.2.2.message,
            msg.wire = packet.2.wire

variable {S}

/-- A run can be cut in two. -/
theorem stateAt_append (pre post : List (ℕ × ι × LoopEvent)) :
    S.stateAt (pre ++ post) =
      (RunningServer.machine.network ι).run (S.stateAt pre) (post.map Prod.snd) := by
  rw [stateAt, stateAt, List.map_append, Machine.run_append]

/-- The last action of a run. -/
theorem stateAt_concat (acts : List (ℕ × ι × LoopEvent)) (t : ℕ) (act : ι × LoopEvent) :
    S.stateAt (acts ++ [(t, act)]) =
      (RunningServer.machine.network ι).next (S.stateAt acts) act := by
  rw [stateAt_append]
  rfl

/-- The server that acts handles its event. -/
theorem stateAt_concat_self (acts : List (ℕ × ι × LoopEvent)) (t : ℕ) (i : ι) (event : LoopEvent) :
    (S.stateAt (acts ++ [(t, i, event)])).parties i =
      RunningServer.machine.next ((S.stateAt acts).parties i) event := by
  rw [stateAt_concat, Machine.network_next_parties_self]

/-- The others stay as they are. -/
theorem stateAt_concat_of_ne (acts : List (ℕ × ι × LoopEvent)) (t : ℕ) (event : LoopEvent)
    (h : i ≠ j) : (S.stateAt (acts ++ [(t, j, event)])).parties i = (S.stateAt acts).parties i := by
  rw [stateAt_concat, Machine.network_next_parties_of_ne h]

/-! ### Pings in time -/

/-- The last ping of a server was at one of its checks. -/
theorem exists_lastPinged (S : ServerSetup ι) (acts : List (ℕ × ι × LoopEvent)) (i : ι) :
    ∃ last, ((S.stateAt acts).parties i).LastPinged last ∧
      (last = 0 ∨ ∃ t c, (t, i, .checkTimer c) ∈ acts ∧ last = (c.clock 0).ms) := by
  induction acts using List.reverseRecOn with
  | nil => exact ⟨0, ⟨_, rfl⟩, Or.inl rfl⟩
  | append_singleton acts act ih =>
    obtain ⟨t, j, event⟩ := act
    obtain ⟨last, hlast, hread⟩ := ih
    have hkept : last = 0 ∨ ∃ u c, (u, i, .checkTimer c) ∈ acts ++ [(t, j, event)] ∧
        last = (c.clock 0).ms :=
      hread.imp_right fun ⟨u, c, hmem, heq⟩ => ⟨u, c, List.mem_append_left _ hmem, heq⟩
    by_cases hij : i = j
    · subst hij
      rw [stateAt_concat_self]
      rcases hlast.next event with ⟨c, rfl, -, hnext⟩ | ⟨-, hnext⟩
      · exact ⟨_, hnext, Or.inr ⟨t, c, by simp, rfl⟩⟩
      · exact ⟨last, hnext, hkept⟩
    · rw [stateAt_concat_of_ne acts t event hij]
      exact ⟨last, hlast, hkept⟩

/-- Until its next ping, a server remembers the last one. -/
theorem pings_or_lastPinged {last : UInt64} (h : ((S.stateAt pre).parties i).LastPinged last)
    (mid : List (ℕ × ι × LoopEvent)) :
    (∃ first v c rest, mid = first ++ (v, i, .checkTimer c) :: rest ∧
      ((S.stateAt (pre ++ first)).parties i).Pings c) ∨
        ((S.stateAt (pre ++ mid)).parties i).LastPinged last := by
  induction mid using List.reverseRecOn with
  | nil =>
    rw [List.append_nil]
    exact Or.inr h
  | append_singleton mid act ih =>
    rcases ih with ⟨first, v, c, rest, rfl, hpings⟩ | hlast
    · exact Or.inl ⟨first, v, c, rest ++ [act], by simp, hpings⟩
    · obtain ⟨t, j, event⟩ := act
      rw [← List.append_assoc]
      by_cases hij : i = j
      · subst hij
        rw [stateAt_concat_self]
        rcases hlast.next event with ⟨c, rfl, hpings, -⟩ | ⟨-, hnext⟩
        · exact Or.inl ⟨mid, t, c, [], rfl, hpings⟩
        · exact Or.inr hnext
      · rw [stateAt_concat_of_ne _ t event hij]
        exact Or.inr hlast

/-- A server that checks its timers late enough has pinged by then. -/
theorem InTime.exists_ping (h : InTime skew (pre ++ post)) {t u : ℕ} {c : CheckContext}
    (hpre : ∀ act ∈ pre, act.1 ≤ t) (hcheck : (u, i, .checkTimer c) ∈ post)
    (hlate : t + 5000 < u) :
    ∃ mid v c rest, post = mid ++ (v, i, .checkTimer c) :: rest ∧ v ≤ u ∧
      ((S.stateAt (pre ++ mid)).parties i).Pings c := by
  obtain ⟨mid, rest, rfl⟩ := List.append_of_mem hcheck
  obtain ⟨last, hlast, hread⟩ := S.exists_lastPinged pre i
  rcases pings_or_lastPinged hlast mid with ⟨first, v, c', more, rfl, hpings⟩ | hkept
  · refine ⟨first, v, c', more ++ (u, i, .checkTimer c) :: rest, by simp, ?_, hpings⟩
    obtain ⟨-, hpost, -⟩ := List.pairwise_append.mp h.inOrder
    obtain ⟨-, -, hbefore⟩ := List.pairwise_append.mp hpost
    exact hbefore (v, i, .checkTimer c') (by simp) _ List.mem_cons_self
  · refine ⟨mid, u, c, rest, rfl, le_rfl, hkept.pings_of_late ?_⟩
    have hnow := h.clock u i c (List.mem_append_right _ hcheck)
    rcases hread with rfl | ⟨s, c', hmem, rfl⟩
    · have hzero : (0 : UInt64).toNat = 0 := rfl
      omega
    · have hthen := h.clock s i c' (List.mem_append_left _ hmem)
      have hold : s ≤ t := hpre _ hmem
      omega

/-! ### What lasts along a run -/

/-- All stored sockets are real ones, at every moment. -/
theorem socketsSet_stateAt (S : ServerSetup ι) (acts : List (ℕ × ι × LoopEvent)) (i : ι) :
    ((S.stateAt acts).parties i).network.SocketsSet := by
  induction acts using List.reverseRecOn with
  | nil =>
    intro addr s hs
    cases hs
  | append_singleton acts act ih =>
    obtain ⟨t, j, event⟩ := act
    by_cases hij : i = j
    · subst hij
      rw [stateAt_concat_self]
      exact RunningServer.socketsSet_next ih event
    · rwa [stateAt_concat_of_ne acts t event hij]

/-- While the system is timely, sockets stay stored. -/
theorem Timely.isSome_stateAt {t₀ t₁ δ D : ℕ} (h : S.Timely t₀ t₁ δ D acts) {addr : PeerAddr}
    (hacts : acts = pre ++ mid ++ post) (hmid : ∀ act ∈ mid, t₀ < act.1 ∧ act.1 ≤ t₁)
    (hs : (Map.get? ((S.stateAt pre).parties i).network.addr2socket addr).isSome) :
    (Map.get? ((S.stateAt (pre ++ mid)).parties i).network.addr2socket addr).isSome := by
  induction mid using List.reverseRecOn generalizing post with
  | nil => rwa [List.append_nil]
  | append_singleton mid act ih =>
    obtain ⟨t, j, event⟩ := act
    obtain ⟨hmid, hact⟩ := List.forall_mem_append.mp hmid
    obtain ⟨hlate, hsoon⟩ := hact _ List.mem_cons_self
    have hstill : acts = pre ++ mid ++ (t, j, event) :: post := by simpa using hacts
    have hbefore := ih hstill hmid
    rw [← List.append_assoc]
    by_cases hij : i = j
    · subst hij
      have hnone := h.keeps (pre ++ mid) t i event post hstill hlate hsoon
      rwa [stateAt_concat_self, RunningServer.get?_next_of_isSome hnone hbefore]
    · rwa [stateAt_concat_of_ne _ t event hij]

/-- All servers are truthful, at every moment. -/
theorem truthful_stateAt
    (hrun : (RunningServer.machine.network ι).Admits ServerCluster.Enabled S.start
      (acts.map Prod.snd)) (hpre : pre <+: acts) (i : ι) :
    S.Truthful i ((S.stateAt pre).parties i) ((S.stateAt pre).sent i) :=
  truthful_run (hrun.of_prefix (hpre.map Prod.snd)) i

/-- Broadcasts go on to address whom they once did. -/
theorem broadcastTargets_subset
    (hrun : (RunningServer.machine.network ι).Admits ServerCluster.Enabled S.start
      (acts.map Prod.snd)) (hacts : pre ++ mid <+: acts) (i : ι) :
    ((S.stateAt pre).parties i).network.broadcastTargets ⊆
      ((S.stateAt (pre ++ mid)).parties i).network.broadcastTargets := by
  have hpre : pre <+: acts := (List.prefix_append pre mid).trans hacts
  have hknown : ((S.stateAt pre).parties i).known ⊆
      ((S.stateAt (pre ++ mid)).parties i).known := by
    rw [stateAt_append]
    exact Gossip.known_subset_run (G := RunningServer.pings)
      (fun i => (truthful_stateAt hrun hpre i).vouched.named) _ i
  intro addr haddr
  rw [(truthful_stateAt hrun hpre i).mem_broadcastTargets_iff] at haddr
  rw [(truthful_stateAt hrun hacts i).mem_broadcastTargets_iff]
  refine haddr.imp_right fun ⟨uid, hentry⟩ => ⟨uid, ?_⟩
  obtain ⟨k, hki, huid, hk, hmem⟩ := (truthful_stateAt hrun hpre i).entry_iff.mp hentry
  exact (truthful_stateAt hrun hacts i).entry_iff.mpr ⟨k, hki, huid, hk, hknown hmem⟩

/-! ### Rounds in time -/

/-- How long a round takes: two periods of the ping timer, with the time until the next check, and
the way of a ping. -/
def roundTime (δ D : ℕ) : ℕ := 2 * (5000 + δ) + D

section Rounds

variable {t₀ t₁ δ D t : ℕ}

/-- From any place in the run on, a server pings within a period and the time until the next
check. -/
theorem Timely.exists_ping (h : S.Timely t₀ t₁ δ D acts) (hin : InTime skew acts)
    (hacts : acts = pre ++ post) (hpre : ∀ act ∈ pre, act.1 ≤ t) (ht : t₀ ≤ t)
    (hlong : t + 5000 + δ ≤ t₁) (i : ι) :
    ∃ mid u c rest, post = mid ++ (u, i, .checkTimer c) :: rest ∧ u ≤ t + 5000 + δ ∧
      ((S.stateAt (pre ++ mid)).parties i).Pings c := by
  obtain ⟨w, d, hd, hlate, hsoon⟩ := h.checks i (t + 5000) (by omega) hlong
  rw [hacts] at hin hd
  have hpost : (w, i, .checkTimer d) ∈ post :=
    mem_of_append_of_lt hd hpre (show t < w by omega)
  obtain ⟨mid, u, c, rest, hrest, hu, hpings⟩ := hin.exists_ping hpre hpost hlate
  exact ⟨mid, u, c, rest, hrest, hu.trans hsoon, hpings⟩

/-- A ping that a server sends when it has the socket arrives. -/
theorem Timely.arrives_of_pings (h : S.Timely t₀ t₁ δ D acts) {u : ℕ} {c : CheckContext}
    (hacts : acts = pre ++ (u, i, .checkTimer c) :: post) (hlate : t₀ < u) (hsoon : u + D ≤ t₁)
    (hpings : ((S.stateAt pre).parties i).Pings c) (hne : j ≠ i)
    (haddr : S.addr j ∈ ((S.stateAt pre).parties i).network.broadcastTargets)
    (hsome : (Map.get? ((S.stateAt pre).parties i).network.addr2socket (S.addr j)).isSome) :
    ∃ o ∈ RunningServer.machine.emits ((S.stateAt pre).parties i) (.checkTimer c),
      o.2.type = .ping ∧ ∃ act ∈ post, act.2.1 = j ∧ act.1 ≤ u + D ∧ ∃ msg ∈ act.2.2.message,
        msg.wire = o.2.wire := by
  obtain ⟨last, hlast, -⟩ := S.exists_lastPinged pre i
  obtain ⟨s, hs⟩ := Option.isSome_iff_exists.mp hsome
  obtain ⟨m, hm, hping⟩ := hlast.mem_emits hpings (S.socketsSet_stateAt pre i) haddr hs
  exact ⟨(s, m), hm, hping, h.arrives pre u i _ post hacts hlate hsoon _ hm hping j hne hs⟩

/-- A server soon has sockets to all whom its broadcasts address: a first ping opens them. -/
theorem Timely.exists_connected (h : S.Timely t₀ t₁ δ D acts) (hin : InTime skew acts)
    (hrun : (RunningServer.machine.network ι).Admits ServerCluster.Enabled S.start
      (acts.map Prod.snd)) (ht : t₀ ≤ t) (hlong : t + 5000 + δ ≤ t₁) {addr : PeerAddr}
    (haddr : addr ∈ ((S.stateAt (upTo t acts)).parties i).network.broadcastTargets) :
    ∃ mid rest u, acts = upTo t acts ++ mid ++ rest ∧
      (∀ act ∈ upTo t acts ++ mid, act.1 ≤ u) ∧ t ≤ u ∧ u ≤ t + 5000 + δ ∧
        (Map.get? ((S.stateAt (upTo t acts ++ mid)).parties i).network.addr2socket
          addr).isSome := by
  have hcut : acts = upTo t acts ++ after t acts := (hin.inOrder.upTo_append_after t).symm
  obtain ⟨mid, u, c, rest, hrest, hu, hpings⟩ :=
    h.exists_ping hin hcut (fun act hact => (mem_upTo.mp hact).2) ht hlong i
  have hsplit : acts = upTo t acts ++ mid ++ (u, i, .checkTimer c) :: rest := by
    rw [List.append_assoc, ← hrest, ← hcut]
  obtain ⟨hmem, hlate⟩ := mem_after.mp
    (show (u, i, .checkTimer c) ∈ after t acts by rw [hrest]; simp)
  have horder : InOrder (upTo t acts ++ mid ++ (u, i, .checkTimer c) :: rest) := by
    rw [← hsplit]
    exact hin.inOrder
  have hbefore := horder.le_of_append_cons
  have htargets : addr ∈ ((S.stateAt (upTo t acts ++ mid)).parties i).network.broadcastTargets :=
    broadcastTargets_subset hrun ⟨_, hsplit.symm⟩ i haddr
  obtain ⟨last, hlast, -⟩ := S.exists_lastPinged (upTo t acts ++ mid) i
  have hconnects := h.connects u i c hmem (by omega) (by omega)
  rw [List.append_assoc] at hbefore
  have hend : acts = upTo t acts ++ (mid ++ [(u, i, .checkTimer c)]) ++ rest := by
    rw [← List.append_assoc, List.append_assoc _ _ rest]
    exact hsplit
  refine ⟨mid ++ [(u, i, .checkTimer c)], rest, u, hend, hbefore, hlate.le, hu, ?_⟩
  rw [← List.append_assoc, stateAt_concat_self]
  exact hlast.isSome_next hpings hconnects htargets

/-- From then on, the next ping arrives. -/
theorem Timely.delivers_of_connected (h : S.Timely t₀ t₁ δ D acts) (hin : InTime skew acts)
    (hrun : (RunningServer.machine.network ι).Admits ServerCluster.Enabled S.start
      (acts.map Prod.snd)) {u : ℕ} (hacts : acts = pre ++ post) (hpre : ∀ act ∈ pre, act.1 ≤ u)
    (hpost : ∀ act ∈ post, t₀ < act.1) (hu : t₀ ≤ u) (hlong : u + 5000 + δ + D ≤ t₁) (hne : j ≠ i)
    (haddr : S.addr j ∈ ((S.stateAt pre).parties i).network.broadcastTargets)
    (hsome : (Map.get? ((S.stateAt pre).parties i).network.addr2socket (S.addr j)).isSome) :
    RunningServer.pings.Delivers (S.stateAt pre)
      ((upTo (u + 5000 + δ + D) post).map Prod.snd) i j := by
  obtain ⟨mid, v, c, rest, rfl, hv, hpings⟩ :=
    h.exists_ping hin hacts hpre hu ((Nat.le_add_right _ D).trans hlong) i
  have horder : InOrder (mid ++ (v, i, .checkTimer c) :: rest) := by
    have hall := hin.inOrder
    rw [hacts] at hall
    exact (List.pairwise_append.mp hall).2.1
  have hv₀ : t₀ < v := hpost (v, i, .checkTimer c) (List.mem_append_right _ List.mem_cons_self)
  have hmid : ∀ act ∈ mid, t₀ < act.1 ∧ act.1 ≤ t₁ := by
    intro act hact
    have hsooner : act.1 ≤ v := horder.le_of_append_cons act (List.mem_append_left _ hact)
    exact ⟨hpost _ (List.mem_append_left _ hact), by omega⟩
  have hend : acts = pre ++ mid ++ (v, i, .checkTimer c) :: rest := by
    rw [List.append_assoc, ← hacts]
  obtain ⟨o, ho, hping, ⟨w, _, event⟩, hmem, rfl, hw, msg, hmsg, hwire⟩ :=
    h.arrives_of_pings hend hv₀ (by omega) hpings hne
      (broadcastTargets_subset hrun ⟨_, hend.symm⟩ i haddr) (h.isSome_stateAt hend hmid hsome)
  rw [stateAt_append] at ho
  refine ⟨mid.map Prod.snd, .checkTimer c, (upTo (u + 5000 + δ + D) rest).map Prod.snd, ?_, o, ho,
    ?_, event, ?_, ?_⟩
  · rw [horder.upTo_append_cons (show v ≤ u + 5000 + δ + D by omega), List.map_append]
    rfl
  · exact (Message.wire_type o.2).trans hping
  · exact List.mem_map.mpr ⟨_, mem_upTo.mpr ⟨hmem, show w ≤ u + 5000 + δ + D by omega⟩, rfl⟩
  · exact Option.mem_map.mpr ⟨msg, hmsg, hwire⟩

/-- Within one round, a ping of each server arrives wherever its broadcasts go. -/
theorem Timely.delivers (h : S.Timely t₀ t₁ δ D acts) (hin : InTime skew acts)
    (hrun : (RunningServer.machine.network ι).Admits ServerCluster.Enabled S.start
      (acts.map Prod.snd)) (ht : t₀ ≤ t) (hlong : t + roundTime δ D ≤ t₁) (hne : j ≠ i)
    (haddr : S.addr j ∈ ((S.stateAt (upTo t acts)).parties i).network.broadcastTargets) :
    RunningServer.pings.Delivers (S.stateAt (upTo t acts))
      ((upTo (t + roundTime δ D) (after t acts)).map Prod.snd) i j := by
  rw [roundTime] at hlong ⊢
  obtain ⟨mid, rest, u, hsplit, hbefore, htu, hu, hsome⟩ :=
    h.exists_connected hin hrun ht (by omega) haddr
  have hafter : after t acts = mid ++ rest := by
    have hcut := (hin.inOrder.upTo_append_after t).trans hsplit
    rw [List.append_assoc] at hcut
    exact List.append_cancel_left hcut
  have horder : InOrder rest := by
    have hall := hin.inOrder.after t
    rw [hafter] at hall
    exact (List.pairwise_append.mp hall).2.1
  have hlater : ∀ act ∈ rest, t₀ < act.1 := by
    intro act hact
    have hmem : act ∈ after t acts := hafter ▸ List.mem_append_right _ hact
    exact ht.trans_lt (mem_after.mp hmem).2
  have htargets := broadcastTargets_subset hrun ⟨rest, hsplit.symm⟩ i haddr
  have hdelivers := h.delivers_of_connected hin hrun hsplit hbefore hlater (ht.trans htu) (by omega)
    hne htargets hsome
  have hmid : ∀ act ∈ mid, act.1 ≤ t + (2 * (5000 + δ) + D) := by
    intro act hact
    have hle := hbefore act (List.mem_append_right _ hact)
    omega
  rw [hafter, upTo_append, upTo_eq_self hmid, ← horder.upTo_append_window
    (show u + 5000 + δ + D ≤ t + (2 * (5000 + δ) + D) by omega), List.map_append, List.map_append]
  rw [stateAt_append] at hdelivers
  exact (hdelivers.append_right _).append_left

/-- A run of A and B in which their timers are checked every forty seconds, and pings arrive within
a millisecond. -/
def everyFortySeconds : List (ℕ × Bool × LoopEvent) :=
  [(40000, false, checkAt 40000), (40000, true, checkAt 40000),
    (80000, false, checkAt 80000), (80000, true, checkAt 80000),
    (80001, true, receivedAt 80001 (pingA 80000)),
    (120000, false, checkAt 120000), (120000, true, checkAt 120000),
    (120001, true, receivedAt 120001 (pingA 120000)),
    (160000, false, checkAt 160000), (160000, true, checkAt 160000),
    (160001, true, receivedAt 160001 (pingA 160000)),
    (160001, false, receivedAt 160001 (pingB 160000))]

/-- **How soon the servers find each other.** Whatever has happened before, from the moment on at
which the system is timely, servers that are joined by a walk of links have entries for each other
after two rounds for each link of the walk. -/
theorem peers_complete_in_time
    (hrun : (RunningServer.machine.network ι).Admits ServerCluster.Enabled S.start
      (acts.map Prod.snd)) (hin : InTime skew acts) (hne : k ≠ i) (w : S.links.Walk k i)
    (h : S.Timely t₀ (t₀ + 2 * w.length * roundTime δ D) δ D acts)
    (ht : t₀ + 2 * w.length * roundTime δ D ≤ t) :
    ∃ entry, Map.get? ((S.stateAt (upTo t acts)).parties i).network.peers (S.myid k) = some entry ∧
      entry.addr = S.addr k := by
  have hfirst : upTo t₀ acts <+: acts := ⟨_, hin.inOrder.upTo_append_after t₀⟩
  have hlast : upTo t acts <+: acts := ⟨_, hin.inOrder.upTo_append_after t⟩
  have hself : ∀ C : ServerCluster ι, (∀ i, S.Truthful i (C.parties i) (C.sent i)) →
      ∀ i, S.myid i ∈ (C.parties i).known := fun C hC i =>
    ⟨S.myid_ne_nil i, Or.inl (hC i).myUID_eq.symm⟩
  have hrounds : RunningServer.pings.Rounds (fun T j => S.addr j ∈ T.network.broadcastTargets)
      (2 * w.length) (S.stateAt (upTo t₀ acts))
      ((upTo (t₀ + 2 * w.length * roundTime δ D) (after t₀ acts)).map Prod.snd) :=
    hin.inOrder.rounds fun t ht hlong i j hne haddr => h.delivers hin hrun ht hlong hne haddr
  have hwindow : upTo t₀ acts ++ upTo (t₀ + 2 * w.length * roundTime δ D) (after t₀ acts) <+:
      acts := by
    rw [hin.inOrder.upTo_append_window (Nat.le_add_right _ _)]
    exact ⟨_, hin.inOrder.upTo_append_after _⟩
  have hadmits := (hrun.of_prefix (hwindow.map Prod.snd))
  rw [List.map_append, Machine.admits_append] at hadmits
  have hspread := Gossip.known_of_walk (G := RunningServer.pings) hself
    (fun C hC i t hne hknown => (hC i).contacts hne hknown)
    (fun _ _ hC henabled => truthful_next hC henabled) w (truthful_stateAt hrun hfirst)
    (fun i => (truthful_stateAt hrun hfirst i).vouched.named) hadmits.2 hrounds
    (hself _ (truthful_stateAt hrun hfirst) k)
  refine (truthful_stateAt hrun hlast i).entry_of_known hne ?_
  rw [← stateAt_append, hin.inOrder.upTo_append_window (Nat.le_add_right _ _)] at hspread
  rw [← hin.inOrder.upTo_append_window ht, stateAt_append]
  exact Gossip.known_subset_run (G := RunningServer.pings)
    (fun i => (truthful_stateAt hrun ⟨_, hin.inOrder.upTo_append_after _⟩ i).vouched.named) _ i
    hspread

end Rounds

/-- What happens in that run are checks, and messages that are handed on. -/
theorem event_of_mem_everyFortySeconds {t : ℕ} {i : Bool} {event : LoopEvent}
    (h : (t, i, event) ∈ everyFortySeconds) :
    event = checkAt (.ofNat t) ∨ ∃ msg, event = receivedAt (.ofNat t) msg := by
  have hall : ∀ act ∈ everyFortySeconds,
      act.2.2 = checkAt (.ofNat act.1) ∨ ∃ msg, act.2.2 = receivedAt (.ofNat act.1) msg := by
    simp only [everyFortySeconds, List.forall_mem_cons]
    exact ⟨Or.inl rfl, Or.inl rfl, Or.inl rfl, Or.inl rfl, Or.inr ⟨_, rfl⟩, Or.inl rfl, Or.inl rfl,
      Or.inr ⟨_, rfl⟩, Or.inl rfl, Or.inl rfl, Or.inr ⟨_, rfl⟩, Or.inr ⟨_, rfl⟩, nofun⟩
  exact hall _ h

/-- The clocks count the milliseconds. -/
theorem inTime_everyFortySeconds : InTime (fun _ => 0) everyFortySeconds := by
  refine ⟨by decide, fun t i c hmem => ?_⟩
  have hsmall : ∀ act ∈ everyFortySeconds, act.1 < UInt64.size := by decide
  rcases event_of_mem_everyFortySeconds hmem with hcheck | ⟨msg, hreceived⟩
  · obtain rfl := LoopEvent.checkTimer.inj hcheck
    rw [Nat.zero_add]
    exact UInt64.toNat_ofNat_of_lt' (hsmall _ hmem)
  · cases hreceived

/-- Both servers check their timers every forty seconds. -/
theorem check_mem_everyFortySeconds {n : ℕ} (hpos : 0 < n) (hn : n ≤ 4) (i : Bool) :
    (40000 * n, i, checkAt (.ofNat (40000 * n))) ∈ everyFortySeconds := by
  obtain rfl | rfl | rfl | rfl : n = 1 ∨ n = 2 ∨ n = 3 ∨ n = 4 := by omega
  · cases i <;> simp [everyFortySeconds]
  · cases i <;> simp [everyFortySeconds]
  · cases i <;> simp [everyFortySeconds]
  · cases i <;> simp [everyFortySeconds]

/-- The pings arrive. -/
theorem timely_everyFortySeconds :
    twoServers.Timely 0 180002 40000 1 everyFortySeconds := by
  have harrives : ∀ n : Fin everyFortySeconds.length,
      ∀ packet ∈ RunningServer.machine.emits
          ((twoServers.stateAt (everyFortySeconds.take n)).parties (everyFortySeconds.get n).2.1)
          (everyFortySeconds.get n).2.2,
        packet.2.type = .ping → ∀ j, j ≠ (everyFortySeconds.get n).2.1 →
          Map.get? ((twoServers.stateAt (everyFortySeconds.take n)).parties
            (everyFortySeconds.get n).2.1).network.addr2socket (twoServers.addr j) = some packet.1 →
          ∃ act ∈ everyFortySeconds.drop (n + 1), act.2.1 = j ∧
            act.1 ≤ (everyFortySeconds.get n).1 + 1 ∧ ∃ msg ∈ act.2.2.message,
              msg.wire = packet.2.wire := by
    decide +kernel
  refine ⟨fun i t _ ht => ?_, fun u i c hmem _ _ => ?_, fun pre u i event rest hacts _ _ => ?_,
    fun pre u i event rest hacts _ _ => ?_⟩
  · refine ⟨40000 * (t / 40000 + 1), _, check_mem_everyFortySeconds (by omega) (by omega) i, ?_, ?_⟩
      <;> omega
  · rcases event_of_mem_everyFortySeconds hmem with hcheck | ⟨msg, hreceived⟩
    · obtain rfl := LoopEvent.checkTimer.inj hcheck
      exact fun k => nofun
    · cases hreceived
  · have hmem : (u, i, event) ∈ everyFortySeconds := by simp [hacts]
    rintro s rfl
    rcases event_of_mem_everyFortySeconds hmem with hcheck | ⟨msg, hreceived⟩
    · cases hcheck
    · cases hreceived
  · have hlength : pre.length < everyFortySeconds.length := by simp [hacts]
    have hthen := harrives ⟨pre.length, hlength⟩
    simpa [hacts] using hthen

/-- A knows of B. -/
theorem peers_complete_in_time_everyFortySeconds :
    ∃ entry, Map.get? ((twoServers.stateAt (upTo 180002 everyFortySeconds)).parties
      false).network.peers [66] = some entry ∧ entry.addr = ⟨1, 81, .tcp⟩ := by
  have hadj : twoServers.links.Adj true false :=
    (SimpleGraph.fromRel_adj _ _ _).mpr ⟨by decide, Or.inr (by decide)⟩
  have hend : 0 + 2 * (SimpleGraph.Walk.cons hadj .nil).length * roundTime 40000 1 = 180002 := by
    simp [roundTime]
  exact peers_complete_in_time (S := twoServers) (by decide) inTime_everyFortySeconds (by decide)
    (.cons hadj .nil) (hend ▸ timely_everyFortySeconds) hend.le

end ServerSetup

end CppPaxos
