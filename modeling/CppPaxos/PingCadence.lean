import CppPaxos.EventLoop
import CppPaxos.QuorumSends

/-!
# When a server pings, and whom its pings reach

The first timer of a server calls `SendPingMessage`. A ping to an address without a socket only
opens one, and is lost. So an address is reached by the second ping, as long as `Connect` does
not fail and the socket is not closed.
-/

namespace CppPaxos

open Machines Tables

/-! ### Sockets -/

namespace ServerNetwork

/-- No null pointer is stored for an address. -/
def SocketsSet (S : ServerNetwork) : Prop :=
  ∀ addr s, Map.get? S.addr2socket addr = some s → s ≠ .null

/-- No stored socket is closed. -/
def ClosesNone (S : ServerNetwork) (call : NetworkCall) : Prop :=
  ∀ s, call = .handleClose s → Map.get? S.socket2addr s = none

variable {S : ServerNetwork} {msg : Message} {addr : PeerAddr}

/-- It is a matter of the sockets only. -/
theorem SocketsSet.of_eq {T : ServerNetwork} (h : S.SocketsSet)
    (hsame : T.addr2socket = S.addr2socket) : T.SocketsSet := by
  rwa [SocketsSet, hsame]

/-- Only a socket that is not null is stored. -/
theorem SocketsSet.sendMessageToPeer (h : S.SocketsSet) (msg : Message) (addr : PeerAddr)
    (connect : SocketPtr) : (S.sendMessageToPeer msg addr connect).1.SocketsSet := by
  unfold ServerNetwork.sendMessageToPeer
  split
  · by_cases hnull : connect = .null
    · rwa [if_pos hnull]
    · rw [if_neg hnull]
      intro addr' s hs
      rw [Map.get?_assign] at hs
      by_cases haddr : addr = addr'
      · rw [if_pos haddr, Option.some_inj] at hs
        rwa [← hs]
      · rw [if_neg haddr] at hs
        exact h addr' s hs
  · exact h

/-- So it is for each address of a list. -/
theorem SocketsSet.sendMessageToEach (msg : Message) {addrs : List PeerAddr} :
    ∀ {S : ServerNetwork} (connect : ℕ → SocketPtr), S.SocketsSet →
      (S.sendMessageToEach msg connect addrs).1.SocketsSet := by
  induction addrs with
  | nil => exact fun _ h => h
  | cons addr rest ih => exact fun connect h => ih _ (h.sendMessageToPeer msg addr (connect 0))

/-- Closing a socket stores none. -/
theorem SocketsSet.handleClose (h : S.SocketsSet) (s : SocketPtr) :
    (S.handleClose s).SocketsSet := by
  unfold ServerNetwork.handleClose
  split
  · rename_i addr hfound
    intro addr' s' hs'
    rw [Map.get?_erase] at hs'
    split at hs'
    · cases hs'
    · exact h addr' s' hs'
  · exact h

/-- No call stores a null pointer. -/
theorem SocketsSet.next (h : S.SocketsSet) (call : NetworkCall) :
    (machine.next S call).SocketsSet := by
  cases hsending : S.sending call with
  | some d =>
    rw [Machine.next, step_of_sending hsending]
    exact SocketsSet.sendMessageToEach d.msg d.connect (h.of_eq (sockets_of_sending hsending).1)
  | none =>
    by_cases hclose : ∃ s, call = .handleClose s
    · obtain ⟨s, rfl⟩ := hclose
      exact h.handleClose s
    · exact h.of_eq (sameSockets_of_silent hsending fun s hs => hclose ⟨s, hs⟩).addr2socket

/-- A socket that is not closed stays stored. -/
theorem get?_next_of_isSome {call : NetworkCall} (hclose : S.ClosesNone call)
    (h : (Map.get? S.addr2socket addr).isSome) :
    Map.get? (machine.next S call).addr2socket addr = Map.get? S.addr2socket addr := by
  cases hsending : S.sending call with
  | some d =>
    have hstart := (sockets_of_sending hsending).1
    rw [Machine.next, step_of_sending hsending, get?_sendMessageToEach_of_isSome d.msg d.addrs
      d.connect (by rwa [hstart]), hstart]
  | none =>
    by_cases hcloses : ∃ s, call = .handleClose s
    · obtain ⟨s, rfl⟩ := hcloses
      have hsame : S.handleClose s = S := by
        rw [handleClose, hclose s rfl]
      change Map.get? (S.handleClose s).addr2socket addr = _
      rw [hsame]
    · rw [(sameSockets_of_silent hsending fun s hs => hcloses ⟨s, hs⟩).addr2socket]

/-- If `Connect` does not fail, there is a socket for the address afterwards. -/
theorem isSome_sendMessageToPeer {connect : SocketPtr} (hconnect : connect ≠ .null) :
    (Map.get? (S.sendMessageToPeer msg addr connect).1.addr2socket addr).isSome := by
  unfold sendMessageToPeer
  split
  · rw [if_neg hconnect]
    simp [Map.get?_assign]
  · rename_i s hs
    rw [hs]
    rfl

/-- Every address to which a message is sent has a socket then, unless `Connect` fails. -/
theorem isSome_sendMessageToEach {addrs : List PeerAddr} (haddr : addr ∈ addrs) :
    ∀ {S : ServerNetwork} {connect : ℕ → SocketPtr}, (∀ i, connect i ≠ .null) →
      (Map.get? (S.sendMessageToEach msg connect addrs).1.addr2socket addr).isSome := by
  induction addrs with
  | nil => cases haddr
  | cons addr' rest ih =>
    intro S connect hconnect
    rw [sendMessageToEach_cons_fst]
    rcases List.mem_cons.mp haddr with rfl | hrest
    · have hfirst : (Map.get? (S.sendMessageToPeer msg addr (connect 0)).1.addr2socket
        addr).isSome := isSome_sendMessageToPeer (hconnect 0)
      rwa [get?_sendMessageToEach_of_isSome msg rest _ hfirst]
    · exact ih hrest fun i => hconnect (i + 1)

/-- A message goes to every address that has a socket. -/
theorem mem_sendMessageToEach {addrs : List PeerAddr} {s : SocketPtr} (haddr : addr ∈ addrs) :
    ∀ {S : ServerNetwork} {connect : ℕ → SocketPtr}, S.SocketsSet →
      Map.get? S.addr2socket addr = some s →
        (s, msg) ∈ (S.sendMessageToEach msg connect addrs).2 := by
  induction addrs with
  | nil => cases haddr
  | cons addr' rest ih =>
    intro S connect hset hs
    rw [sendMessageToEach_cons_snd, List.mem_append]
    rcases List.mem_cons.mp haddr with rfl | hrest
    · rw [sendMessageToPeer_snd msg hset, hs]
      exact Or.inl List.mem_cons_self
    · refine Or.inr (ih hrest (hset.sendMessageToPeer msg addr' (connect 0)) ?_)
      rw [get?_sendMessageToPeer_of_isSome msg _ (by rw [hs]; rfl), hs]

end ServerNetwork

/-! ### The ping timer -/

namespace RunningServer

/-- The first timer sends pings. At this reading of the clock it was executed last; zero stands for
never. -/
def LastPinged (S : RunningServer) (last : UInt64) : Prop :=
  ∃ rest, S.timerManager.timers = ⟨5000, last, .sendPingMessage⟩ :: rest

/-- A check of the timers finds the first one due. -/
def Pings (S : RunningServer) (c : CheckContext) : Prop :=
  ∃ t ∈ S.timerManager.timers[0]?, t.isDue (c.clock 0).ms

instance (S : RunningServer) (c : CheckContext) : Decidable (S.Pings c) :=
  inferInstanceAs (Decidable (∃ t ∈ S.timerManager.timers[0]?, _))

variable {S : RunningServer} {last : UInt64} {c : CheckContext}

/-- The timer of the pings compares its reading with the last one. -/
theorem LastPinged.pings_iff (h : S.LastPinged last) :
    S.Pings c ↔ last = 0 ∨ last + 5000 < (c.clock 0).ms := by
  obtain ⟨rest, hrest⟩ := h
  have hperiod : (5000 : Int64).toUInt64 = 5000 := rfl
  rw [Pings, hrest]
  simp [EzTimer.isDue, hperiod]

/-- A timer is due once its period has passed, also if that moment overflows. -/
theorem LastPinged.pings_of_late (h : S.LastPinged last)
    (hlate : last.toNat + 5000 < (c.clock 0).ms.toNat) : S.Pings c := by
  refine h.pings_iff.mpr (Or.inr (UInt64.lt_iff_toNat_lt.mpr ?_))
  have hsum : (last + 5000).toNat ≤ last.toNat + 5000 := by
    rw [UInt64.toNat_add]
    exact Nat.mod_le _ _
  omega

/-- Only checks of the timers change them. -/
theorem LastPinged.next (h : S.LastPinged last) (event : LoopEvent) :
    (∃ c, event = .checkTimer c ∧ S.Pings c ∧
      (machine.next S event).LastPinged (c.clock 0).ms) ∨
        (∀ c, event = .checkTimer c → ¬S.Pings c) ∧ (machine.next S event).LastPinged last := by
  obtain ⟨rest, hrest⟩ := h
  cases event with
  | handleMessage msg c => exact Or.inr ⟨fun c h => (nomatch h), rest, hrest⟩
  | handleClose s => exact Or.inr ⟨fun c h => (nomatch h), rest, hrest⟩
  | checkTimer c =>
    have htimers : (machine.next S (.checkTimer c)).timerManager.timers =
        (EzTimer.execute (ServerCallback.networkCalls c) ⟨5000, last, .sendPingMessage⟩
          (c.clock 0)).1 :: (EzTimerManager.executeAll (ServerCallback.networkCalls c) rest
            fun i => c.clock (i + 1)).1 := by
      change (EzTimerManager.executeAll (ServerCallback.networkCalls c) S.timerManager.timers
        c.clock).1 = _
      rw [hrest, EzTimerManager.executeAll_cons_fst]
    have hpings : S.Pings c ↔ (⟨5000, last, .sendPingMessage⟩ :
        EzTimer ServerCallback).isDue (c.clock 0).ms := by
      rw [Pings, hrest]
      simp
    by_cases hdue : S.Pings c
    · rw [EzTimer.execute_of_isDue (hpings.mp hdue)] at htimers
      exact Or.inl ⟨c, rfl, hdue, _, htimers⟩
    · rw [EzTimer.execute_of_not_isDue (mt hpings.mpr hdue)] at htimers
      refine Or.inr ⟨fun c' h => ?_, _, htimers⟩
      cases h
      exact hdue

/-- A check at which the first timer is due begins with a ping. -/
theorem LastPinged.checkCalls_eq (h : S.LastPinged last) (hpings : S.Pings c) :
    ∃ calls, S.checkCalls c = .sendPingMessage c.pingNow c.pingConnect :: calls := by
  obtain ⟨rest, hrest⟩ := h
  have hdue : (⟨5000, last, .sendPingMessage⟩ : EzTimer ServerCallback).isDue (c.clock 0).ms := by
    rw [Pings, hrest] at hpings
    simpa using hpings
  refine ⟨(EzTimerManager.executeAll (ServerCallback.networkCalls c) rest
    fun i => c.clock (i + 1)).2, ?_⟩
  change (EzTimerManager.executeAll (ServerCallback.networkCalls c) S.timerManager.timers
    c.clock).2 = _
  rw [hrest, EzTimerManager.executeAll_cons_snd, EzTimer.execute_of_isDue hdue]
  rfl

/-! ### What pings reach -/

/-- No stored socket is closed. -/
def ClosesNone (S : RunningServer) (event : LoopEvent) : Prop :=
  ∀ s, event = .handleClose s → Map.get? S.network.socket2addr s = none

/-- Every event keeps it. -/
theorem socketsSet_next (h : S.network.SocketsSet) (event : LoopEvent) :
    (machine.next S event).network.SocketsSet := by
  rw [next_network]
  induction S.networkCalls event using List.reverseRecOn with
  | nil => exact h
  | append_singleton calls call ih =>
    rw [Machine.run_concat]
    exact ih.next call

/-- Calls that close no socket keep those that are stored. -/
theorem get?_run_of_isSome {calls : List NetworkCall} (hclose : ∀ call ∈ calls, ∀ s,
    call ≠ .handleClose s) {N : ServerNetwork} {addr : PeerAddr}
    (h : (Map.get? N.addr2socket addr).isSome) :
    Map.get? (ServerNetwork.machine.run N calls).addr2socket addr =
      Map.get? N.addr2socket addr := by
  induction calls generalizing N with
  | nil => rfl
  | cons call calls ih =>
    obtain ⟨hcall, hcalls⟩ := List.forall_mem_cons.mp hclose
    have hnone : N.ClosesNone call := fun s hs => absurd hs (hcall s)
    have hnext := ServerNetwork.get?_next_of_isSome hnone h
    rw [Machine.run_cons, ih hcalls (by rwa [hnext]), hnext]

/-- A check of the timers closes nothing. -/
theorem ne_handleClose_of_mem_checkCalls {call : NetworkCall} (h : call ∈ S.checkCalls c)
    (s : SocketPtr) : call ≠ .handleClose s := by
  rcases S.mem_checkCalls h with rfl | ⟨t, -, copy, now, uid, id, connect, -, -, rfl⟩ <;>
    exact fun h => nomatch h

/-- An event that closes no socket keeps those that are stored. -/
theorem get?_next_of_isSome {event : LoopEvent} (hclose : S.ClosesNone event) {addr : PeerAddr}
    (h : (Map.get? S.network.addr2socket addr).isSome) :
    Map.get? (machine.next S event).network.addr2socket addr =
      Map.get? S.network.addr2socket addr := by
  rw [next_network]
  cases event with
  | handleMessage msg c =>
    refine get?_run_of_isSome (fun call hcall s => ?_) h
    cases msg with
    | ping m => exact List.mem_singleton.mp hcall ▸ fun h => nomatch h
    | pong m => exact List.mem_singleton.mp hcall ▸ fun h => nomatch h
    | _ => cases hcall
  | handleClose s =>
    have hnone : S.network.ClosesNone (.handleClose s) := by
      rintro _ ⟨⟩
      exact hclose s rfl
    exact ServerNetwork.get?_next_of_isSome hnone h
  | checkTimer c =>
    exact get?_run_of_isSome (fun call hcall => ne_handleClose_of_mem_checkCalls hcall) h

/-- A ping opens a socket to every address that it is meant for. -/
theorem LastPinged.isSome_next (h : S.LastPinged last) (hpings : S.Pings c)
    (hconnect : ∀ k, c.pingConnect k ≠ .null) {addr : PeerAddr}
    (haddr : addr ∈ S.network.broadcastTargets) :
    (Map.get? (machine.next S (.checkTimer c)).network.addr2socket addr).isSome := by
  obtain ⟨calls, hcalls⟩ := h.checkCalls_eq hpings
  have hfirst : (Map.get? (ServerNetwork.machine.next S.network
      (.sendPingMessage c.pingNow c.pingConnect)).addr2socket addr).isSome :=
    ServerNetwork.isSome_sendMessageToEach haddr hconnect
  have hkept : ∀ call ∈ calls, ∀ s, call ≠ .handleClose s := fun call hcall =>
    ne_handleClose_of_mem_checkCalls (c := c) (hcalls ▸ List.mem_cons_of_mem _ hcall)
  rw [next_network]
  change (Map.get? (ServerNetwork.machine.run S.network (S.checkCalls c)).addr2socket addr).isSome
  rwa [hcalls, Machine.run_cons, get?_run_of_isSome hkept hfirst]

/-- It goes to those that have one before. -/
theorem LastPinged.mem_emits (h : S.LastPinged last) (hpings : S.Pings c)
    (hset : S.network.SocketsSet) {addr : PeerAddr} (haddr : addr ∈ S.network.broadcastTargets)
    {s : SocketPtr} (hs : Map.get? S.network.addr2socket addr = some s) :
    ∃ m, (s, m) ∈ machine.emits S (.checkTimer c) ∧ m.type = .ping := by
  obtain ⟨calls, hcalls⟩ := h.checkCalls_eq hpings
  refine ⟨.ping ⟨c.pingNow, S.network.getMyNodeInfo,
    .ofList (S.network.peers.entries.map fun entry => entry.2.copy)⟩, ?_, rfl⟩
  rw [emits_eq]
  change _ ∈ ServerNetwork.machine.trace S.network (S.checkCalls c)
  rw [hcalls, Machine.trace_cons]
  exact List.mem_append_left _ (ServerNetwork.mem_sendMessageToEach haddr hset hs)

end RunningServer

end CppPaxos
