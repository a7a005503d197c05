import CppPaxos.NetworkSteps

/-!
# The two socket maps

`m_addr2socket` and `m_socket2addr` are written one after the other. If `Connect` returns
only sockets that are not stored, the two maps stay inverse to each other, and closing a
socket removes it from both.
-/

namespace CppPaxos

open Machines Tables

namespace ServerNetwork

/-- `Connect`, if it is called at all, returns null or a socket that is not stored. -/
def ConnectFresh (S : ServerNetwork) (addr : PeerAddr) (connect : SocketPtr) : Prop :=
  Map.get? S.addr2socket addr = none →
    connect = .null ∨ Map.get? S.socket2addr connect = none

instance (S : ServerNetwork) (addr : PeerAddr) (connect : SocketPtr) :
    Decidable (S.ConnectFresh addr connect) :=
  inferInstanceAs (Decidable (_ → _))

/-- The same at each `SendMessageToPeer` of a list. -/
def ConnectsFresh (S : ServerNetwork) (msg : Message) (connect : ℕ → SocketPtr) :
    List PeerAddr → Prop
  | [] => True
  | addr :: rest => S.ConnectFresh addr (connect 0) ∧
    (S.sendMessageToPeer msg addr (connect 0)).1.ConnectsFresh msg (fun i => connect (i + 1)) rest

instance decidableConnectsFresh (msg : Message) : ∀ (S : ServerNetwork) (connect : ℕ → SocketPtr)
    (addrs : List PeerAddr), Decidable (S.ConnectsFresh msg connect addrs)
  | _, _, [] => isTrue trivial
  | S, connect, addr :: rest =>
    have := decidableConnectsFresh msg (S.sendMessageToPeer msg addr (connect 0)).1
      (fun i => connect (i + 1)) rest
    inferInstanceAs (Decidable (_ ∧ _))

/-- Every `Connect` of a call returns null or a socket that is not stored then. -/
def FreshConnects (S : ServerNetwork) (call : NetworkCall) : Prop :=
  ∀ d ∈ S.sending call, d.start.ConnectsFresh d.msg d.connect d.addrs

instance (S : ServerNetwork) (call : NetworkCall) : Decidable (S.FreshConnects call) :=
  inferInstanceAs (Decidable (∀ d ∈ S.sending call, d.start.ConnectsFresh d.msg d.connect d.addrs))

/-- The two maps are inverse to each other, and no null pointer is stored. -/
structure SocketsInverse (S : ServerNetwork) : Prop where
  inverse : ∀ addr s, Map.get? S.addr2socket addr = some s ↔ Map.get? S.socket2addr s = some addr
  ne_null : ∀ addr s, Map.get? S.addr2socket addr = some s → s ≠ .null

/-- After `HandleClose` neither map has the socket, and both have every other entry they had. -/
structure Forgets (S T : ServerNetwork) (s : SocketPtr) : Prop where
  addr2socket : ∀ addr s', Map.get? T.addr2socket addr = some s' ↔
    Map.get? S.addr2socket addr = some s' ∧ s' ≠ s
  socket2addr : ∀ s' addr, Map.get? T.socket2addr s' = some addr ↔
    Map.get? S.socket2addr s' = some addr ∧ s' ≠ s

/-- It is a matter of the two maps. -/
theorem SocketsInverse.of_eq {S T : ServerNetwork} (h : S.SocketsInverse)
    (haddr : T.addr2socket = S.addr2socket) (hsocket : T.socket2addr = S.socket2addr) :
    T.SocketsInverse := by
  constructor
  · rw [haddr, hsocket]
    exact h.inverse
  · rw [haddr]
    exact h.ne_null

/-- A socket has one address. -/
theorem SocketsInverse.addr_unique {S : ServerNetwork} (h : S.SocketsInverse)
    {addr addr' : PeerAddr} {s : SocketPtr} (ha : Map.get? S.addr2socket addr = some s)
    (ha' : Map.get? S.addr2socket addr' = some s) : addr = addr' := by
  rw [h.inverse] at ha ha'
  exact Option.some.inj (ha.symm.trans ha')

/-- A new socket enters both maps, and a stored one is only used. -/
theorem SocketsInverse.sendMessageToPeer {S : ServerNetwork} (h : S.SocketsInverse)
    (msg : Message) {addr : PeerAddr} {connect : SocketPtr} (hfresh : S.ConnectFresh addr connect) :
    (S.sendMessageToPeer msg addr connect).1.SocketsInverse := by
  unfold ServerNetwork.sendMessageToPeer
  split
  · rename_i hnone
    by_cases hnull : connect = .null
    · rw [if_pos hnull]
      exact h
    · have hunused : Map.get? S.socket2addr connect = none := (hfresh hnone).resolve_left hnull
      rw [if_neg hnull]
      constructor
      · intro addr' s
        rw [Map.get?_assign, Map.get?_assign]
        by_cases haddr : addr = addr'
        · subst haddr
          rw [if_pos rfl]
          by_cases hs : connect = s
          · subst hs
            rw [if_pos rfl]
            simp
          · -- the address had no socket before, so no other socket has the address
            rw [if_neg hs, ← h.inverse, hnone]
            simp [hs]
        · rw [if_neg haddr]
          by_cases hs : connect = s
          · subst hs
            rw [if_pos rfl, h.inverse, hunused]
            simp [haddr]
          · rw [if_neg hs]
            exact h.inverse addr' s
      · intro addr' s hs
        rw [Map.get?_assign] at hs
        by_cases haddr : addr = addr'
        · rw [if_pos haddr, Option.some_inj] at hs
          rwa [← hs]
        · rw [if_neg haddr] at hs
          exact h.ne_null addr' s hs
  · exact h

/-- Sending to a list of addresses keeps it. -/
theorem SocketsInverse.sendMessageToEach {msg : Message} {addrs : List PeerAddr} :
    ∀ {S : ServerNetwork} {connect : ℕ → SocketPtr}, S.SocketsInverse →
      S.ConnectsFresh msg connect addrs →
      (S.sendMessageToEach msg connect addrs).1.SocketsInverse := by
  induction addrs with
  | nil => exact fun h _ => h
  | cons addr rest ih =>
    intro S connect h hfresh
    rw [sendMessageToEach_cons_fst]
    exact ih (h.sendMessageToPeer msg hfresh.1) hfresh.2

/-- Closing a socket removes it and its address, and nothing else. -/
theorem SocketsInverse.forgets {S : ServerNetwork} (h : S.SocketsInverse) (s : SocketPtr) :
    S.Forgets (S.handleClose s) s := by
  unfold handleClose
  split
  · rename_i addr hfound
    have hstored : Map.get? S.addr2socket addr = some s := (h.inverse addr s).mpr hfound
    constructor
    · intro addr' s'
      rw [Map.get?_erase]
      by_cases haddr : addr' = addr
      · subst haddr
        rw [if_pos rfl, hstored, Option.some_inj]
        simp [eq_comm]
      · rw [if_neg haddr]
        constructor
        · intro hs'
          refine ⟨hs', ?_⟩
          rintro rfl
          exact haddr (h.addr_unique hs' hstored)
        · exact And.left
    · intro s' addr'
      rw [Map.get?_erase]
      by_cases hs : s' = s
      · simp [hs]
      · simp [hs]
  · rename_i hnone
    constructor
    · intro addr s'
      refine ⟨fun hs' => ⟨hs', ?_⟩, And.left⟩
      rintro rfl
      rw [h.inverse, hnone] at hs'
      cases hs'
    · intro s' addr
      refine ⟨fun hs' => ⟨hs', ?_⟩, And.left⟩
      rintro rfl
      rw [hnone] at hs'
      cases hs'

/-- Closing a socket removes its entries from both maps. -/
theorem SocketsInverse.handleClose {S : ServerNetwork} (h : S.SocketsInverse) (s : SocketPtr) :
    (S.handleClose s).SocketsInverse := by
  have hforgets := h.forgets s
  constructor
  · intro addr s'
    rw [hforgets.addr2socket, hforgets.socket2addr, h.inverse]
  · intro addr s' hs'
    exact h.ne_null addr s' ((hforgets.addr2socket addr s').mp hs').1

/-- Every call keeps the maps inverse. -/
theorem SocketsInverse.next {S : ServerNetwork} (h : S.SocketsInverse) {call : NetworkCall}
    (hfresh : S.FreshConnects call) : (machine.next S call).SocketsInverse := by
  cases hsending : S.sending call with
  | some d =>
    have hstart : d.start.SocketsInverse := by
      rcases start_of_sending hsending with heq | heq
      · rwa [heq]
      · rw [heq]
        exact h.of_eq rfl rfl
    have hnext : machine.next S call = (d.start.sendMessageToEach d.msg d.connect d.addrs).1 := by
      rw [Machine.next, step_of_sending hsending]
    rw [hnext]
    exact hstart.sendMessageToEach (hfresh d hsending)
  | none =>
    by_cases hclose : ∃ s, call = .handleClose s
    · obtain ⟨s, rfl⟩ := hclose
      exact h.handleClose s
    · have hsame := sameSockets_of_silent hsending fun s hs => hclose ⟨s, hs⟩
      exact h.of_eq hsame.addr2socket hsame.socket2addr

/-- The maps of every reachable state are inverse. -/
theorem socketsInverse_of_fresh {myid : Str} {quorumSize : ℕ} {localIP : UInt32}
    {localPort : UInt16} {socketType : SocketType} {calls : List NetworkCall}
    (h : machine.Admits FreshConnects (new myid quorumSize localIP localPort socketType) calls) :
    (machine.run (new myid quorumSize localIP localPort socketType) calls).SocketsInverse := by
  have hnew : (new myid quorumSize localIP localPort socketType).SocketsInverse := by
    constructor <;> intro addr s
    · simp [new]
    · intro hs
      simp [new] at hs
  exact h.invariant hnew fun _ _ hI hfresh => hI.next hfresh

/-- **The two socket maps are inverse.** In every run of the server in which `Connect` returns only
null or sockets that are not stored, the two maps are inverse to each other and hold no null
pointer at every moment, and `HandleClose` removes its socket from both and nothing else. -/
theorem socketMaps_inverse {myid : Str} {quorumSize : ℕ} {localIP : UInt32}
    {localPort : UInt16} {socketType : SocketType} {calls : List NetworkCall}
    (hfresh :
      machine.Admits FreshConnects (new myid quorumSize localIP localPort socketType) calls) :
    let S := machine.run (new myid quorumSize localIP localPort socketType) calls
    S.SocketsInverse ∧ ∀ s, S.Forgets (S.handleClose s) s := by
  have hinverse := socketsInverse_of_fresh hfresh
  exact ⟨hinverse, hinverse.forgets⟩

/-- Two addresses get sockets, one of them is closed, and its pointer is used again for a third
address. -/
theorem socketMaps_inverse_reused_pointer :
    let msg : Message := .pong ⟨0, ⟨[97], ⟨1, 1, .tcp⟩, 0⟩⟩
    let S := machine.run (new [97] 2 1 1 .tcp)
      [.sendMessageToPeer msg ⟨2, 1, .tcp⟩ 7, .sendMessageToPeer msg ⟨3, 1, .tcp⟩ 8,
        .handleClose 7, .sendMessageToPeer msg ⟨3, 1, .udp⟩ 7]
    Map.get? S.socket2addr 7 = some ⟨3, 1, .udp⟩ ∧ S.SocketsInverse ∧
      ∀ s, S.Forgets (S.handleClose s) s :=
  ⟨by decide, socketMaps_inverse (by decide)⟩

end ServerNetwork

end CppPaxos
