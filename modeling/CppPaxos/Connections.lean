import CppPaxos.Library.Channel
import CppPaxos.QuorumSends

/-!
# What connections cost

For each address, the two socket maps are a channel that is opened on demand: the message that
asks for a connection is lost. The channels to different addresses do not influence each other,
although one call may send to many. So the messages that get lost can be counted.
-/

namespace CppPaxos

open Machines Tables

/-- The socket that a call closes. -/
def NetworkCall.closed : NetworkCall → Option SocketPtr
  | .handleClose s => some s
  | _ => none

namespace ServerNetwork

/-- There is a socket for the address. -/
def connected (addr : PeerAddr) (S : ServerNetwork) : Bool :=
  (Map.get? S.addr2socket addr).isSome

/-- What sending a message to a list of addresses is for the channel to one of them. -/
def messageEvents (addr : PeerAddr) (msg : Message) :
    (ℕ → SocketPtr) → List PeerAddr → List (ChannelEvent Message)
  | _, [] => []
  | connect, addr' :: rest =>
    (if addr' = addr then [.message msg (connect 0 ≠ .null)] else []) ++
      messageEvents addr msg (fun i => connect (i + 1)) rest

/-- What a call is for the channel to an address. -/
def channelEvents (addr : PeerAddr) (S : ServerNetwork) (call : NetworkCall) :
    List (ChannelEvent Message) :=
  match S.sending call with
  | some d => messageEvents addr d.msg d.connect d.addrs
  | none => if ∃ s ∈ call.closed, Map.get? S.socket2addr s = some addr then [.close] else []

/-- The messages that the calls of `SendMessageToPeer` in a call hand to the socket for an address.
The pong of `HandlePingMessage` goes back to where the ping came from. -/
def handed (addr : PeerAddr) (S : ServerNetwork) (call : NetworkCall) : List Message :=
  if (S.sending call).isSome then
    ((machine.emits S call).filter fun packet =>
      Map.get? (machine.next S call).addr2socket addr = some packet.1).map Prod.snd
  else []

variable {S : ServerNetwork} {addr : PeerAddr}

/-- A call that sends brings the messages for the address to the channel. -/
theorem channelEvents_of_sending {call : NetworkCall} {d : Sending} (h : d ∈ S.sending call) :
    channelEvents addr S call = messageEvents addr d.msg d.connect d.addrs := by
  rw [channelEvents, Option.mem_def.mp h]

/-- Any other call brings nothing to it but the end of its connection. -/
theorem channelEvents_of_silent {call : NetworkCall} (h : S.sending call = none) :
    channelEvents addr S call =
      if ∃ s ∈ call.closed, Map.get? S.socket2addr s = some addr then [.close] else [] := by
  rw [channelEvents, h]

/-- What a call that sends hands to the socket for the address. -/
theorem handed_of_sending {call : NetworkCall} {d : Sending} (h : d ∈ S.sending call) :
    S.handed addr call = ((machine.emits S call).filter fun packet =>
      Map.get? (machine.next S call).addr2socket addr = some packet.1).map Prod.snd :=
  if_pos (by rw [Option.mem_def.mp h]; rfl)

/-- A call that does not send hands nothing to it. -/
theorem handed_of_silent {call : NetworkCall} (h : S.sending call = none) :
    S.handed addr call = [] :=
  if_neg (by simp [h])

/-- Whether there is a connection is a matter of the sockets only. -/
theorem connected_of_eq {T : ServerNetwork} (h : T.addr2socket = S.addr2socket) :
    T.connected addr = S.connected addr := by
  rw [connected, connected, h]

/-- `SendMessageToPeer` opens the channel to its address if that is closed, and no other. -/
theorem connected_sendMessageToPeer (S : ServerNetwork) (msg : Message) (addr' : PeerAddr)
    (connect : SocketPtr) :
    (S.sendMessageToPeer msg addr' connect).1.connected addr =
      ChannelEvent.machine.run (S.connected addr)
        (if addr' = addr then [.message msg (connect ≠ .null)] else []) := by
  by_cases haddr : addr' = addr
  · subst haddr
    rw [if_pos rfl, connected, connected, sendMessageToPeer]
    cases hfound : Map.get? S.addr2socket addr' with
    | none =>
      by_cases hnull : connect = .null
      · simp [hnull, hfound, Machine.run, Machine.next, ChannelEvent.machine]
      · simp [hnull, Map.get?_assign, Machine.run, Machine.next, ChannelEvent.machine]
    | some s => simp [hfound, Machine.run, Machine.next, ChannelEvent.machine]
  · rw [if_neg haddr, connected, get?_sendMessageToPeer_of_ne msg connect haddr]
    rfl

/-- Sending to a list of addresses opens connections as the channel does. -/
theorem connected_sendMessageToEach (msg : Message) {addrs : List PeerAddr} :
    ∀ (S : ServerNetwork) (connect : ℕ → SocketPtr),
      (S.sendMessageToEach msg connect addrs).1.connected addr =
        ChannelEvent.machine.run (S.connected addr) (messageEvents addr msg connect addrs) := by
  induction addrs with
  | nil => exact fun _ _ => rfl
  | cons addr' rest ih =>
    intro S connect
    rw [sendMessageToEach_cons_fst, ih, connected_sendMessageToPeer, messageEvents,
      Machine.run_append]

/-- Closing the socket for the address closes the channel. -/
theorem connected_handleClose (S : ServerNetwork) (s : SocketPtr) :
    (S.handleClose s).connected addr = ChannelEvent.machine.run (S.connected addr)
      (if ∃ s' ∈ some s, Map.get? S.socket2addr s' = some addr then
        [(.close : ChannelEvent Message)] else []) := by
  simp only [Option.mem_some_iff, exists_eq_left', handleClose]
  cases hfound : Map.get? S.socket2addr s with
  | none => simp
  | some addr' =>
    by_cases haddr : addr' = addr
    · subst haddr
      cases hopen : S.connected addr' <;>
        simp [connected, Map.get?_erase, Machine.next, ChannelEvent.machine]
    · simp [connected, Map.get?_erase, haddr, Ne.symm haddr]

/-- Every call does to the channel what its events do. -/
theorem connected_next (S : ServerNetwork) (call : NetworkCall) :
    (machine.next S call).connected addr =
      ChannelEvent.machine.run (S.connected addr) (channelEvents addr S call) := by
  cases hsending : S.sending call with
  | some d =>
    rw [channelEvents_of_sending hsending, Machine.next, step_of_sending hsending,
      connected_sendMessageToEach, connected_of_eq (sockets_of_sending hsending).1]
  | none =>
    rw [channelEvents_of_silent hsending]
    by_cases hclose : ∃ s, call = .handleClose s
    · obtain ⟨s, rfl⟩ := hclose
      exact S.connected_handleClose s
    · have hclosed : call.closed = none := by
        cases call with
        | handleClose s => exact absurd ⟨s, rfl⟩ hclose
        | _ => rfl
      rw [connected_of_eq (sameSockets_of_silent hsending fun s hs => hclose ⟨s, hs⟩).addr2socket,
        hclosed, if_neg (by simp)]
      rfl

/-- With inverse maps, a message goes to the socket of its own address, if that is open. -/
theorem handed_sendMessageToPeer {T : ServerNetwork} (hinverse : S.SocketsInverse)
    (hT : T.SocketsInverse) (hkept : ∀ addr s, Map.get? S.addr2socket addr = some s →
      Map.get? T.addr2socket addr = some s) (msg : Message) (addr' : PeerAddr)
    (connect : SocketPtr) :
    ((S.sendMessageToPeer msg addr' connect).2.filter fun packet =>
        Map.get? T.addr2socket addr = some packet.1).map Prod.snd =
      ChannelEvent.machine.trace (S.connected addr)
        (if addr' = addr then [.message msg (connect ≠ .null)] else []) := by
  rw [sendMessageToPeer_snd msg hinverse.ne_null]
  cases hfound : Map.get? S.addr2socket addr' with
  | none =>
    by_cases haddr : addr' = addr
    · subst haddr
      simp [connected, hfound, Machine.emits, ChannelEvent.machine]
    · simp [haddr]
  | some s =>
    have hs := hkept addr' s hfound
    by_cases haddr : addr' = addr
    · subst haddr
      simp [connected, hfound, hs, Machine.emits, ChannelEvent.machine]
    · have hother : Map.get? T.addr2socket addr ≠ some s := fun h => haddr (hT.addr_unique hs h)
      simp [haddr, hother]

/-- Sending to a list of addresses hands over what the channel lets through. -/
theorem handed_sendMessageToEach {msg : Message} {addrs : List PeerAddr} {T : ServerNetwork} :
    ∀ {S : ServerNetwork} {connect : ℕ → SocketPtr}, S.SocketsInverse →
      S.ConnectsFresh msg connect addrs → T = (S.sendMessageToEach msg connect addrs).1 →
      ((S.sendMessageToEach msg connect addrs).2.filter fun packet =>
          Map.get? T.addr2socket addr = some packet.1).map Prod.snd =
        ChannelEvent.machine.trace (S.connected addr) (messageEvents addr msg connect addrs) := by
  induction addrs with
  | nil => exact fun _ _ _ => rfl
  | cons addr' rest ih =>
    intro S connect hinverse hfresh hT
    have hnext := hinverse.sendMessageToPeer msg hfresh.1
    have hkept : ∀ addr s, Map.get? S.addr2socket addr = some s →
        Map.get? T.addr2socket addr = some s := by
      intro addr s hs
      rw [hT, get?_sendMessageToEach_of_isSome msg _ connect (by rw [hs]; rfl), hs]
    have hTinverse : T.SocketsInverse := hT ▸ hinverse.sendMessageToEach hfresh
    rw [sendMessageToEach_cons_snd, List.filter_append, List.map_append, messageEvents,
      Machine.trace_append, ← connected_sendMessageToPeer, ih hnext hfresh.2 hT,
      handed_sendMessageToPeer hinverse hTinverse hkept]

/-- The messages of a call for an address are those that pass the channel. -/
theorem handed_eq (h : S.SocketsInverse) {call : NetworkCall} (hfresh : S.FreshConnects call) :
    S.handed addr call =
      ChannelEvent.machine.trace (S.connected addr) (channelEvents addr S call) := by
  cases hsending : S.sending call with
  | some d =>
    have hstart := sockets_of_sending hsending
    rw [handed_of_sending hsending, channelEvents_of_sending hsending, Machine.emits, Machine.next,
      step_of_sending hsending,
      handed_sendMessageToEach (h.of_eq hstart.1 hstart.2) (hfresh d hsending) rfl,
      connected_of_eq hstart.1]
  | none =>
    rw [handed_of_silent hsending, channelEvents_of_silent hsending]
    cases S.connected addr <;> split <;> rfl

/-- The same in a run. -/
theorem handed_run {calls : List NetworkCall} (h : S.SocketsInverse)
    (hfresh : machine.Admits FreshConnects S calls) :
    machine.scripts (handed addr) S calls =
      ChannelEvent.machine.trace (S.connected addr)
        (machine.scripts (channelEvents addr) S calls) := by
  induction calls generalizing S with
  | nil => rfl
  | cons call calls ih =>
    rw [Machine.scripts, Machine.scripts, Machine.trace_append, ← connected_next,
      handed_eq h hfresh.1, ih (h.next hfresh.1) hfresh.2]

/-- Five messages to one address. The connection is closed after the second one, and cannot be
opened for the third one. -/
def reconnects : List NetworkCall :=
  let message (n : UInt64) (connect : SocketPtr) : NetworkCall :=
    .sendMessageToPeer (.pong ⟨n, ⟨[97], ⟨1, 1, .tcp⟩, 0⟩⟩) ⟨2, 1, .tcp⟩ connect
  [message 1 7, message 2 0, .handleClose 7, message 3 0, message 4 8, message 5 0]

/-- **What gets lost.** In every run of a new server in which `Connect` returns only null or sockets
that are not stored, the messages that `SendMessageToPeer` hands to the socket for an address are
those that find the connection to it open, in their order. All others are as many as the calls of
`Connect` for the address; and those that succeed are as many as the times the connection is
closed, and one more if it is open at the end. -/
theorem messages_accounted {myid : Str} {quorumSize : ℕ} {localIP : UInt32} {localPort : UInt16}
    {socketType : SocketType} {calls : List NetworkCall}
    (hfresh :
      machine.Admits FreshConnects (new myid quorumSize localIP localPort socketType) calls)
    (addr : PeerAddr) :
    let S := new myid quorumSize localIP localPort socketType
    let events := machine.scripts (channelEvents addr) S calls
    machine.scripts (handed addr) S calls = ChannelEvent.machine.trace false events ∧
      (events.filterMap ChannelEvent.message?).length =
        (machine.scripts (handed addr) S calls).length +
          ChannelEvent.count ChannelEvent.Fails false events +
            ChannelEvent.count ChannelEvent.Opens false events ∧
      ChannelEvent.count ChannelEvent.Opens false events =
        ChannelEvent.count ChannelEvent.Closes false events +
          ((machine.run S calls).connected addr).toNat := by
  intro S events
  have hinverse : S.SocketsInverse := socketsInverse_of_fresh (machine.admits_nil _ S)
  have hclosed : S.connected addr = false := rfl
  have hhanded : machine.scripts (handed addr) S calls =
      ChannelEvent.machine.trace (S.connected addr) events := handed_run hinverse hfresh
  have hrun : (machine.run S calls).connected addr = ChannelEvent.machine.run false events :=
    Machine.run_scripts (connected addr) connected_next S calls
  have hopened := ChannelEvent.count_opens false events
  rw [hclosed] at hhanded
  rw [hhanded, hrun]
  refine ⟨rfl, ChannelEvent.length_messages false events, ?_⟩
  rwa [Bool.toNat_false, Nat.zero_add] at hopened

/-- The second message and the last one are sent. -/
theorem messages_accounted_reconnects :
    let S := new [97] 2 1 1 .tcp
    let events := machine.scripts (channelEvents ⟨2, 1, .tcp⟩) S reconnects
    (machine.scripts (handed ⟨2, 1, .tcp⟩) S reconnects).length = 2 ∧
      machine.scripts (handed ⟨2, 1, .tcp⟩) S reconnects =
        ChannelEvent.machine.trace false events ∧
      (events.filterMap ChannelEvent.message?).length =
        (machine.scripts (handed ⟨2, 1, .tcp⟩) S reconnects).length +
          ChannelEvent.count ChannelEvent.Fails false events +
            ChannelEvent.count ChannelEvent.Opens false events ∧
      ChannelEvent.count ChannelEvent.Opens false events =
        ChannelEvent.count ChannelEvent.Closes false events +
          ((machine.run S reconnects).connected ⟨2, 1, .tcp⟩).toNat :=
  ⟨by decide, messages_accounted (by decide) ⟨2, 1, .tcp⟩⟩

end ServerNetwork

end CppPaxos
