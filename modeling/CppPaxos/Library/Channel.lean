import CppPaxos.Library.Machine

/-!
# Channels that are opened on demand

A message for a closed channel asks for it to be opened, and is lost, whether or not that
succeeds. While the channel is open messages pass; it may be closed at any moment. So the
messages that are lost are as many as there are attempts to open it, and those that succeed
are told from the moments at which it is closed.
-/

namespace Machines

/-- What happens to a channel: a message for it, with the success of opening it if that is asked
for, or its end. -/
inductive ChannelEvent (Msg : Type*)
  | message (m : Msg) (success : Bool)
  | close

namespace ChannelEvent

variable {Msg : Type*}

/-- A channel is open or not; it emits the messages that pass. -/
def machine : Machine Bool (ChannelEvent Msg) Msg where
  step
    | true, message m _ => (true, [m])
    | false, message _ success => (success, [])
    | _, close => (false, [])

/-- The message of an event. -/
def message? : ChannelEvent Msg → Option Msg
  | message m _ => some m
  | close => none

/-- A message opens the channel. -/
def Opens : Bool → ChannelEvent Msg → Bool
  | false, message _ true => true
  | _, _ => false

/-- A message fails to open it. -/
def Fails : Bool → ChannelEvent Msg → Bool
  | false, message _ false => true
  | _, _ => false

/-- The channel is closed. -/
def Closes : Bool → ChannelEvent Msg → Bool
  | true, close => true
  | _, _ => false

/-- How often something happens in a run of the channel. -/
def count (P : Bool → ChannelEvent Msg → Bool) (isOpen : Bool) (events : List (ChannelEvent Msg)) :
    ℕ :=
  (machine.scripts (fun isOpen event => if P isOpen event then [()] else []) isOpen events).length

variable {P : Bool → ChannelEvent Msg → Bool} {isOpen : Bool} {event : ChannelEvent Msg}
  {events : List (ChannelEvent Msg)}

/-- The first event counts or not, and the others count from where it leads. -/
theorem count_cons (P : Bool → ChannelEvent Msg → Bool) (isOpen : Bool)
    (event : ChannelEvent Msg) (events : List (ChannelEvent Msg)) :
    count P isOpen (event :: events) =
      (P isOpen event).toNat + count P (machine.next isOpen event) events := by
  rw [count, Machine.scripts, List.length_append]
  cases P isOpen event <;> rfl

/-- A message passes, or fails to open the channel, or opens it. -/
theorem length_message (isOpen : Bool) (event : ChannelEvent Msg) :
    event.message?.toList.length =
      (machine.emits isOpen event).length + (Fails isOpen event).toNat +
        (Opens isOpen event).toNat := by
  cases event with
  | close => cases isOpen <;> rfl
  | message m success => cases isOpen <;> cases success <;> rfl

/-- Only closing ends what opening began. -/
theorem toNat_next (isOpen : Bool) (event : ChannelEvent Msg) :
    isOpen.toNat + (Opens isOpen event).toNat =
      (Closes isOpen event).toNat + (machine.next isOpen event).toNat := by
  cases event with
  | close => cases isOpen <;> rfl
  | message m success => cases isOpen <;> cases success <;> rfl

/-- **What is lost.** The messages that do not pass are as many as the attempts to open the
channel. -/
theorem length_messages (isOpen : Bool) (events : List (ChannelEvent Msg)) :
    (events.filterMap message?).length =
      (machine.trace isOpen events).length + count Fails isOpen events +
        count Opens isOpen events := by
  induction events generalizing isOpen with
  | nil => rfl
  | cons event events ih =>
    have hfirst := length_message isOpen event
    have hrest := ih (machine.next isOpen event)
    have hsplit : ((event :: events).filterMap message?).length =
        event.message?.toList.length + (events.filterMap message?).length := by
      rw [← List.length_append]
      cases event <;> rfl
    rw [hsplit, count_cons, count_cons, Machine.trace_cons, List.length_append]
    omega

/-- The channel was opened as often as it was closed, and once more if it is open. -/
theorem count_opens (isOpen : Bool) (events : List (ChannelEvent Msg)) :
    isOpen.toNat + count Opens isOpen events =
      count Closes isOpen events + (machine.run isOpen events).toNat := by
  induction events generalizing isOpen with
  | nil => exact (Nat.zero_add isOpen.toNat).symm
  | cons event events ih =>
    have hfirst := toNat_next isOpen event
    have hrest := ih (machine.next isOpen event)
    rw [count_cons, count_cons, Machine.run_cons]
    omega

end ChannelEvent

end Machines
