import CppPaxos.Library.Machine
import Mathlib.Data.List.Basic
import Mathlib.Algebra.Order.Group.Nat

/-!
# Receiving a stream in frames

A receiver keeps the items that have arrived, calls a handler on them, and drops as many as
the handler's result says. A proper result is zero, and then nothing was dispatched, or it
counts the items of one frame, from which one message was dispatched. If all calls are
proper, the frames are consecutive parts of the stream, and there are only so many of them.
-/

namespace Framing

open Machines

variable {σ ε α μ : Type*}

/-- A handler: from its state, something outside and the items in the buffer to the state after
the call, its result and what it dispatched. `none` stands for a call that does not return. -/
abbrev Handler (σ ε α μ : Type*) := σ → ε → List α → Option (σ × Int × List μ)

/-- Zero items stand for no message, and at least `m` items of the buffer for exactly one. -/
structure Proper (m size : ℕ) (ret : Int) (dispatched : List μ) : Prop where
  waits : ret = 0 → dispatched = []
  handles : 0 < ret → dispatched.length = 1 ∧ (m : Int) ≤ ret ∧ ret ≤ size

/-- A call that fails dispatches nothing. -/
def FailsSilently (handle : Handler σ ε α μ) : Prop :=
  ∀ s e buffer s' ret dispatched, handle s e buffer = some (s', ret, dispatched) →
    ret < 0 → dispatched = []

/-- The handler's state, and what has arrived and was not dropped yet. -/
structure Receiver (σ α : Type*) where
  state : σ
  buffer : List α

/-- More items arrive, or the handler is called. -/
inductive Event (ε α : Type*)
  | arrive (items : List α)
  | handle (e : ε)

/-- What one call has dropped and dispatched. -/
structure Frame (α μ : Type*) where
  items : List α
  messages : List μ

/-- A receive loop, in any interleaving of arrivals and calls. -/
def receiver (handle : Handler σ ε α μ) : Machine (Receiver σ α) (Event ε α) (Frame α μ) where
  step R
    | .arrive items => ({ R with buffer := R.buffer ++ items }, [])
    | .handle e =>
      match handle R.state e R.buffer with
      | some (s, ret, dispatched) =>
        (⟨s, R.buffer.drop ret.toNat⟩, [⟨R.buffer.take ret.toNat, dispatched⟩])
      | none => (R, [])

/-- Everything that arrives in a run. -/
def arrived (events : List (Event ε α)) : List α :=
  events.flatMap fun
    | .arrive items => items
    | .handle _ => []

/-- The call of the handler has a proper result. -/
def CallsProperly (handle : Handler σ ε α μ) (m : ℕ) (R : Receiver σ α) : Event ε α → Prop
  | .arrive _ => True
  | .handle e => ∀ s ret dispatched, handle R.state e R.buffer = some (s, ret, dispatched) →
    Proper m R.buffer.length ret dispatched

variable {handle : Handler σ ε α μ}

/-- The step that a call takes. -/
theorem step_handle {R : Receiver σ α} {e : ε} {s : σ} {ret : Int} {dispatched : List μ}
    (h : handle R.state e R.buffer = some (s, ret, dispatched)) :
    (receiver handle).step R (.handle e) =
      (⟨s, R.buffer.drop ret.toNat⟩, [⟨R.buffer.take ret.toNat, dispatched⟩]) := by
  simp only [receiver, h]

/-- One event neither loses nor repeats an item. -/
theorem frames_append_next (handle : Handler σ ε α μ) (R : Receiver σ α) (event : Event ε α) :
    ((receiver handle).emits R event).flatMap Frame.items ++
        ((receiver handle).next R event).buffer =
      R.buffer ++ arrived [event] := by
  cases event with
  | arrive items =>
    change [] ++ (R.buffer ++ items) = R.buffer ++ (items ++ [])
    rw [List.nil_append, List.append_nil]
  | handle e =>
    change _ = R.buffer ++ []
    rw [List.append_nil]
    cases hcall : handle R.state e R.buffer with
    | none => simp [Machine.emits, Machine.next, receiver, hcall]
    | some result =>
      obtain ⟨s, ret, dispatched⟩ := result
      rw [Machine.emits, Machine.next, step_handle hcall]
      simp

/-- **Nothing is lost or repeated.** The frames that were dropped and the buffer make up what has
arrived. -/
theorem frames_append_buffer (handle : Handler σ ε α μ) (R : Receiver σ α)
    (events : List (Event ε α)) :
    ((receiver handle).trace R events).flatMap Frame.items ++
        ((receiver handle).run R events).buffer =
      R.buffer ++ arrived events := by
  induction events using List.reverseRecOn with
  | nil => simp [arrived]
  | append_singleton events event ih =>
    have hone := frames_append_next handle ((receiver handle).run R events) event
    have harrived : arrived (events ++ [event]) = arrived events ++ arrived [event] :=
      List.flatMap_append
    rw [Machine.trace_concat, Machine.run_concat, List.flatMap_append, List.append_assoc, hone,
      ← List.append_assoc, ih, harrived, List.append_assoc]

/-- A frame without items has no message, and any other frame has one message and at least `m`
items. -/
def Frame.Holds (m : ℕ) (f : Frame α μ) : Prop :=
  f.items = [] ∧ f.messages = [] ∨ f.messages.length = 1 ∧ m ≤ f.items.length

/-- A proper call makes such a frame. -/
theorem frame_holds {m : ℕ} (hsilent : FailsSilently handle) {R : Receiver σ α}
    {event : Event ε α} (h : CallsProperly handle m R event) :
    ∀ f ∈ (receiver handle).emits R event, f.Holds m := by
  cases event with
  | arrive items => exact fun f hf => absurd hf List.not_mem_nil
  | handle e =>
    intro f hf
    cases hcall : handle R.state e R.buffer with
    | none => simp [Machine.emits, receiver, hcall] at hf
    | some result =>
      obtain ⟨s, ret, dispatched⟩ := result
      rw [Machine.emits, step_handle hcall, List.mem_singleton] at hf
      obtain ⟨hwaits, hhandles⟩ := h s ret dispatched hcall
      subst hf
      rcases lt_trichotomy ret 0 with hneg | rfl | hpos
      · have hnone : ret.toNat = 0 := Int.toNat_of_nonpos hneg.le
        left
        exact ⟨by rw [hnone]; rfl, hsilent _ _ _ _ _ _ hcall hneg⟩
      · exact Or.inl ⟨rfl, hwaits rfl⟩
      · obtain ⟨hone, hleast, hmost⟩ := hhandles hpos
        refine Or.inr ⟨hone, ?_⟩
        rw [List.length_take]
        omega

/-- What a receiver of a stream does: the frames are consecutive parts of what has arrived, each of
them stands for one message or for none, and there is a message for every `m` items at most. -/
structure Receives (handle : Handler σ ε α μ) (m : ℕ) (R : Receiver σ α)
    (events : List (Event ε α)) : Prop where
  stream : ((receiver handle).trace R events).flatMap Frame.items ++
    ((receiver handle).run R events).buffer = R.buffer ++ arrived events
  once : ∀ f ∈ (receiver handle).trace R events, f.Holds m
  bounded : m * (((receiver handle).trace R events).flatMap Frame.messages).length ≤
    (R.buffer ++ arrived events).length

/-- As many messages as there are times `m` items, at most. -/
theorem mul_messages_le {m : ℕ} {frames : List (Frame α μ)} (h : ∀ f ∈ frames, f.Holds m) :
    m * (frames.flatMap Frame.messages).length ≤ (frames.flatMap Frame.items).length := by
  induction frames with
  | nil => exact Nat.zero_le _
  | cons f frames ih =>
    obtain ⟨hf, hrest⟩ := List.forall_mem_cons.mp h
    have hle := ih hrest
    rw [List.flatMap_cons, List.flatMap_cons, List.length_append, List.length_append, Nat.mul_add]
    rcases hf with ⟨-, hnone⟩ | ⟨hone, hleast⟩
    · rw [hnone, List.length_nil, Nat.mul_zero]
      omega
    · rw [hone, Nat.mul_one]
      omega

/-- **Rule for receivers.** If all calls of a run are proper, the stream is received in frames. -/
theorem receives_of_proper {m : ℕ} (hsilent : FailsSilently handle) {R : Receiver σ α}
    {events : List (Event ε α)}
    (h : (receiver handle).Admits (CallsProperly handle m) R events) :
    Receives handle m R events := by
  have hframes : ∀ f ∈ (receiver handle).trace R events, f.Holds m :=
    (h.emits_only (I := fun _ => True) trivial fun _ _ _ hcall =>
      ⟨trivial, frame_holds hsilent hcall⟩).2
  have hstream := frames_append_buffer handle R events
  refine ⟨hstream, hframes, (mul_messages_le hframes).trans ?_⟩
  rw [← hstream, List.length_append]
  exact Nat.le_add_right _ _

/-! ### Streams of encoded messages -/

section Streams

variable {ν : Type*}

/-- The contexts of the calls in a run. -/
def calls (events : List (Event ε α)) : List ε :=
  events.filterMap fun
    | .arrive _ => none
    | .handle e => some e

/-- New items come after those that have arrived. -/
@[simp] theorem arrived_concat_arrive (events : List (Event ε α)) (items : List α) :
    arrived (events ++ [.arrive items]) = arrived events ++ items := by
  simp [arrived]

/-- A call of the handler lets nothing arrive. -/
@[simp] theorem arrived_concat_handle (events : List (Event ε α)) (e : ε) :
    arrived (events ++ [.handle e]) = arrived events := by
  simp [arrived]

/-- An arrival is no call of the handler. -/
@[simp] theorem calls_concat_arrive (events : List (Event ε α)) (items : List α) :
    calls (events ++ [.arrive items]) = calls events := by
  simp [calls]

/-- A call of the handler comes after those before it. -/
@[simp] theorem calls_concat_handle (events : List (Event ε α)) (e : ε) :
    calls (events ++ [.handle e]) = calls events ++ [e] := by
  simp [calls]

/-- A handler reads the code of a message: it takes exactly the code from the front of the buffer,
dispatches what it has read and changes its state by it, and it waits while only a part of the code
has arrived. -/
structure Reads (handle : Handler σ ε α μ) (encode : ν → List α) (read : ν → μ)
    (deliver : σ → ε → ν → σ) (m : ν) : Prop where
  whole : ∀ s e rest,
    handle s e (encode m ++ rest) = some (deliver s e m, ((encode m).length : Int), [read m])
  part : ∀ s e buffer, buffer <+: encode m → buffer ≠ encode m →
    handle s e buffer = some (s, 0, [])

/-- After a run from the state `s` the messages `done` have been received, in this order, by the
calls with the contexts `used`, and the rest of what has arrived is in the buffer. -/
structure Received (handle : Handler σ ε α μ) (encode : ν → List α) (read : ν → μ)
    (deliver : σ → ε → ν → σ) (s : σ) (events : List (Event ε α)) (used : List ε)
    (done : List ν) : Prop where
  used_sublist : used.Sublist (calls events)
  length_eq : used.length = done.length
  messages : ((receiver handle).trace ⟨s, []⟩ events).flatMap Frame.messages = done.map read
  state : ((receiver handle).run ⟨s, []⟩ events).state =
    (used.zip done).foldl (fun s call => deliver s call.1 call.2) s
  buffer : done.flatMap encode ++ ((receiver handle).run ⟨s, []⟩ events).buffer = arrived events

variable {encode : ν → List α} {read : ν → μ} {deliver : σ → ε → ν → σ} {s : σ}
  {events : List (Event ε α)} {used : List ε} {done : List ν} {m : ν} {todo : List ν}

/-- Before all events nothing has been received. -/
theorem Received.nil : Received handle encode read deliver s [] [] [] :=
  ⟨List.Sublist.refl _, rfl, rfl, rfl, rfl⟩

/-- Arrivals leave what has been received. -/
theorem Received.arrive (h : Received handle encode read deliver s events used done)
    (items : List α) :
    Received handle encode read deliver s (events ++ [.arrive items]) used done := by
  refine ⟨?_, h.length_eq, ?_, ?_, ?_⟩
  · rw [calls_concat_arrive]
    exact h.used_sublist
  · rw [Machine.trace_concat, List.flatMap_append, h.messages]
    exact List.append_nil _
  · rw [Machine.run_concat]
    exact h.state
  · rw [Machine.run_concat, arrived_concat_arrive, ← h.buffer, List.append_assoc]
    rfl

/-- A call with the whole code of the next message in front receives this message. -/
theorem Received.whole (h : Received handle encode read deliver s events used done)
    (hm : Reads handle encode read deliver m) {rest : List α}
    (hbuffer : ((receiver handle).run ⟨s, []⟩ events).buffer = encode m ++ rest) (e : ε) :
    Received handle encode read deliver s (events ++ [.handle e]) (used ++ [e])
      (done ++ [m]) := by
  have hcall := hm.whole ((receiver handle).run ⟨s, []⟩ events).state e rest
  rw [← hbuffer] at hcall
  have hstep := step_handle hcall
  refine ⟨?_, ?_, ?_, ?_, ?_⟩
  · rw [calls_concat_handle]
    exact h.used_sublist.append_right [e]
  · rw [List.length_append, List.length_append, h.length_eq]
    rfl
  · rw [Machine.trace_concat, List.flatMap_append, h.messages, List.map_append, Machine.emits,
      hstep]
    rfl
  · rw [Machine.run_concat, Machine.next, hstep, List.zip_append h.length_eq, List.foldl_append,
      ← h.state]
    rfl
  · have hdrop : (encode m ++ rest).drop ((encode m).length : Int).toNat = rest := by
      rw [Int.toNat_natCast, List.drop_left]
    rw [Machine.run_concat, Machine.next, hstep, hbuffer, hdrop, arrived_concat_handle, ← h.buffer,
      hbuffer, List.flatMap_append, List.flatMap_singleton, List.append_assoc]

/-- A call that finds less than a message in the buffer receives nothing. -/
theorem Received.part (h : Received handle encode read deliver s events used done) {e : ε}
    (hcall : handle ((receiver handle).run ⟨s, []⟩ events).state e
      ((receiver handle).run ⟨s, []⟩ events).buffer =
        some (((receiver handle).run ⟨s, []⟩ events).state, 0, [])) :
    Received handle encode read deliver s (events ++ [.handle e]) used done := by
  have hstep := step_handle hcall
  refine ⟨?_, h.length_eq, ?_, ?_, ?_⟩
  · rw [calls_concat_handle]
    exact h.used_sublist.trans (List.sublist_append_left _ _)
  · rw [Machine.trace_concat, List.flatMap_append, h.messages, Machine.emits, hstep]
    exact List.append_nil _
  · rw [Machine.run_concat, Machine.next, hstep]
    exact h.state
  · rw [Machine.run_concat, Machine.next, hstep, arrived_concat_handle]
    exact h.buffer

/-- The buffer holds a part of the code of what is still to be received. -/
theorem Received.buffer_prefix (h : Received handle encode read deliver s events used done)
    (harrived : arrived events <+: (done ++ todo).flatMap encode) :
    ((receiver handle).run ⟨s, []⟩ events).buffer <+: todo.flatMap encode := by
  rw [← h.buffer, List.flatMap_append] at harrived
  exact (List.prefix_append_right_inj _).mp harrived

/-- **A stream of messages.** However the code of some messages is cut into pieces that arrive, and
whenever the handler is called: it has received the first of these messages, each once and in
order. -/
theorem received_of_arrived {ms : List ν} (hm : ∀ m ∈ ms, Reads handle encode read deliver m)
    (hnil : ∀ s e, handle s e [] = some (s, 0, []))
    (harrived : arrived events <+: ms.flatMap encode) :
    ∃ used done todo, ms = done ++ todo ∧
      Received handle encode read deliver s events used done := by
  induction events using List.reverseRecOn with
  | nil => exact ⟨[], [], ms, rfl, .nil⟩
  | append_singleton events event ih =>
    cases event with
    | arrive items =>
      rw [arrived_concat_arrive] at harrived
      obtain ⟨used, done, todo, hms, h⟩ := ih ((List.prefix_append _ _).trans harrived)
      exact ⟨used, done, todo, hms, h.arrive items⟩
    | handle e =>
      rw [arrived_concat_handle] at harrived
      obtain ⟨used, done, todo, rfl, h⟩ := ih harrived
      have hfront := h.buffer_prefix harrived
      cases todo with
      | nil =>
        rw [List.flatMap_nil, List.prefix_nil] at hfront
        exact ⟨used, done, [], rfl, h.part (by rw [hfront]; exact hnil _ _)⟩
      | cons m todo =>
        have hread := hm m (List.mem_append_right _ List.mem_cons_self)
        rw [List.flatMap_cons] at hfront
        by_cases hwhole : encode m <+: ((receiver handle).run ⟨s, []⟩ events).buffer
        · obtain ⟨rest, hbuffer⟩ := hwhole
          exact ⟨used ++ [e], done ++ [m], todo, by simp, h.whole hread hbuffer.symm e⟩
        · rcases List.prefix_or_prefix_of_prefix hfront (List.prefix_append _ _) with hpart | habs
          · have hne : ((receiver handle).run ⟨s, []⟩ events).buffer ≠ encode m := fun heq =>
              hwhole (by rw [heq])
            exact ⟨used, done, m :: todo, rfl, h.part (hread.part _ e _ hpart hne)⟩
          · exact absurd habs hwhole

/-- Once everything has arrived, each call receives a message until none is left. -/
theorem Received.all {ms : List ν} (hm : ∀ m ∈ ms, Reads handle encode read deliver m)
    (hnil : ∀ s e, handle s e [] = some (s, 0, [])) {more : List ε} :
    ∀ {events used done todo}, Received handle encode read deliver s events used done →
      ms = done ++ todo → arrived events = ms.flatMap encode → todo.length ≤ more.length →
        ∃ used, Received handle encode read deliver s (events ++ more.map .handle) used ms := by
  induction more with
  | nil =>
    intro events used done todo h hms _ hlength
    rw [List.length_eq_zero_iff.mp (Nat.le_zero.mp hlength), List.append_nil] at hms
    rw [hms]
    exact ⟨used, by simpa using h⟩
  | cons e more ih =>
    intro events used done todo h hms harrived hlength
    have hsplit : events ++ (e :: more).map Event.handle =
        (events ++ [.handle e]) ++ more.map .handle := by simp
    have hbuffer : ((receiver handle).run ⟨s, []⟩ events).buffer = todo.flatMap encode := by
      have hall := h.buffer
      rw [harrived, hms, List.flatMap_append] at hall
      exact List.append_cancel_left hall
    rw [hsplit]
    rw [← arrived_concat_handle events e] at harrived
    cases todo with
    | nil =>
      rw [List.flatMap_nil] at hbuffer
      exact ih (h.part (by rw [hbuffer]; exact hnil _ _)) hms harrived (Nat.zero_le _)
    | cons m todo =>
      have hread := hm m (by rw [hms]; exact List.mem_append_right _ List.mem_cons_self)
      rw [List.flatMap_cons] at hbuffer
      refine ih (h.whole hread hbuffer e) (List.append_cons done m todo ▸ hms) harrived ?_
      rw [List.length_cons, List.length_cons] at hlength
      omega

end Streams

end Framing
