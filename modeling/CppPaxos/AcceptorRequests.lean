import CppPaxos.AcceptorInvariant

/-!
# Requests and positive answers

A deferred answer remembers the UID of the sender only. Its ID and its value are those of
the state at the time of `persisted`. For a permit this is the pair of the request, since no
other pair is accepted while a permit is pending. A promise may be overtaken: an accept
request with a larger ID is recorded while the promise is pending, and the promise is then
sent for that ID.
-/

namespace CppPaxos

open Machines MessengerCall

namespace Acceptor

/-- Each promise answers a prepare request of its receiver with its ID, and each permit answers an
accept request of its receiver with its ID and its value. -/
structure AnswersRequests (A : Acceptor) (calls : List AcceptorCall) : Prop where
  promise : ∀ pre call, pre ++ [call] <+: calls → ∀ toUID p r w,
    sendPromise toUID p r w ∈ machine.emits (machine.run A pre) call →
      ∃ now, .receivePrepare now toUID p ∈ pre ++ [call]
  permit : ∀ pre call, pre ++ [call] <+: calls → ∀ toUID p v,
    sendPermit toUID p v ∈ machine.emits (machine.run A pre) call →
      .receiveAcceptRequest toUID p v ∈ pre ++ [call]

/-- An accept request that is recorded while a promise is pending has the promised ID. -/
def KeepsPendingPromise (A : Acceptor) : AcceptorCall → Prop
  | .receiveAcceptRequest _ proposalID value =>
    A.pendingPromiseUID ≠ [] → A.Records proposalID value → proposalID = A.promisedID
  | _ => True

instance (A : Acceptor) : DecidablePred A.KeepsPendingPromise
  | .receiveAcceptRequest .. => inferInstanceAs (Decidable (_ → _ → _))
  | .receivePrepare .. | .persisted | .setActive _ => isTrue trivial

/-- What is pending has been requested. -/
structure PendingRequested (calls : List AcceptorCall) (A : Acceptor) : Prop where
  promise : A.pendingPromiseUID ≠ [] →
    ∃ now, .receivePrepare now A.pendingPromiseUID A.promisedID ∈ calls
  permit : A.pendingAcceptUID ≠ [] →
    .receiveAcceptRequest A.pendingAcceptUID A.acceptedID A.acceptedValue ∈ calls

/-- One more call does not change what has been requested before. -/
theorem PendingRequested.concat {calls : List AcceptorCall} {A : Acceptor}
    (h : PendingRequested calls A) (call : AcceptorCall) :
    PendingRequested (calls ++ [call]) A := by
  constructor
  · intro hpending
    obtain ⟨now, hmem⟩ := h.promise hpending
    exact ⟨now, List.mem_append_left _ hmem⟩
  · exact fun hpending => List.mem_append_left _ (h.permit hpending)

/-- One step keeps the pending requests. -/
theorem Step.pendingRequested {A A' : Acceptor} {call : AcceptorCall} {sent : List MessengerCall}
    (hstep : A.Step call A' sent) {calls : List AcceptorCall} (h : PendingRequested calls A)
    (hkeeps : A.KeepsPendingPromise call) : PendingRequested (calls ++ [call]) A' := by
  have hbefore := h.concat call
  cases hstep with
  | promise hvalid hp hpending =>
    refine ⟨fun hne => ?_, hbefore.permit⟩
    by_cases hactive : A.active
    · simp only [if_pos hactive]
      exact ⟨_, List.mem_append_right _ (List.mem_singleton_self _)⟩
    · simp only [if_neg hactive] at hne
      exact absurd hpending hne
  | accept hvalid hp hrecords =>
    refine ⟨fun hne => ?_, fun hne => ?_⟩
    · -- the promised ID is written too, with the ID that it has
      obtain ⟨now, hmem⟩ := hbefore.promise hne
      rw [← hkeeps hne hrecords] at hmem
      exact ⟨now, hmem⟩
    · by_cases hactive : A.active
      · simp only [if_pos hactive]
        exact List.mem_append_right _ (List.mem_singleton_self _)
      · simp only [if_neg hactive] at hne
        exact absurd (List.isEmpty_iff.mp hrecords.2.2) hne
  | persisted => exact ⟨fun hne => absurd rfl hne, fun hne => absurd rfl hne⟩
  | _ => exact ⟨hbefore.promise, hbefore.permit⟩

/-- What `persisted` sends is what was pending. -/
theorem of_persisted_mem {A : Acceptor} {m : MessengerCall}
    (h : m ∈ machine.emits A .persisted) :
    (A.pendingPromiseUID ≠ [] ∧
      m = sendPromise A.pendingPromiseUID A.promisedID A.acceptedID A.acceptedValue) ∨
    (A.pendingAcceptUID ≠ [] ∧ m = sendPermit A.pendingAcceptUID A.acceptedID A.acceptedValue) := by
  change m ∈ A.persisted.2 at h
  simp only [persisted, List.isEmpty_iff] at h
  split_ifs at h <;> simp_all

/-- **Every positive answer belongs to a request**, in every run of a new acceptor in which an
accept request that is recorded while a promise is pending has the promised ID. -/
theorem run_answersRequests {acceptorUID : Str} {livenessWindow now : UInt64} {active : Bool}
    {calls : List AcceptorCall} (hvalid : ∀ call ∈ calls, call.ValidID)
    (hkeeps : machine.Admits KeepsPendingPromise (new acceptorUID livenessWindow now active)
      calls) :
    (new acceptorUID livenessWindow now active).AnswersRequests calls := by
  generalize hnew : new acceptorUID livenessWindow now active = A at hkeeps ⊢
  have hA : A.Invariant := by
    rw [← hnew]
    exact invariant_new _ _ _ _
  have hrun : A.ValidRun calls := Machine.admits_const_iff.mpr hvalid
  have hstart : PendingRequested [] A := by
    rw [← hnew]
    exact ⟨fun hne => absurd rfl hne, fun hne => absurd rfl hne⟩
  have hpending : ∀ pre, pre <+: calls → PendingRequested pre (machine.run A pre) := by
    intro pre hpre
    have hboth := Machine.Admits.and (hrun.of_prefix hpre) (hkeeps.of_prefix hpre)
    refine (hboth.induction (I := fun acts B => B.Invariant ∧ PendingRequested acts B)
      ⟨hA, hstart⟩ ?_).2
    intro acts call ⟨hinv, hreq⟩ ⟨hcall, hkeep⟩
    have hstep := hinv.step hcall
    exact ⟨hstep.invariant hinv, hstep.pendingRequested hreq hkeep⟩
  have hshort : ∀ {pre call}, pre ++ [call] <+: calls → pre <+: calls :=
    fun hpre => (List.prefix_append _ _).trans hpre
  constructor
  · intro pre call hpre toUID p r w hsent
    obtain ⟨hinv, hstep⟩ := hrun.step hA hpre
    rcases (hstep.of_sendPromise_mem hinv hsent).source with rfl | ⟨now, rfl, -⟩
    · rcases of_persisted_mem hsent with ⟨hne, heq⟩ | ⟨-, heq⟩
      · cases heq
        obtain ⟨now, hmem⟩ := (hpending pre (hshort hpre)).promise hne
        exact ⟨now, List.mem_append_left _ hmem⟩
      · cases heq
    · exact ⟨now, List.mem_append_right _ (List.mem_singleton_self _)⟩
  · intro pre call hpre toUID p v hsent
    obtain ⟨hinv, hstep⟩ := hrun.step hA hpre
    rcases (hstep.of_sendPermit_mem hinv hsent).source with rfl | ⟨rfl, -⟩
    · rcases of_persisted_mem hsent with ⟨-, heq⟩ | ⟨hne, heq⟩
      · cases heq
      · cases heq
        exact List.mem_append_left _ ((hpending pre (hshort hpre)).permit hne)
    · exact List.mem_append_right _ (List.mem_singleton_self _)

/-- The accept request for the promised ID comes while the promise is pending, and one call of
`persisted` answers both. -/
theorem run_answersRequests_both_pending :
    (new [65] 0 0 true).AnswersRequests
      [.receivePrepare 1 [66] ⟨1, [66]⟩, .receiveAcceptRequest [66] ⟨1, [66]⟩ [118], .persisted] :=
  run_answersRequests (by decide) (by decide)

/-- B prepares at (1, B), C's accept request at (2, C) is recorded while the promise is pending, and
B is sent a promise for (2, C), which it never asked for. -/
theorem promise_for_another_request :
    let calls : List AcceptorCall := [.receivePrepare 1 [66] ⟨1, [66]⟩,
      .receiveAcceptRequest [67] ⟨2, [67]⟩ [118], .persisted]
    (∀ call ∈ calls, call.ValidID) ∧ ¬(new [65] 0 0 true).AnswersRequests calls := by
  refine ⟨by decide, fun h => ?_⟩
  obtain ⟨now, hmem⟩ := h.promise
    [.receivePrepare 1 [66] ⟨1, [66]⟩, .receiveAcceptRequest [67] ⟨2, [67]⟩ [118]] .persisted
    List.prefix_rfl [66] ⟨2, [67]⟩ ⟨2, [67]⟩ [118] (by decide)
  simp at hmem

end Acceptor

end CppPaxos
