import CppPaxos.Acceptor

/-!
# What an acceptor does in a run

Each call on an acceptor takes one of ten steps. The relation `Acceptor.Step` lists
them once, with the condition of the branch and everything the branch changes or
sends; the invariant, the monotonicity of the two IDs and the contents of the
answers are read off from it, first for one step and then for every run.
-/

namespace CppPaxos

open Machines MessengerCall

/-- The proposal ID a call carries is valid. -/
def AcceptorCall.ValidID : AcceptorCall → Prop
  | .receivePrepare _ _ proposalID => proposalID.isValid
  | .receiveAcceptRequest _ proposalID _ => proposalID.isValid
  | .persisted => True
  | .setActive _ => True

instance : DecidablePred AcceptorCall.ValidID
  | .receivePrepare _ _ proposalID => inferInstanceAs (Decidable (proposalID.isValid = true))
  | .receiveAcceptRequest _ proposalID _ => inferInstanceAs (Decidable (proposalID.isValid = true))
  | .persisted => isTrue trivial
  | .setActive _ => isTrue trivial

namespace Acceptor

/-- The steps of an acceptor: the call, the state after it and the messages sent. -/
inductive Step (A : Acceptor) : AcceptorCall → Acceptor → List MessengerCall → Prop
  | promiseAgain {now : UInt64} {fromUID : Str} {p : ProposalID} (hvalid : p.isValid)
      (hp : p = A.promisedID) :
      Step A (.receivePrepare now fromUID p) { A with lastPrepareTimestamp := now }
        (if A.active then [sendPromise fromUID p A.acceptedID A.acceptedValue] else [])
  | promise {now : UInt64} {fromUID : Str} {p : ProposalID} (hvalid : p.isValid)
      (hp : A.promisedID < p) (hpending : A.pendingPromiseUID = []) :
      Step A (.receivePrepare now fromUID p)
        { A with
          lastPrepareTimestamp := now
          promisedID := p
          pendingPromiseUID := if A.active then fromUID else A.pendingPromiseUID } []
  | prepareIgnored {now : UInt64} {fromUID : Str} {p : ProposalID} (hp : A.promisedID < p) :
      Step A (.receivePrepare now fromUID p) { A with lastPrepareTimestamp := now } []
  | prepareRefused {now : UInt64} {fromUID : Str} {p : ProposalID} (hp : p < A.promisedID) :
      Step A (.receivePrepare now fromUID p) { A with lastPrepareTimestamp := now }
        (if A.active then [sendPrepareNACK fromUID p A.promisedID] else [])
  | permitAgain {fromUID : Str} {p : ProposalID} {v : Str} (hvalid : p.isValid)
      (hp : p = A.acceptedID) (hv : A.acceptedValue = v) :
      Step A (.receiveAcceptRequest fromUID p v) A
        (if A.active then [sendPermit fromUID p v] else [])
  | accept {fromUID : Str} {p : ProposalID} {v : Str} (hvalid : p.isValid)
      (hp : A.promisedID ≤ p) (hrecords : A.Records p v) :
      Step A (.receiveAcceptRequest fromUID p v)
        { A with
          promisedID := p
          acceptedID := p
          acceptedValue := v
          pendingAcceptUID := if A.active then fromUID else A.pendingAcceptUID } []
  | acceptIgnored {fromUID : Str} {p : ProposalID} {v : Str} (hp : A.promisedID ≤ p) :
      Step A (.receiveAcceptRequest fromUID p v) A []
  | acceptRefused {fromUID : Str} {p : ProposalID} {v : Str} (hp : p < A.promisedID) :
      Step A (.receiveAcceptRequest fromUID p v) A
        (if A.active then [sendAcceptNACK fromUID p A.promisedID] else [])
  | persisted :
      Step A .persisted { A with pendingPromiseUID := [], pendingAcceptUID := [] }
        (if A.active then
          (if ¬A.pendingPromiseUID.isEmpty then
            [sendPromise A.pendingPromiseUID A.promisedID A.acceptedID A.acceptedValue] else []) ++
          (if ¬A.pendingAcceptUID.isEmpty then
            [sendPermit A.pendingAcceptUID A.acceptedID A.acceptedValue] else [])
        else [])
  | setActive {active : Bool} : Step A (.setActive active) { A with active := active } []

/-- The invariant of an acceptor that has seen requests with valid IDs only. -/
structure Invariant (A : Acceptor) : Prop where
  /-- The promised ID is valid or has never been set. -/
  promised : A.promisedID.isValid ∨ A.promisedID = .empty
  /-- The accepted pair is valid or has never been set. -/
  accepted : A.acceptedID.isValid ∨ A.acceptedID = .empty ∧ A.acceptedValue = []
  /-- Accepting an ID promises it. -/
  acceptedID_le : A.acceptedID ≤ A.promisedID
  /-- A promise waits only for an ID that has been promised. -/
  pendingPromise : A.pendingPromiseUID ≠ [] → A.promisedID.isValid
  /-- A permit waits only for an ID that has been accepted. -/
  pendingAccept : A.pendingAcceptUID ≠ [] → A.acceptedID.isValid

/-- A new acceptor satisfies it. -/
theorem invariant_new (acceptorUID : Str) (livenessWindow now : UInt64) (active : Bool) :
    (new acceptorUID livenessWindow now active).Invariant where
  promised := Or.inr rfl
  accepted := Or.inr ⟨rfl, rfl⟩
  acceptedID_le := le_refl _
  pendingPromise h := absurd rfl h
  pendingAccept h := absurd rfl h

/-- The acceptance test of the code, `!m_promisedID.isValid() || proposalID > m_promisedID`,
compares the two IDs and nothing else. -/
theorem Invariant.not_isValid_or_lt_iff {A : Acceptor} (hA : A.Invariant) {p : ProposalID}
    (hp : p.isValid) : (¬A.promisedID.isValid ∨ p > A.promisedID) ↔ A.promisedID < p := by
  constructor
  · rintro (hinvalid | hlt)
    · rw [hA.promised.resolve_left hinvalid]
      exact ProposalID.empty_lt_of_isValid hp
    · exact hlt
  · exact Or.inr

/-- An accept request that is recorded is at or above the promise. -/
theorem Invariant.promisedID_le_of_records {A : Acceptor} (hA : A.Invariant) {p : ProposalID}
    {v : Str} (hp : p.isValid) (h : A.Records p v) : A.promisedID ≤ p := by
  rcases h.2.1 with hinvalid | hlt | heq
  · exact ((hA.not_isValid_or_lt_iff hp).mp (Or.inl hinvalid)).le
  · exact hlt.le
  · exact heq.ge

/-- A prepare request takes one of the first four steps. -/
theorem Invariant.step_receivePrepare {A : Acceptor} (hA : A.Invariant) (now : UInt64)
    (fromUID : Str) {p : ProposalID} (hp : p.isValid) :
    A.Step (.receivePrepare now fromUID p) (A.receivePrepare now fromUID p).1
      (A.receivePrepare now fromUID p).2 := by
  unfold receivePrepare
  simp only [hA.not_isValid_or_lt_iff hp]
  by_cases hsame : A.promisedID.isValid ∧ p = A.promisedID
  · rw [if_pos hsame]
    exact .promiseAgain hp hsame.2
  · rw [if_neg hsame]
    by_cases hlt : A.promisedID < p
    · rw [if_pos hlt]
      by_cases hpending : A.pendingPromiseUID.isEmpty
      · rw [if_pos hpending]
        exact .promise hp hlt (List.isEmpty_iff.mp hpending)
      · rw [if_neg hpending]
        exact .prepareIgnored hlt
    · rw [if_neg hlt]
      have hne : p ≠ A.promisedID := by
        rintro rfl
        exact hsame ⟨hp, rfl⟩
      exact .prepareRefused (lt_of_le_of_ne (not_lt.mp hlt) hne)

/-- An accept request takes one of the next four steps. -/
theorem Invariant.step_receiveAcceptRequest {A : Acceptor} (hA : A.Invariant) (fromUID : Str)
    {p : ProposalID} (v : Str) (hp : p.isValid) :
    A.Step (.receiveAcceptRequest fromUID p v) (A.receiveAcceptRequest fromUID p v).1
      (A.receiveAcceptRequest fromUID p v).2 := by
  have hle : (¬A.promisedID.isValid ∨ p > A.promisedID ∨ p = A.promisedID) ↔
      A.promisedID ≤ p := by
    rw [← or_assoc, hA.not_isValid_or_lt_iff hp, le_iff_lt_or_eq, eq_comm (a := p)]
  by_cases hsame : A.acceptedID.isValid ∧ p = A.acceptedID ∧ A.acceptedValue = v
  · rw [receiveAcceptRequest, if_pos hsame]
    exact .permitAgain hp hsame.2.1 hsame.2.2
  · rw [receiveAcceptRequest, if_neg hsame]
    by_cases hallowed : A.promisedID ≤ p
    · rw [if_pos (hle.mpr hallowed)]
      by_cases hpending : A.pendingAcceptUID.isEmpty
      · rw [if_pos hpending]
        exact .accept hp hallowed ⟨hsame, hle.mpr hallowed, hpending⟩
      · rw [if_neg hpending]
        exact .acceptIgnored hallowed
    · rw [if_neg (mt hle.mp hallowed)]
      exact .acceptRefused (not_le.mp hallowed)

/-- Every call with a valid ID takes one of the steps. -/
theorem Invariant.step {A : Acceptor} (hA : A.Invariant) {call : AcceptorCall}
    (hcall : call.ValidID) : A.Step call (machine.next A call) (machine.emits A call) := by
  cases call with
  | receivePrepare now fromUID p => exact hA.step_receivePrepare now fromUID hcall
  | receiveAcceptRequest fromUID p v => exact hA.step_receiveAcceptRequest fromUID v hcall
  | persisted => exact .persisted
  | setActive active => exact .setActive

section OneStep

variable {A A' : Acceptor} {call : AcceptorCall} {sent : List MessengerCall}

/-- Every step keeps the invariant. -/
theorem Step.invariant (h : A.Step call A' sent) (hA : A.Invariant) : A'.Invariant := by
  cases h with
  | promise hvalid hp hpending =>
    refine ⟨Or.inl hvalid, hA.accepted, hA.acceptedID_le.trans hp.le, fun _ => hvalid,
      hA.pendingAccept⟩
  | accept hvalid hp hrecords =>
    exact ⟨Or.inl hvalid, Or.inl hvalid, le_rfl, fun _ => hvalid, fun _ => hvalid⟩
  | persisted =>
    exact ⟨hA.promised, hA.accepted, hA.acceptedID_le, fun h => absurd rfl h,
      fun h => absurd rfl h⟩
  | _ => exact ⟨hA.promised, hA.accepted, hA.acceptedID_le, hA.pendingPromise, hA.pendingAccept⟩

/-- The promised ID never decreases. -/
theorem Step.promisedID_le (h : A.Step call A' sent) : A.promisedID ≤ A'.promisedID := by
  cases h with
  | promise hvalid hp hpending => exact hp.le
  | accept hvalid hp hrecords => exact hp
  | _ => exact le_rfl

/-- Nor does the accepted ID. -/
theorem Step.acceptedID_le (h : A.Step call A' sent) (hA : A.Invariant) :
    A.acceptedID ≤ A'.acceptedID := by
  cases h with
  | accept hvalid hp hrecords => exact hA.acceptedID_le.trans hp
  | _ => exact le_rfl

/-- The accepted pair changes only when an accept request at or above the promise is recorded. -/
theorem Step.accepted_eq_or (h : A.Step call A' sent) :
    (A'.acceptedID = A.acceptedID ∧ A'.acceptedValue = A.acceptedValue) ∨
      ∃ fromUID p v, call = .receiveAcceptRequest fromUID p v ∧ p.isValid ∧ A.promisedID ≤ p ∧
        A'.promisedID = p ∧ A'.acceptedID = p ∧ A'.acceptedValue = v := by
  cases h with
  | accept hvalid hp hrecords => exact Or.inr ⟨_, _, _, rfl, hvalid, hp, rfl, rfl, rfl⟩
  | _ => exact Or.inl ⟨rfl, rfl⟩

/-- What a promise says about the step that sends it. -/
structure PromiseSent (A A' : Acceptor) (call : AcceptorCall) (toUID : Str) (p r : ProposalID)
    (w : Str) : Prop where
  isValid : p.isValid
  /-- It carries the promised ID and the accepted pair, and the step changes neither ID. -/
  promisedID : p = A'.promisedID
  acceptedID : r = A'.acceptedID
  acceptedValue : w = A'.acceptedValue
  promisedID_eq : A'.promisedID = A.promisedID
  acceptedID_eq : A'.acceptedID = A.acceptedID
  /-- It is sent by `persisted`, or at once in answer to a duplicate prepare request. -/
  source : call = .persisted ∨ ∃ now, call = .receivePrepare now toUID p ∧ A.active

/-- What a permit says about the step that sends it. -/
structure PermitSent (A A' : Acceptor) (call : AcceptorCall) (toUID : Str) (p : ProposalID)
    (v : Str) : Prop where
  isValid : p.isValid
  /-- It carries the accepted pair, which the step does not change. -/
  acceptedID : p = A'.acceptedID
  acceptedValue : v = A'.acceptedValue
  acceptedID_eq : A'.acceptedID = A.acceptedID
  acceptedValue_eq : A'.acceptedValue = A.acceptedValue
  /-- It is sent by `persisted`, or at once in answer to a duplicate accept request. -/
  source : call = .persisted ∨ call = .receiveAcceptRequest toUID p v ∧ A.active

/-- When and with what a promise is sent. -/
theorem Step.of_sendPromise_mem (h : A.Step call A' sent) (hA : A.Invariant) {toUID w : Str}
    {p r : ProposalID} (hsent : sendPromise toUID p r w ∈ sent) :
    PromiseSent A A' call toUID p r w := by
  cases h with
  | promiseAgain hvalid hp =>
    split at hsent
    · rename_i hactive
      simp only [List.mem_singleton, sendPromise.injEq] at hsent
      obtain ⟨rfl, rfl, rfl, rfl⟩ := hsent
      exact ⟨hvalid, hp, rfl, rfl, rfl, rfl, Or.inr ⟨_, rfl, hactive⟩⟩
    · simp at hsent
  | persisted =>
    have hmem : A.pendingPromiseUID ≠ [] ∧ p = A.promisedID ∧ r = A.acceptedID ∧
        w = A.acceptedValue := by
      split_ifs at hsent <;> simp_all
    obtain ⟨hpending, rfl, rfl, rfl⟩ := hmem
    exact ⟨hA.pendingPromise hpending, rfl, rfl, rfl, rfl, rfl, Or.inl rfl⟩
  | _ => simp at hsent

/-- When and with what a permit is sent. -/
theorem Step.of_sendPermit_mem (h : A.Step call A' sent) (hA : A.Invariant) {toUID v : Str}
    {p : ProposalID} (hsent : sendPermit toUID p v ∈ sent) : PermitSent A A' call toUID p v := by
  cases h with
  | permitAgain hvalid hp hv =>
    split at hsent
    · rename_i hactive
      simp only [List.mem_singleton, sendPermit.injEq] at hsent
      obtain ⟨rfl, rfl, rfl⟩ := hsent
      exact ⟨hvalid, hp, hv.symm, rfl, rfl, Or.inr ⟨rfl, hactive⟩⟩
    · simp at hsent
  | persisted =>
    have hmem : A.pendingAcceptUID ≠ [] ∧ p = A.acceptedID ∧ v = A.acceptedValue := by
      split_ifs at hsent <;> simp_all
    obtain ⟨hpending, rfl, rfl⟩ := hmem
    exact ⟨hA.pendingAccept hpending, rfl, rfl, rfl, rfl, Or.inl rfl⟩
  | _ => simp at hsent

/-- A refusal of `p` reports a promised ID strictly above `p`. -/
theorem Step.lt_of_nack_mem (h : A.Step call A' sent) {toUID : Str} {p promisedID : ProposalID}
    (hsent : sendPrepareNACK toUID p promisedID ∈ sent ∨ sendAcceptNACK toUID p promisedID ∈ sent) :
    p < promisedID := by
  cases h with
  | prepareRefused hp | acceptRefused hp =>
    split at hsent
    · simp only [List.mem_singleton, sendPrepareNACK.injEq, sendAcceptNACK.injEq, reduceCtorEq,
        or_false, false_or] at hsent
      obtain ⟨-, rfl, rfl⟩ := hsent
      exact hp
    · simp at hsent
  | persisted => split_ifs at hsent <;> simp at hsent
  | promiseAgain | permitAgain => split_ifs at hsent <;> simp at hsent
  | _ => simp at hsent

end OneStep

/-- How an acceptor can change: both IDs only grow, and a new accepted pair is at or above
everything promised before. -/
structure Evolves (A A' : Acceptor) : Prop where
  promisedID_le : A.promisedID ≤ A'.promisedID
  acceptedID_le : A.acceptedID ≤ A'.acceptedID
  accepted_eq_or_ge : (A'.acceptedID = A.acceptedID ∧ A'.acceptedValue = A.acceptedValue) ∨
    A.promisedID ≤ A'.acceptedID

/-- An acceptor that takes no step has evolved into itself. -/
theorem Evolves.refl (A : Acceptor) : A.Evolves A := ⟨le_rfl, le_rfl, Or.inl ⟨rfl, rfl⟩⟩

/-- What several steps do adds up. -/
theorem Evolves.trans {A B C : Acceptor} (h : A.Evolves B) (h' : B.Evolves C) : A.Evolves C := by
  refine ⟨h.promisedID_le.trans h'.promisedID_le, h.acceptedID_le.trans h'.acceptedID_le, ?_⟩
  rcases h'.accepted_eq_or_ge with ⟨hid, hvalue⟩ | hge
  · rw [hid, hvalue]
    exact h.accepted_eq_or_ge
  · exact Or.inr (h.promisedID_le.trans hge)

/-- A step is a case of it. -/
theorem Step.evolves {A A' : Acceptor} {call : AcceptorCall} {sent : List MessengerCall}
    (h : A.Step call A' sent) (hA : A.Invariant) : A.Evolves A' := by
  refine ⟨h.promisedID_le, h.acceptedID_le hA, ?_⟩
  rcases h.accepted_eq_or with hsame | ⟨_, p, _, _, _, hp, _, hid, _⟩
  · exact Or.inl hsame
  · exact Or.inr (by rw [hid]; exact hp)

section Run

variable {A : Acceptor} {calls pre : List AcceptorCall}

/-- The runs of an acceptor on requests with valid IDs. -/
abbrev ValidRun (A : Acceptor) (calls : List AcceptorCall) : Prop :=
  machine.Admits (fun _ call => call.ValidID) A calls

/-- The invariant holds after every run of valid calls. -/
theorem ValidRun.invariant (h : A.ValidRun calls) (hA : A.Invariant) :
    (machine.run A calls).Invariant :=
  Machine.Admits.invariant h hA fun _ _ hI hcall => (hI.step hcall).invariant hI

/-- The states at two moments of a run are related by `Evolves`. -/
theorem ValidRun.evolves (h : A.ValidRun calls) (hA : A.Invariant) (hpre : pre <+: calls) :
    (machine.run A pre).Evolves (machine.run A calls) :=
  Machine.Admits.relates_of_prefix h hpre hA (fun _ _ hI hcall => (hI.step hcall).invariant hI)
    Evolves.refl (fun _ _ _ => Evolves.trans) (fun _ _ hI hcall => (hI.step hcall).evolves hI)

/-- The step that a call of a run takes. -/
theorem ValidRun.step (h : A.ValidRun calls) (hA : A.Invariant) {call : AcceptorCall}
    (hpre : pre ++ [call] <+: calls) :
    (machine.run A pre).Invariant ∧ (machine.run A pre).Step call
      (machine.next (machine.run A pre) call) (machine.emits (machine.run A pre) call) := by
  have hprefix : pre <+: calls := (List.prefix_append _ _).trans hpre
  have hI := ValidRun.invariant (Machine.Admits.of_prefix h hprefix) hA
  exact ⟨hI, hI.step (Machine.Admits.allowed_of_prefix h hpre)⟩

end Run

/-- What an acceptor guarantees at one call: the IDs do not decrease, the accepted ID stays
within the promise, a new value comes with an accept request that the promise allows, a promise
shows the state as it is, and a refusal names something larger. -/
structure Guarantee (A : Acceptor) (call : AcceptorCall) : Prop where
  promisedID_le : A.promisedID ≤ (machine.next A call).promisedID
  acceptedID_le : A.acceptedID ≤ (machine.next A call).acceptedID
  acceptedID_le_promisedID :
    (machine.next A call).acceptedID ≤ (machine.next A call).promisedID
  value_changes_by_accept : (machine.next A call).acceptedValue ≠ A.acceptedValue →
    ∃ fromUID p v, call = .receiveAcceptRequest fromUID p v ∧ A.promisedID ≤ p ∧
      (machine.next A call).acceptedID = p ∧ (machine.next A call).acceptedValue = v
  promise_is_current : ∀ toUID p r w, sendPromise toUID p r w ∈ machine.emits A call →
    p = (machine.next A call).promisedID ∧ r = (machine.next A call).acceptedID ∧
      w = (machine.next A call).acceptedValue
  nack_is_above : ∀ toUID p promisedID, sendPrepareNACK toUID p promisedID ∈ machine.emits A call ∨
    sendAcceptNACK toUID p promisedID ∈ machine.emits A call → p < promisedID

/-- Every call with a valid ID keeps the guarantee, in a state that satisfies the invariant. -/
theorem Invariant.guarantee {A : Acceptor} (hA : A.Invariant) {call : AcceptorCall}
    (hcall : call.ValidID) : A.Guarantee call := by
  have hstep := hA.step hcall
  refine ⟨hstep.promisedID_le, hstep.acceptedID_le hA, (hstep.invariant hA).acceptedID_le, ?_, ?_,
    fun toUID p promisedID hsent => hstep.lt_of_nack_mem hsent⟩
  · intro hvalue
    rcases hstep.accepted_eq_or with ⟨-, hsame⟩ | ⟨fromUID, p, v, hcall', -, hp, -, hid, hv⟩
    · exact absurd hsame hvalue
    · exact ⟨fromUID, p, v, hcall', hp, hid, hv⟩
  · intro toUID p r w hsent
    have hpromise := hstep.of_sendPromise_mem hA hsent
    exact ⟨hpromise.promisedID, hpromise.acceptedID, hpromise.acceptedValue⟩

/-- **Acceptor invariant.** In every run of a new acceptor on requests with valid IDs, each
call keeps the guarantee, the accepted ID is at most the promised ID at every moment, and
neither ID is smaller at a later moment than at an earlier one. -/
theorem run_guarantee (acceptorUID : Str) (livenessWindow now : UInt64) (active : Bool)
    (calls : List AcceptorCall) (hvalid : ∀ call ∈ calls, call.ValidID) :
    let A := new acceptorUID livenessWindow now active
    (∀ pre call, pre ++ [call] <+: calls → (machine.run A pre).Guarantee call) ∧
      (∀ pre, pre <+: calls →
        (machine.run A pre).acceptedID ≤ (machine.run A pre).promisedID) ∧
      ∀ pre later, pre <+: later → later <+: calls →
        (machine.run A pre).promisedID ≤ (machine.run A later).promisedID ∧
          (machine.run A pre).acceptedID ≤ (machine.run A later).acceptedID := by
  intro A
  have hA : A.Invariant := invariant_new acceptorUID livenessWindow now active
  have hrun : A.ValidRun calls := Machine.admits_const_iff.mpr hvalid
  refine ⟨?_, ?_, ?_⟩
  · intro pre call hpre
    have hI : (machine.run A pre).Invariant := (hrun.step hA hpre).1
    exact hI.guarantee (Machine.Admits.allowed_of_prefix hrun hpre)
  · intro pre hpre
    exact (ValidRun.invariant (hrun.of_prefix hpre) hA).acceptedID_le
  · intro pre later hpre hlater
    have hevolves := ValidRun.evolves (hrun.of_prefix hlater) hA hpre
    exact ⟨hevolves.promisedID_le, hevolves.acceptedID_le⟩

/-- The guarantee on a run that promises, accepts and refuses. -/
theorem run_guarantee_refused_prepare :
    let A := new [97] 0 0 true
    let calls : List AcceptorCall := [.receivePrepare 1 [98] ⟨2, [98]⟩, .persisted,
      .receiveAcceptRequest [98] ⟨2, [98]⟩ [120], .receivePrepare 2 [99] ⟨1, [99]⟩]
    (∀ call ∈ calls, call.ValidID) ∧
      ∀ pre call, pre ++ [call] <+: calls → (machine.run A pre).Guarantee call :=
  ⟨by decide, (run_guarantee [97] 0 0 true _ (by decide)).1⟩

end Acceptor

end CppPaxos
