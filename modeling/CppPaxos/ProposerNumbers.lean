import CppPaxos.ProposerSteps

/-!
# Proposal numbers only grow

A new ballot takes the number after the largest one the proposer has used or seen. The
number has 32 bits and its increment is not checked, so after the largest number of all
it starts again at zero.
-/

namespace CppPaxos

open Machines MessengerCall

/-- The proposal ID under which a request is sent. -/
def MessengerCall.requestID : MessengerCall → Option ProposalID
  | .sendPrepare proposalID | .sendAccept proposalID _ => some proposalID
  | _ => none

/-- The number does not decrease from an ID to one that is not below it. -/
theorem ProposalID.number_le_of_le {p id : ProposalID} (h : p ≤ id) :
    p.number.toNat ≤ id.number.toNat := by
  rw [← not_lt, ProposalID.lt_iff] at h
  omega

namespace Proposer

/-- The proposal ID keeps its UID and never decreases, and each new ballot is above every ID that
was used or seen before it. -/
structure NumbersGrow (P : Proposer) (calls : List ProposerCall) : Prop where
  uid : ∀ pre, pre <+: calls → (machine.run P pre).proposalID.uid = P.proposerUID
  never_decreases : ∀ pre call, pre ++ [call] <+: calls →
    (machine.run P pre).proposalID ≤ (machine.next (machine.run P pre) call).proposalID
  fresh : ∀ pre, pre ++ [.prepare true] <+: calls → ∃ p,
    machine.emits (machine.run P pre) (.prepare true) = [sendPrepare p] ∧
      (∀ m ∈ machine.trace P pre, ∀ id ∈ m.requestID, id < p) ∧
      ∀ call ∈ pre, ∀ id ∈ call.observed, id < p

/-- The ID of a request is the one the proposer has after the call that sends it. -/
theorem of_requestID {P : Proposer} {call : ProposerCall} {m : MessengerCall}
    (hsent : m ∈ machine.emits P call) {id : ProposalID} (hid : id ∈ m.requestID) :
    id = (machine.next P call).proposalID := by
  rw [Option.mem_def] at hid
  cases m with
  | sendPrepare p =>
    cases hid
    exact of_sendPrepare_mem hsent
  | sendAccept p v =>
    cases hid
    exact (of_sendAccept_mem hsent).1
  | _ => cases hid

/-- An observed ID has no larger number than the proposer has after it. -/
theorem number_le_observeProposal (P : Proposer) (u : Str) (id : ProposalID) :
    id.number.toNat ≤ (P.observeProposal u id).proposalID.number.toNat := by
  rw [observeProposal_proposalID]
  split
  · exact le_rfl
  · rename_i hle
    exact ProposalID.number_le_of_le (not_lt.mp hle)

/-- An observed number is not above the own one afterwards. -/
theorem number_le_next_of_observed (P : Proposer) {call : ProposerCall} {id : ProposalID}
    (hid : id ∈ call.observed) :
    id.number.toNat ≤ (machine.next P call).proposalID.number.toNat := by
  rw [Option.mem_def] at hid
  cases call with
  | receivePromise u p r w =>
    cases hid
    have hle := P.number_le_observeProposal u id
    by_cases hcounts : P.Counts u id
    · simpa [next_receivePromise_of_counts hcounts] using hle
    · rwa [next_receivePromise_of_not_counts hcounts]
  | receivePrepareNACK u p promisedID | receiveAcceptNACK u p promisedID
  | observeProposal u promisedID =>
    cases hid
    exact P.number_le_observeProposal u _
  | _ => cases hid

/-- A proposer that has made the calls has neither sent nor seen a number above its own. -/
structure Leads (start : Proposer) (calls : List ProposerCall) (P : Proposer) : Prop where
  sent : ∀ m ∈ machine.trace start calls, ∀ id ∈ m.requestID, id ≤ P.proposalID
  seen : ∀ call ∈ calls, ∀ id ∈ call.observed, id.number.toNat ≤ P.proposalID.number.toNat

/-- A call without wrap-around keeps it. -/
theorem Leads.next {start : Proposer} {calls : List ProposerCall}
    (h : Leads start calls (machine.run start calls)) {call : ProposerCall}
    (hwrap : (machine.run start calls).NoWrap call) :
    Leads start (calls ++ [call]) (machine.next (machine.run start calls) call) := by
  have hle := le_next_proposalID hwrap
  refine ⟨fun m hm id hid => ?_, fun call' hcall id hid => ?_⟩
  · rw [Machine.trace_concat, List.mem_append] at hm
    rcases hm with hbefore | hnow
    · exact (h.sent m hbefore id hid).trans hle
    · exact (of_requestID hnow hid).le
  · rw [List.mem_append, List.mem_singleton] at hcall
    rcases hcall with hbefore | rfl
    · exact (h.seen call' hbefore id hid).trans (ProposalID.number_le_of_le hle)
    · exact number_le_next_of_observed _ hid

/-- A new ballot of a proposer that leads is above everything sent and seen. -/
theorem Leads.fresh {start P : Proposer} {calls : List ProposerCall} (h : Leads start calls P)
    (hwrap : P.NoWrap (.prepare true)) :
    (∀ m ∈ machine.trace start calls, ∀ id ∈ m.requestID, id < P.proposalID.incrementNumber) ∧
      ∀ call ∈ calls, ∀ id ∈ call.observed, id < P.proposalID.incrementNumber := by
  have hlt := ProposalID.lt_incrementNumber (hwrap rfl)
  refine ⟨fun m hm id hid => (h.sent m hm id hid).trans_lt hlt, fun call hcall id hid => ?_⟩
  have hseen := h.seen call hcall id hid
  have hnumber : P.proposalID.number.toNat < P.proposalID.incrementNumber.number.toNat := by
    -- the UID stays, so the ID can only have grown by its number
    rcases ProposalID.lt_iff.mp hlt with hnumber | ⟨-, huid⟩
    · exact hnumber
    · exact absurd huid (lt_irrefl _)
  rw [ProposalID.lt_iff]
  omega

/-- At the largest number a new ballot is below the one before it. -/
theorem noWrap_of_le_next {P : Proposer} {call : ProposerCall}
    (h : P.proposalID ≤ (machine.next P call).proposalID) : P.NoWrap call := by
  rintro rfl hmax
  have hle := ProposalID.number_le_of_le h
  have hzero : (machine.next P (.prepare true)).proposalID.number = 0 := by
    simp [Machine.next, machine, prepare, ProposalID.incrementNumber, hmax, UInt32.size]
  rw [hzero, hmax] at hle
  simp [UInt32.size] at hle

/-- **Proposal numbers only grow**, in a run of a new proposer, exactly if no new ballot is begun at
the largest 32-bit number. -/
theorem numbersGrow_iff {proposerUID : Str} {quorumSize : ℕ} {leader active : Bool}
    {calls : List ProposerCall} :
    (new proposerUID quorumSize leader active).NumbersGrow calls ↔
      machine.Admits NoWrap (new proposerUID quorumSize leader active) calls := by
  generalize hP : new proposerUID quorumSize leader active = P
  constructor
  · intro h
    refine Machine.admits_iff_forall_prefix.mpr fun pre call hpre => ?_
    exact noWrap_of_le_next (h.never_decreases pre call hpre)
  · intro h
    refine ⟨fun pre hpre => ?_, fun pre call hpre => ?_, fun pre hpre => ?_⟩
    · have huid : P.proposalID.uid = P.proposerUID := by rw [← hP]; rfl
      refine (h.of_prefix hpre).invariant (I := fun Q => Q.proposalID.uid = P.proposerUID) huid ?_
      intro Q call hQ _
      rw [next_proposalID_uid, hQ]
    · exact le_next_proposalID (h.allowed_of_prefix hpre)
    · have hleads : Leads P pre (machine.run P pre) :=
        (h.of_prefix ((List.prefix_append _ _).trans hpre)).induction (I := Leads P)
          ⟨by simp, by simp⟩ fun _ _ hI hwrap => hI.next hwrap
      exact ⟨_, rfl, hleads.fresh (h.allowed_of_prefix hpre)⟩

/-- A refusal reports the largest number there is, with a larger UID. The next ballot of A starts
at number zero. -/
theorem ballot_below_refusal :
    ¬(new [65] 2 false true).NumbersGrow
      [.prepare true, .receivePrepareNACK [49] ⟨1, [65]⟩ ⟨UInt32.ofNat (UInt32.size - 1), [66]⟩,
        .prepare true] := by
  intro h
  have hle := h.never_decreases
    [.prepare true, .receivePrepareNACK [49] ⟨1, [65]⟩ ⟨UInt32.ofNat (UInt32.size - 1), [66]⟩]
    (.prepare true) List.prefix_rfl
  exact absurd hle (by decide)

end Proposer

end CppPaxos
