import CppPaxos.Proposer

/-!
# What a proposer does at one call

Each member function changes few of the members. The lemmas here say, once for each
function, which members it changes and what it sends; the theorems about runs use
them and never unfold the functions again.
-/

namespace CppPaxos

open Machines MessengerCall

/-- The foreign ID that a call hands to `observeProposal`. -/
def ProposerCall.observed : ProposerCall → Option ProposalID
  | .receivePromise _ proposalID _ _ => some proposalID
  | .receivePrepareNACK _ _ promisedID => some promisedID
  | .receiveAcceptNACK _ _ promisedID => some promisedID
  | .observeProposal _ proposalID => some proposalID
  | _ => none

namespace Proposer

/-- Observing `id` changes the proposal ID: `id` is larger, and by its number. -/
def Raises (P : Proposer) (id : ProposalID) : Prop :=
  P.proposalID < id ∧ id.number ≠ P.proposalID.number

/-- The guard of `receivePromise` lets the promise through. -/
def Counts (P : Proposer) (fromUID : Str) (proposalID : ProposalID) : Prop :=
  proposalID = (P.observeProposal fromUID proposalID).proposalID ∧ fromUID ∉ P.promisesReceived

instance (P : Proposer) (id : ProposalID) : Decidable (P.Raises id) :=
  inferInstanceAs (Decidable (_ ∧ _))

instance (P : Proposer) (fromUID : Str) (proposalID : ProposalID) :
    Decidable (P.Counts fromUID proposalID) :=
  inferInstanceAs (Decidable (_ ∧ _))

section Observe

variable (P : Proposer) (fromUID : Str) (id : ProposalID)

/-- `observeProposal` copies the number of a larger ID. -/
theorem observeProposal_proposalID :
    (P.observeProposal fromUID id).proposalID =
      if P.proposalID < id then ⟨id.number, P.proposalID.uid⟩ else P.proposalID := by
  unfold observeProposal
  split
  · exact ProposalID.setNumber_getNumber _ _
  · rfl

/-- The proposal ID is the only member that `observeProposal` changes. -/
theorem observeProposal_eq :
    P.observeProposal fromUID id =
      { P with proposalID := (P.observeProposal fromUID id).proposalID } := by
  unfold observeProposal
  split <;> rfl

@[simp] theorem observeProposal_proposerUID :
    (P.observeProposal fromUID id).proposerUID = P.proposerUID := by rw [observeProposal_eq]

@[simp] theorem observeProposal_quorumSize :
    (P.observeProposal fromUID id).quorumSize = P.quorumSize := by rw [observeProposal_eq]

@[simp] theorem observeProposal_proposedValue :
    (P.observeProposal fromUID id).proposedValue = P.proposedValue := by rw [observeProposal_eq]

@[simp] theorem observeProposal_lastAcceptedID :
    (P.observeProposal fromUID id).lastAcceptedID = P.lastAcceptedID := by rw [observeProposal_eq]

/-- An observed ID may raise the number, but drops no promises. -/
@[simp] theorem observeProposal_promisesReceived :
    (P.observeProposal fromUID id).promisesReceived = P.promisesReceived := by
  rw [observeProposal_eq]

/-- Nor does it end the leadership. -/
@[simp] theorem observeProposal_leader :
    (P.observeProposal fromUID id).leader = P.leader := by rw [observeProposal_eq]

@[simp] theorem observeProposal_active :
    (P.observeProposal fromUID id).active = P.active := by rw [observeProposal_eq]

@[simp] theorem observeProposal_uid :
    (P.observeProposal fromUID id).proposalID.uid = P.proposalID.uid := by
  rw [observeProposal_proposalID]
  split <;> rfl

/-- The own ID does not decrease. -/
theorem le_observeProposal : P.proposalID ≤ (P.observeProposal fromUID id).proposalID := by
  rw [observeProposal_proposalID]
  split
  · rename_i hlt
    rw [← not_lt, ProposalID.lt_iff]
    rcases ProposalID.lt_iff.mp hlt with hnumber | ⟨hnumber, -⟩
    · simp only [lt_irrefl, and_false, or_false]
      omega
    · simp [hnumber]
  · exact le_rfl

/-- An ID that does not raise the number leaves the proposer as it is. -/
theorem observeProposal_of_not_raises (h : ¬P.Raises id) : P.observeProposal fromUID id = P := by
  have hid : (P.observeProposal fromUID id).proposalID = P.proposalID := by
    rw [observeProposal_proposalID]
    split
    · rename_i hlt
      have hnumber : id.number = P.proposalID.number := by
        by_contra hne
        exact h ⟨hlt, hne⟩
      rw [hnumber]
    · rfl
  rw [observeProposal_eq, hid]

end Observe

section Count

variable (P : Proposer) (fromUID : Str) (r : ProposalID) (w : Str)

/-- One more promise changes the promises received and the pair taken over, nothing else. -/
theorem countPromise_eq :
    P.countPromise fromUID r w =
      { P with
        promisesReceived := insert fromUID P.promisesReceived
        lastAcceptedID := (P.countPromise fromUID r w).lastAcceptedID
        proposedValue := (P.countPromise fromUID r w).proposedValue } := by
  unfold countPromise
  simp only
  split <;> rfl

@[simp] theorem countPromise_proposerUID :
    (P.countPromise fromUID r w).proposerUID = P.proposerUID := by rw [countPromise_eq]

@[simp] theorem countPromise_quorumSize :
    (P.countPromise fromUID r w).quorumSize = P.quorumSize := by rw [countPromise_eq]

@[simp] theorem countPromise_proposalID :
    (P.countPromise fromUID r w).proposalID = P.proposalID := by rw [countPromise_eq]

/-- A counted promise is held from then on. -/
@[simp] theorem countPromise_promisesReceived :
    (P.countPromise fromUID r w).promisesReceived = insert fromUID P.promisesReceived := by
  rw [countPromise_eq]

/-- Counting alone makes no leader. -/
@[simp] theorem countPromise_leader :
    (P.countPromise fromUID r w).leader = P.leader := by rw [countPromise_eq]

@[simp] theorem countPromise_active :
    (P.countPromise fromUID r w).active = P.active := by rw [countPromise_eq]

/-- The value is taken over from the promise, or stays. -/
theorem countPromise_proposedValue :
    (P.countPromise fromUID r w).proposedValue =
      if (¬P.lastAcceptedID.isValid ∨ P.lastAcceptedID < r) ∧ w ≠ [] then w
      else P.proposedValue := by
  unfold countPromise
  by_cases hlarger : ¬P.lastAcceptedID.isValid ∨ P.lastAcceptedID < r
  · simp only [gt_iff_lt, hlarger, if_true, true_and]
    by_cases hw : w = [] <;> simp [hw]
  · simp only [gt_iff_lt, hlarger, if_false, false_and]

/-- The largest accepted ID is taken over from the promise, or stays. -/
theorem countPromise_lastAcceptedID :
    (P.countPromise fromUID r w).lastAcceptedID =
      if ¬P.lastAcceptedID.isValid ∨ P.lastAcceptedID < r then r else P.lastAcceptedID := by
  unfold countPromise
  by_cases hlarger : ¬P.lastAcceptedID.isValid ∨ P.lastAcceptedID < r
  · simp only [gt_iff_lt, hlarger, if_true]
  · simp only [gt_iff_lt, hlarger, if_false]

end Count

/-- A promise is ignored, or counted short of a quorum, or counted and makes a leader. -/
theorem receivePromise_cases (P : Proposer) (fromUID : Str) (p r : ProposalID) (w : Str) :
    (¬P.Counts fromUID p ∧
      P.receivePromise fromUID p r w = (P.observeProposal fromUID p, [])) ∨
    (P.Counts fromUID p ∧ (insert fromUID P.promisesReceived).card < P.quorumSize ∧
      P.receivePromise fromUID p r w =
        ((P.observeProposal fromUID p).countPromise fromUID r w, [])) ∨
    (P.Counts fromUID p ∧ P.quorumSize ≤ (insert fromUID P.promisesReceived).card ∧
      P.receivePromise fromUID p r w =
        ({ (P.observeProposal fromUID p).countPromise fromUID r w with leader := true },
          onLeadershipAcquired ::
            if ((P.observeProposal fromUID p).countPromise fromUID r w).proposedValue ≠ [] ∧
                P.active then
              [sendAccept p ((P.observeProposal fromUID p).countPromise fromUID r w).proposedValue]
            else [])) := by
  unfold receivePromise
  by_cases hcounts : P.Counts fromUID p
  · have hguard : ¬(p ≠ (P.observeProposal fromUID p).proposalID ∨
        fromUID ∈ (P.observeProposal fromUID p).promisesReceived) := by
      rw [observeProposal_promisesReceived, not_or, not_not]
      exact hcounts
    dsimp only
    rw [if_neg hguard]
    generalize hcounted : (P.observeProposal fromUID p).countPromise fromUID r w = P'
    have hpromises : P'.promisesReceived = insert fromUID P.promisesReceived := by
      simp [← hcounted]
    have hsize : P'.quorumSize = P.quorumSize := by simp [← hcounted]
    have hid : P'.proposalID = p := by rw [← hcounted, countPromise_proposalID, ← hcounts.1]
    have hactive : P'.active = P.active := by simp [← hcounted]
    rw [hpromises, hsize]
    by_cases hquorum : P.quorumSize ≤ (insert fromUID P.promisesReceived).card
    · refine Or.inr (Or.inr ⟨hcounts, hquorum, ?_⟩)
      rw [if_pos hquorum, hid, hactive]
      simp only [List.isEmpty_iff, ne_eq]
    · exact Or.inr (Or.inl ⟨hcounts, not_le.mp hquorum, by rw [if_neg hquorum]⟩)
  · have hguard : p ≠ (P.observeProposal fromUID p).proposalID ∨
        fromUID ∈ (P.observeProposal fromUID p).promisesReceived := by
      rw [observeProposal_promisesReceived]
      by_contra h
      rw [not_or, not_not] at h
      exact hcounts h
    exact Or.inl ⟨hcounts, by simp only [if_pos hguard]⟩

section Promise

variable {P : Proposer} {fromUID : Str} {p : ProposalID}

/-- A promise that does not count is only observed. -/
theorem receivePromise_of_not_counts (h : ¬P.Counts fromUID p) (r : ProposalID) (w : Str) :
    P.receivePromise fromUID p r w = (P.observeProposal fromUID p, []) := by
  rcases P.receivePromise_cases fromUID p r w with ⟨-, heq⟩ | ⟨hcounts, -⟩ | ⟨hcounts, -⟩
  · exact heq
  · exact absurd hcounts h
  · exact absurd hcounts h

/-- A promise that counts, without a quorum. -/
theorem receivePromise_of_short (hcounts : P.Counts fromUID p)
    (hshort : (insert fromUID P.promisesReceived).card < P.quorumSize) (r : ProposalID)
    (w : Str) :
    P.receivePromise fromUID p r w =
      ((P.observeProposal fromUID p).countPromise fromUID r w, []) := by
  rcases P.receivePromise_cases fromUID p r w with ⟨h, -⟩ | ⟨-, -, heq⟩ | ⟨-, hquorum, -⟩
  · exact absurd hcounts h
  · exact heq
  · exact absurd hquorum (not_le.mpr hshort)

/-- A promise that counts and makes up a quorum makes a leader. -/
theorem receivePromise_of_quorum (hcounts : P.Counts fromUID p)
    (hquorum : P.quorumSize ≤ (insert fromUID P.promisesReceived).card) (r : ProposalID)
    (w : Str) :
    P.receivePromise fromUID p r w =
      ({ (P.observeProposal fromUID p).countPromise fromUID r w with leader := true },
        onLeadershipAcquired ::
          if ((P.observeProposal fromUID p).countPromise fromUID r w).proposedValue ≠ [] ∧
              P.active then
            [sendAccept p ((P.observeProposal fromUID p).countPromise fromUID r w).proposedValue]
          else []) := by
  rcases P.receivePromise_cases fromUID p r w with ⟨h, -⟩ | ⟨-, hshort, -⟩ | ⟨-, -, heq⟩
  · exact absurd hcounts h
  · exact absurd hquorum (not_le.mpr hshort)
  · exact heq

end Promise

/-- The proposer leads after a promise if it did before, or if the promise completes a quorum. -/
theorem leader_receivePromise_iff (P : Proposer) (u : Str) (p r : ProposalID) (w : Str) :
    (P.receivePromise u p r w).1.leader ↔
      P.leader ∨ P.Counts u p ∧ P.quorumSize ≤ (insert u P.promisesReceived).card := by
  rcases P.receivePromise_cases u p r w with
    ⟨hignored, heq⟩ | ⟨-, hshort, heq⟩ | ⟨hcounts, hquorum, heq⟩
  · simp [heq, hignored]
  · simp [heq, not_le.mpr hshort]
  · simp [heq, hcounts, hquorum]

/-- A promise does not touch the activity. -/
theorem receivePromise_active (P : Proposer) (u : Str) (p r : ProposalID) (w : Str) :
    (P.receivePromise u p r w).1.active = P.active := by
  rcases P.receivePromise_cases u p r w with ⟨-, heq⟩ | ⟨-, -, heq⟩ | ⟨-, -, heq⟩ <;> simp [heq]

/-- A promise that is not counted is only observed. -/
theorem next_receivePromise_of_not_counts {P : Proposer} {u : Str} {p : ProposalID}
    (hignored : ¬P.Counts u p) (r : ProposalID) (w : Str) :
    machine.next P (.receivePromise u p r w) = P.observeProposal u p := by
  simp only [Machine.next, machine, receivePromise_of_not_counts hignored]

/-- A promise that is counted makes a leader if it completes a quorum. -/
theorem next_receivePromise_of_counts {P : Proposer} {u : Str} {p : ProposalID}
    (hcounts : P.Counts u p) (r : ProposalID) (w : Str) :
    machine.next P (.receivePromise u p r w) =
      { (P.observeProposal u p).countPromise u r w with
        leader := P.leader || decide (P.quorumSize ≤ (insert u P.promisesReceived).card) } := by
  simp only [Machine.next, machine]
  rcases lt_or_ge (insert u P.promisesReceived).card P.quorumSize with hshort | hquorum
  · rw [receivePromise_of_short hcounts hshort, countPromise_eq]
    simp [not_le.mpr hshort]
  · rw [receivePromise_of_quorum hcounts hquorum]
    simp [hquorum]

/-- What the constructor sets for good: the UID, the quorum size and the UID of the proposal ID. -/
theorem next_constants (P : Proposer) (call : ProposerCall) :
    (machine.next P call).proposerUID = P.proposerUID ∧
      (machine.next P call).quorumSize = P.quorumSize ∧
      (machine.next P call).proposalID.uid = P.proposalID.uid := by
  cases call with
  | prepare increment => cases increment <;> exact ⟨rfl, rfl, rfl⟩
  | setProposal v =>
    simp only [Machine.next, machine, setProposal]
    split <;> exact ⟨rfl, rfl, rfl⟩
  | receivePromise u p r w =>
    by_cases hcounts : P.Counts u p
    · simp [next_receivePromise_of_counts hcounts]
    · simp [next_receivePromise_of_not_counts hcounts]
  | receivePrepareNACK | receiveAcceptNACK | observeProposal =>
    simp [Machine.next, machine, receivePrepareNACK, receiveAcceptNACK]
  | resendAccept | setLeader | setActive => exact ⟨rfl, rfl, rfl⟩

/-- No call changes the UID of the proposer. -/
@[simp] theorem next_proposerUID (P : Proposer) (call : ProposerCall) :
    (machine.next P call).proposerUID = P.proposerUID := (P.next_constants call).1

/-- No call changes its quorum size. -/
@[simp] theorem next_quorumSize (P : Proposer) (call : ProposerCall) :
    (machine.next P call).quorumSize = P.quorumSize := (P.next_constants call).2.1

/-- No call changes the UID in its ID. -/
@[simp] theorem next_proposalID_uid (P : Proposer) (call : ProposerCall) :
    (machine.next P call).proposalID.uid = P.proposalID.uid := (P.next_constants call).2.2

/-- No call makes the 32-bit number wrap around: `prepare(true)` is not called at the largest. -/
def NoWrap (P : Proposer) (call : ProposerCall) : Prop :=
  call = .prepare true → P.proposalID.number ≠ UInt32.ofNat (UInt32.size - 1)

instance (P : Proposer) (call : ProposerCall) : Decidable (P.NoWrap call) :=
  inferInstanceAs (Decidable (_ → _))

/-- Without wrap-around the proposal ID never decreases. -/
theorem le_next_proposalID {P : Proposer} {call : ProposerCall} (hwrap : P.NoWrap call) :
    P.proposalID ≤ (machine.next P call).proposalID := by
  cases call with
  | prepare increment =>
    cases increment with
    | false => exact le_rfl
    | true => exact (ProposalID.lt_incrementNumber (hwrap rfl)).le
  | setProposal v =>
    simp only [Machine.next, machine, setProposal]
    split <;> exact le_rfl
  | receivePromise u p r w =>
    have hle := P.le_observeProposal u p
    by_cases hcounts : P.Counts u p
    · simpa [next_receivePromise_of_counts hcounts] using hle
    · rwa [next_receivePromise_of_not_counts hcounts]
  | receivePrepareNACK u _ id | receiveAcceptNACK u _ id | observeProposal u id =>
    exact P.le_observeProposal u id
  | resendAccept | setLeader | setActive => exact le_rfl

/-- A leader after a call was one before it and kept its promises, or the call is a promise that
is counted and completes a quorum. -/
theorem leader_next_cases {P : Proposer} {call : ProposerCall} (hset : call ≠ .setLeader true)
    (hleader : (machine.next P call).leader) :
    (P.leader ∧ P.promisesReceived ⊆ (machine.next P call).promisesReceived) ∨
      ∃ u p r w, call = .receivePromise u p r w ∧ P.Counts u p ∧
        P.quorumSize ≤ (machine.next P call).promisesReceived.card := by
  cases call with
  | prepare increment =>
    cases increment with
    | false => exact Or.inl ⟨hleader, subset_rfl⟩
    | true => simp [Machine.next, machine, prepare] at hleader
  | setProposal v =>
    simp only [Machine.next, machine, setProposal] at hleader ⊢
    split at hleader <;> rename_i hempty
    · rw [if_pos hempty]
      exact Or.inl ⟨hleader, subset_rfl⟩
    · rw [if_neg hempty]
      exact Or.inl ⟨hleader, subset_rfl⟩
  | receivePromise u p r w =>
    by_cases hcounts : P.Counts u p
    · rw [next_receivePromise_of_counts hcounts] at hleader ⊢
      rcases (Bool.or_eq_true _ _).mp hleader with hbefore | hquorum
      · exact Or.inl ⟨hbefore, by simp⟩
      · exact Or.inr ⟨u, p, r, w, rfl, hcounts, by simpa using hquorum⟩
    · rw [next_receivePromise_of_not_counts hcounts] at hleader ⊢
      exact Or.inl (by simpa using hleader)
  | receivePrepareNACK u p id | receiveAcceptNACK u p id | observeProposal u id =>
    have hsame : (P.observeProposal u id).leader := hleader
    have hpromises := P.observeProposal_promisesReceived u id
    rw [observeProposal_leader] at hsame
    exact Or.inl ⟨hsame, hpromises.ge⟩
  | resendAccept | setActive => exact Or.inl ⟨hleader, subset_rfl⟩
  | setLeader leader =>
    cases leader with
    | false => simp [Machine.next, machine, setLeader] at hleader
    | true => exact absurd rfl hset

/-- A promise held after a call was held before it under an ID that the call may change, or is
counted by the call. -/
theorem promisesReceived_next_cases {P : Proposer} {call : ProposerCall} {u : Str}
    (hu : u ∈ (machine.next P call).promisesReceived) :
    (u ∈ P.promisesReceived ∧ call ≠ .prepare true ∧
      ((machine.next P call).proposalID = P.proposalID ∨
        ∃ id, call.observed = some id ∧ P.Raises id)) ∨
      ∃ p r w, call = .receivePromise u p r w ∧ P.Counts u p ∧
        p = (machine.next P call).proposalID := by
  have hobserve : ∀ u' id, call.observed = some id →
      (P.observeProposal u' id).proposalID = P.proposalID ∨
        ∃ id, call.observed = some id ∧ P.Raises id := by
    intro u' id hobserved
    by_cases hraises : P.Raises id
    · exact Or.inr ⟨id, hobserved, hraises⟩
    · exact Or.inl (by rw [P.observeProposal_of_not_raises u' id hraises])
  cases call with
  | prepare increment =>
    cases increment with
    | false => exact Or.inl ⟨hu, by simp, Or.inl rfl⟩
    | true => simp [Machine.next, machine, prepare] at hu
  | setProposal v =>
    simp only [Machine.next, machine, setProposal] at hu ⊢
    split at hu <;> rename_i hempty
    · rw [if_pos hempty]
      exact Or.inl ⟨hu, by simp, Or.inl rfl⟩
    · rw [if_neg hempty]
      exact Or.inl ⟨hu, by simp, Or.inl rfl⟩
  | receivePromise u' p r w =>
    have hobserved := hobserve u' p rfl
    by_cases hcounts : P.Counts u' p
    · rw [next_receivePromise_of_counts hcounts] at hu ⊢
      simp only [countPromise_promisesReceived, observeProposal_promisesReceived,
        Finset.mem_insert, countPromise_proposalID] at hu ⊢
      rcases hu with rfl | hu
      · exact Or.inr ⟨p, r, w, rfl, hcounts, hcounts.1⟩
      · exact Or.inl ⟨hu, by simp, hobserved⟩
    · rw [next_receivePromise_of_not_counts hcounts] at hu ⊢
      exact Or.inl ⟨by simpa using hu, by simp, hobserved⟩
  | receivePrepareNACK u' p id | receiveAcceptNACK u' p id | observeProposal u' id =>
    have hsame : u ∈ (P.observeProposal u' id).promisesReceived := hu
    rw [observeProposal_promisesReceived] at hsame
    exact Or.inl ⟨hsame, by simp, hobserve u' id rfl⟩
  | resendAccept | setActive | setLeader => exact Or.inl ⟨hu, by simp, Or.inl rfl⟩

/-- The value and the accepted ID it was taken over with stay, or a first value is proposed, or a
counted promise has a larger accepted ID. -/
theorem adopts_cases (P : Proposer) (call : ProposerCall) :
    ((machine.next P call).lastAcceptedID = P.lastAcceptedID ∧
      (machine.next P call).proposedValue = P.proposedValue) ∨
    (P.proposedValue = [] ∧ (machine.next P call).lastAcceptedID = P.lastAcceptedID) ∨
    ∃ u p r w, call = .receivePromise u p r w ∧ P.Counts u p ∧
      (¬P.lastAcceptedID.isValid ∨ P.lastAcceptedID < r) ∧
      (machine.next P call).lastAcceptedID = r ∧
      (machine.next P call).proposedValue = if w ≠ [] then w else P.proposedValue := by
  cases call with
  | prepare increment => cases increment <;> exact Or.inl ⟨rfl, rfl⟩
  | setProposal v =>
    simp only [Machine.next, machine, setProposal, List.isEmpty_iff]
    split
    · rename_i hempty
      exact Or.inr (Or.inl ⟨hempty, rfl⟩)
    · exact Or.inl ⟨rfl, rfl⟩
  | receivePromise u p r w =>
    by_cases hcounts : P.Counts u p
    · rw [next_receivePromise_of_counts hcounts]
      simp only [countPromise_lastAcceptedID, countPromise_proposedValue,
        observeProposal_lastAcceptedID, observeProposal_proposedValue]
      by_cases hlarger : ¬P.lastAcceptedID.isValid ∨ P.lastAcceptedID < r
      · refine Or.inr (Or.inr ⟨u, p, r, w, rfl, hcounts, hlarger, if_pos hlarger, ?_⟩)
        simp only [hlarger, true_and]
      · refine Or.inl ⟨if_neg hlarger, ?_⟩
        simp only [hlarger, false_and, if_false]
    · rw [next_receivePromise_of_not_counts hcounts]
      exact Or.inl (by simp)
  | receivePrepareNACK u p id | receiveAcceptNACK u p id | observeProposal u id =>
    exact Or.inl ⟨P.observeProposal_lastAcceptedID u id, P.observeProposal_proposedValue u id⟩
  | resendAccept | setActive | setLeader => exact Or.inl ⟨rfl, rfl⟩

/-- The accepted ID that a counted promise reports is not above the one held after it. -/
theorem le_lastAcceptedID_of_counts {P : Proposer} {u : Str} {p : ProposalID}
    (hcounts : P.Counts u p) (r : ProposalID) (w : Str) :
    r ≤ (machine.next P (.receivePromise u p r w)).lastAcceptedID := by
  rw [next_receivePromise_of_counts hcounts]
  simp only [countPromise_lastAcceptedID]
  split_ifs with hlarger
  · exact le_rfl
  · rw [not_or, not_lt] at hlarger
    exact hlarger.2

/-- Every prepare request carries the proposal ID that the proposer has after the call. -/
theorem of_sendPrepare_mem {P : Proposer} {call : ProposerCall} {p : ProposalID}
    (hsent : sendPrepare p ∈ machine.emits P call) : p = (machine.next P call).proposalID := by
  cases call with
  | prepare increment =>
    cases increment with
    | false =>
      have hsame : P.active ∧ p = P.proposalID := by
        simpa [Machine.emits, machine, prepare] using hsent
      exact hsame.2
    | true => simpa [Machine.emits, Machine.next, machine, prepare] using hsent
  | setProposal v =>
    simp only [Machine.emits, machine, setProposal] at hsent
    split_ifs at hsent <;> simp at hsent
  | receivePromise u p' r w =>
    simp only [Machine.emits, machine] at hsent
    rcases P.receivePromise_cases u p' r w with ⟨-, heq⟩ | ⟨-, -, heq⟩ | ⟨-, -, heq⟩
    · simp [heq] at hsent
    · simp [heq] at hsent
    · rw [heq] at hsent
      split_ifs at hsent <;> simp at hsent
  | resendAccept =>
    simp only [Machine.emits, machine, resendAccept] at hsent
    split_ifs at hsent <;> simp at hsent
  | receivePrepareNACK | receiveAcceptNACK | observeProposal | setLeader | setActive =>
    simp [Machine.emits, machine] at hsent

/-- An accept request is sent in one of three ways: for a counted promise, for a first value
proposed to a leader, or again. In each it shows the state after the call, that of an active
leader. -/
theorem sendAccept_mem_cases {P : Proposer} {call : ProposerCall} {p : ProposalID} {v : Str}
    (hsent : sendAccept p v ∈ machine.emits P call) :
    (p = (machine.next P call).proposalID ∧ v = (machine.next P call).proposedValue ∧
      (machine.next P call).leader ∧ (machine.next P call).active) ∧
    ((∃ u r w, call = .receivePromise u p r w ∧ P.Counts u p ∧ v ≠ []) ∨
      (call = .setProposal v ∧ P.leader ∧ P.proposedValue = []) ∨
      (call = .resendAccept ∧ P.leader ∧ P.proposedValue ≠ [] ∧ v = P.proposedValue)) := by
  cases call with
  | prepare increment =>
    simp only [Machine.emits, machine, prepare] at hsent
    split_ifs at hsent <;> simp at hsent
  | setProposal value =>
    simp only [Machine.emits, Machine.next, machine, setProposal] at hsent ⊢
    split_ifs at hsent ⊢ with hempty hleads
    · simp only [List.mem_singleton, sendAccept.injEq] at hsent
      obtain ⟨rfl, rfl⟩ := hsent
      exact ⟨⟨rfl, rfl, hleads⟩, Or.inr (Or.inl ⟨rfl, hleads.1, List.isEmpty_iff.mp hempty⟩)⟩
    · simp at hsent
    · simp at hsent
  | receivePromise u p' r w =>
    simp only [Machine.emits, machine] at hsent
    rcases P.receivePromise_cases u p' r w with ⟨-, heq⟩ | ⟨-, -, heq⟩ | ⟨hcounts, hquorum, heq⟩
    · simp [heq] at hsent
    · simp [heq] at hsent
    · rw [heq] at hsent
      simp only [List.mem_cons, reduceCtorEq, false_or] at hsent
      split_ifs at hsent with hsends
      · simp only [List.mem_singleton, sendAccept.injEq] at hsent
        obtain ⟨rfl, rfl⟩ := hsent
        rw [next_receivePromise_of_counts hcounts]
        refine ⟨⟨?_, rfl, by simp [hquorum], by simpa using hsends.2⟩,
          Or.inl ⟨u, r, w, rfl, hcounts, hsends.1⟩⟩
        rw [countPromise_proposalID]
        exact hcounts.1
      · simp at hsent
  | receivePrepareNACK | receiveAcceptNACK | observeProposal | setLeader | setActive =>
    simp [Machine.emits, machine] at hsent
  | resendAccept =>
    simp only [Machine.emits, machine, resendAccept] at hsent
    split_ifs at hsent with hsends
    · simp only [List.mem_singleton, sendAccept.injEq] at hsent
      obtain ⟨hleader, hactive, hvalue⟩ := hsends
      rw [List.isEmpty_iff] at hvalue
      exact ⟨⟨hsent.1, hsent.2, hleader, hactive⟩, Or.inr (Or.inr ⟨rfl, hleader, hvalue, hsent.2⟩)⟩
    · simp at hsent

/-- Every accept request carries the proposal ID and the value that the proposer has after the
call, and is sent by an active leader. -/
theorem of_sendAccept_mem {P : Proposer} {call : ProposerCall} {p : ProposalID} {v : Str}
    (hsent : sendAccept p v ∈ machine.emits P call) :
    p = (machine.next P call).proposalID ∧ v = (machine.next P call).proposedValue ∧
      (machine.next P call).leader ∧ (machine.next P call).active :=
  (sendAccept_mem_cases hsent).1

/-- The leader flag is lowered by `prepare(true)` and `setLeader(false)` only. -/
theorem leader_next_of_leader {P : Proposer} {call : ProposerCall} (hleader : P.leader)
    (hprepare : call ≠ .prepare true) (hset : call ≠ .setLeader false) :
    (machine.next P call).leader := by
  cases call with
  | prepare increment =>
    cases increment with
    | false => exact hleader
    | true => exact absurd rfl hprepare
  | setProposal v =>
    simp only [Machine.next, machine, setProposal]
    split <;> exact hleader
  | receivePromise u p r w =>
    by_cases hcounts : P.Counts u p
    · simp [next_receivePromise_of_counts hcounts, hleader]
    · simp [next_receivePromise_of_not_counts hcounts, hleader]
  | receivePrepareNACK | receiveAcceptNACK | observeProposal =>
    simpa [Machine.next, machine, receivePrepareNACK, receiveAcceptNACK] using hleader
  | resendAccept | setActive => exact hleader
  | setLeader leader =>
    cases leader with
    | false => exact absurd rfl hset
    | true => rfl

end Proposer

end CppPaxos
