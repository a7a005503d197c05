import CppPaxos.ProposerBallots

/-!
# The value of an accept request

A proposer keeps one value and the accepted ID with which it was reported. Both survive a new
ballot. A promise with a larger accepted ID replaces them, and a value proposed by the owner
is taken only while there is none. So the value sent is the one with the largest accepted ID
among all counted promises, or the first one proposed if no promise has reported any.
-/

namespace CppPaxos

open Machines MessengerCall

/-- The first value proposed by the owner. -/
def firstProposed (calls : List ProposerCall) : Option Str :=
  (calls.filterMap fun
    | .setProposal value => some value
    | _ => none).head?

/-- The report of a promise: nothing accepted, or a valid ID with a value. -/
def WellReported : ProposerCall → Prop
  | .receivePromise _ _ prevAcceptedID prevAcceptedValue =>
    (prevAcceptedID = .empty ∧ prevAcceptedValue = []) ∨
      (prevAcceptedID.isValid ∧ prevAcceptedValue ≠ [])
  | .setProposal value => value ≠ []
  | _ => True

instance : DecidablePred WellReported
  | .receivePromise .. => inferInstanceAs (Decidable (_ ∨ _))
  | .setProposal value => inferInstanceAs (Decidable (value ≠ []))
  | .prepare _ | .receivePrepareNACK .. | .receiveAcceptNACK .. | .observeProposal ..
  | .resendAccept | .setLeader _ | .setActive _ => isTrue trivial

namespace Proposer

/-- What a call reports, if it is a promise that is counted. -/
def countedReport (P : Proposer) : ProposerCall → Option (ProposalID × Str)
  | .receivePromise fromUID proposalID prevAcceptedID prevAcceptedValue =>
    if P.Counts fromUID proposalID then some (prevAcceptedID, prevAcceptedValue) else none
  | _ => none

/-- A promise counted in the run, in whichever ballot, reported this pair. -/
def Counted (P : Proposer) (calls : List ProposerCall) (r : ProposalID) (w : Str) : Prop :=
  ∃ pre call, pre ++ [call] <+: calls ∧ (machine.run P pre).countedReport call = some (r, w)

/-- At each accept request of the run, its value is the one reported with the greatest ID among
the promises counted so far, or the first one proposed if none of them has reported a valid ID. -/
def SelectsValue (P : Proposer) (calls : List ProposerCall) : Prop :=
  ∀ pre call, pre ++ [call] <+: calls → ∀ p v,
    sendAccept p v ∈ machine.emits (machine.run P pre) call →
      (∃ r, r.isValid ∧ (∀ r' w, P.Counted (pre ++ [call]) r' w → r' ≤ r) ∧
        P.Counted (pre ++ [call]) r v ∧ ∀ w, P.Counted (pre ++ [call]) r w → w = v) ∨
      ((∀ r w, P.Counted (pre ++ [call]) r w → ¬r.isValid) ∧
        firstProposed (pre ++ [call]) = some v)

/-- One more call counts one more promise, or none. -/
theorem counted_concat_iff {P : Proposer} {calls : List ProposerCall} {call : ProposerCall}
    {r : ProposalID} {w : Str} :
    P.Counted (calls ++ [call]) r w ↔
      P.Counted calls r w ∨ (machine.run P calls).countedReport call = some (r, w) :=
  Machine.exists_concat_iff

/-- What is counted has been reported. -/
theorem Counted.mem_reports {P : Proposer} {calls : List ProposerCall} {r : ProposalID} {w : Str}
    (h : P.Counted calls r w) : (r, w) ∈ reports calls := by
  obtain ⟨pre, call, ⟨post, rfl⟩, hreport⟩ := h
  cases call with
  | receivePromise u p r' w' =>
    rw [countedReport, Option.ite_none_right_eq_some, Option.some_inj] at hreport
    rw [← hreport.2]
    simp [reports]
  | _ => cases hreport

/-- The value and the accepted ID that the proposer holds are those of the greatest counted report,
or the first value proposed and no valid ID. -/
structure Selected (P : Proposer) (calls : List ProposerCall) (Q : Proposer) : Prop where
  le_last : ∀ r w, P.Counted calls r w → r ≤ Q.lastAcceptedID
  value : (Q.lastAcceptedID.isValid ∧ Q.proposedValue ≠ [] ∧
      P.Counted calls Q.lastAcceptedID Q.proposedValue) ∨
    (Q.lastAcceptedID = .empty ∧
      firstProposed calls = if Q.proposedValue = [] then none else some Q.proposedValue)

/-- The first value that is proposed stays the first one. -/
theorem firstProposed_concat (calls : List ProposerCall) (call : ProposerCall) :
    firstProposed (calls ++ [call]) = (firstProposed calls).or (firstProposed [call]) := by
  simp [firstProposed, List.filterMap_append, List.head?_append]

/-- A counted promise with a larger accepted ID replaces the pair that is held. -/
theorem next_of_counts {Q : Proposer} {u : Str} {p : ProposalID} (hcounts : Q.Counts u p)
    (r : ProposalID) (w : Str) :
    ((machine.next Q (.receivePromise u p r w)).lastAcceptedID =
        if ¬Q.lastAcceptedID.isValid ∨ Q.lastAcceptedID < r then r else Q.lastAcceptedID) ∧
      (machine.next Q (.receivePromise u p r w)).proposedValue =
        if (¬Q.lastAcceptedID.isValid ∨ Q.lastAcceptedID < r) ∧ w ≠ [] then w
        else Q.proposedValue := by
  rw [next_receivePromise_of_counts hcounts]
  simp [countPromise_lastAcceptedID, countPromise_proposedValue]

section Step

variable {P Q : Proposer} {calls : List ProposerCall} (hQ : machine.run P calls = Q)
  (h : P.Selected calls Q)

include hQ h

/-- A call that is no counted promise and proposes nothing leaves the selection as it is. -/
theorem Selected.of_eq {call : ProposerCall} (hreport : Q.countedReport call = none)
    (hfirst : firstProposed [call] = none)
    (hlast : (machine.next Q call).lastAcceptedID = Q.lastAcceptedID)
    (hvalue : (machine.next Q call).proposedValue = Q.proposedValue) :
    P.Selected (calls ++ [call]) (machine.next Q call) := by
  have hcounted : ∀ r w, P.Counted (calls ++ [call]) r w ↔ P.Counted calls r w := by
    intro r w
    rw [counted_concat_iff, hQ, hreport]
    simp
  have hsame : firstProposed (calls ++ [call]) = firstProposed calls := by
    rw [firstProposed_concat, hfirst, Option.or_none]
  constructor
  · simpa only [hcounted, hlast] using h.le_last
  · simpa only [hcounted, hlast, hvalue, hsame] using h.value

omit hQ in
/-- A value is taken from the owner only if there is none. -/
theorem Selected.setProposal {v : Str} (hv : v ≠ []) :
    P.Selected (calls ++ [.setProposal v]) (machine.next Q (.setProposal v)) := by
  have hcounted : ∀ r w, P.Counted (calls ++ [.setProposal v]) r w ↔ P.Counted calls r w := by
    intro r w
    rw [counted_concat_iff]
    simp [countedReport]
  have hfirst : firstProposed (calls ++ [.setProposal v]) = (firstProposed calls).or (some v) :=
    firstProposed_concat _ _
  have hlast : (machine.next Q (.setProposal v)).lastAcceptedID = Q.lastAcceptedID := by
    simp only [Machine.next, machine, Proposer.setProposal]
    split <;> rfl
  have hvalue : (machine.next Q (.setProposal v)).proposedValue =
      if Q.proposedValue = [] then v else Q.proposedValue := by
    simp only [Machine.next, machine, Proposer.setProposal, List.isEmpty_iff]
    split <;> rfl
  refine ⟨by simpa only [hcounted, hlast] using h.le_last, ?_⟩
  rw [hlast, hvalue, hfirst]
  rcases h.value with ⟨hvalid, hne, hheld⟩ | ⟨hnone, hproposed⟩
  · rw [if_neg hne, hcounted]
    exact Or.inl ⟨hvalid, hne, hheld⟩
  · refine Or.inr ⟨hnone, ?_⟩
    rw [hproposed]
    by_cases hempty : Q.proposedValue = []
    · rw [if_pos hempty, if_pos hempty, if_neg hv]
      rfl
    · rw [if_neg hempty, if_neg hempty, if_neg hempty]
      rfl

/-- A counted promise is selected if its accepted ID is the greatest so far. -/
theorem Selected.receivePromise {u : Str} {p r : ProposalID} {w : Str} (hcounts : Q.Counts u p)
    (hreported : WellReported (.receivePromise u p r w)) :
    P.Selected (calls ++ [.receivePromise u p r w])
      (machine.next Q (.receivePromise u p r w)) := by
  have hcounted : ∀ r' w', P.Counted (calls ++ [.receivePromise u p r w]) r' w' ↔
      P.Counted calls r' w' ∨ r = r' ∧ w = w' := by
    intro r' w'
    rw [counted_concat_iff, hQ, countedReport, if_pos hcounts, Option.some_inj, Prod.mk.injEq]
  have hfirst : firstProposed (calls ++ [.receivePromise u p r w]) = firstProposed calls := by
    rw [firstProposed_concat]
    exact Option.or_none
  obtain ⟨hlast, hvalue⟩ := next_of_counts hcounts r w
  have hupper : ∀ last, Q.lastAcceptedID ≤ last → r ≤ last →
      ∀ r' w', P.Counted (calls ++ [.receivePromise u p r w]) r' w' → r' ≤ last := by
    intro last hold hnew r' w' hcount
    rcases (hcounted r' w').mp hcount with hbefore | ⟨rfl, -⟩
    · exact (h.le_last r' w' hbefore).trans hold
    · exact hnew
  by_cases hlarger : ¬Q.lastAcceptedID.isValid ∨ Q.lastAcceptedID < r
  · rw [if_pos hlarger] at hlast
    simp only [hlarger, true_and] at hvalue
    have hle : Q.lastAcceptedID ≤ r := by
      rcases hlarger with hinvalid | hlt
      · rcases h.value with ⟨hvalid, -⟩ | ⟨hnone, -⟩
        · exact absurd hvalid hinvalid
        · rw [hnone]
          exact ProposalID.empty_le r
      · exact hlt.le
    refine ⟨by rw [hlast]; exact hupper r hle le_rfl, ?_⟩
    rw [hlast, hvalue, hfirst]
    rcases hreported with ⟨rfl, rfl⟩ | ⟨hvalid, hw⟩
    · -- nothing was accepted, and nothing had been reported before
      have hnone : Q.lastAcceptedID = .empty := le_antisymm hle (ProposalID.empty_le _)
      rcases h.value with ⟨hvalid, -⟩ | ⟨-, hproposed⟩
      · rw [hnone] at hvalid
        exact absurd hvalid Bool.false_ne_true
      · exact Or.inr ⟨rfl, by simpa using hproposed⟩
    · rw [if_pos hw, hcounted]
      exact Or.inl ⟨hvalid, hw, Or.inr ⟨rfl, rfl⟩⟩
  · rw [if_neg hlarger] at hlast
    rw [if_neg fun hboth => hlarger hboth.1] at hvalue
    have hle : r ≤ Q.lastAcceptedID := by
      rw [not_or, not_lt] at hlarger
      exact hlarger.2
    refine ⟨by rw [hlast]; exact hupper _ le_rfl hle, ?_⟩
    rw [hlast, hvalue, hfirst, hcounted]
    rcases h.value with ⟨hvalid, hne, hheld⟩ | hnone
    · exact Or.inl ⟨hvalid, hne, Or.inl hheld⟩
    · exact Or.inr hnone

/-- Every call keeps the selection. -/
theorem Selected.next {call : ProposerCall} (hcall : WellReported call) :
    P.Selected (calls ++ [call]) (machine.next Q call) := by
  cases call with
  | prepare increment => cases increment <;> exact h.of_eq hQ rfl rfl rfl rfl
  | setProposal v => exact h.setProposal hcall
  | receivePromise u p r w =>
    by_cases hcounts : Q.Counts u p
    · exact h.receivePromise hQ hcounts hcall
    · have hnext := next_receivePromise_of_not_counts hcounts r w
      refine h.of_eq hQ (if_neg hcounts) rfl ?_ ?_
      · rw [hnext, observeProposal_lastAcceptedID]
      · rw [hnext, observeProposal_proposedValue]
  | receivePrepareNACK u p id | receiveAcceptNACK u p id | observeProposal u id =>
    exact h.of_eq hQ rfl rfl (Q.observeProposal_lastAcceptedID u id)
      (Q.observeProposal_proposedValue u id)
  | resendAccept | setLeader | setActive => exact h.of_eq hQ rfl rfl rfl rfl

end Step

/-- **Value selection.** In every run of a new proposer in which each promise reports nothing
accepted or a valid ID with a value, reports of one ID agree on the value, and no empty value is
proposed, an accept request carries the value reported with the greatest ID so far, or the first
value proposed if no valid ID was reported. -/
theorem run_selectsValue {proposerUID : Str} {quorumSize : ℕ} {leader active : Bool}
    {calls : List ProposerCall} (hreported : ∀ call ∈ calls, WellReported call)
    (hagree : ∀ x ∈ reports calls, ∀ y ∈ reports calls, x.1 = y.1 → x.2 = y.2) :
    (new proposerUID quorumSize leader active).SelectsValue calls := by
  generalize hnew : new proposerUID quorumSize leader active = P
  have hstart : P.Selected [] P := by
    rw [← hnew]
    refine ⟨?_, Or.inr ⟨rfl, rfl⟩⟩
    rintro r w ⟨pre, call, hpre, -⟩
    exact absurd (List.prefix_nil.mp hpre) (by simp)
  have hadmits : machine.Admits (fun _ call => WellReported call) P calls :=
    Machine.admits_const_iff.mpr hreported
  intro pre call hpre p v hsent
  have hselected : P.Selected (pre ++ [call]) (machine.run P (pre ++ [call])) :=
    (hadmits.of_prefix hpre).induction (I := P.Selected) hstart
      fun _ _ hI hcall => hI.next rfl hcall
  rw [Machine.run_concat] at hselected
  obtain ⟨⟨-, hv, -⟩, hcases⟩ := sendAccept_mem_cases hsent
  have hne : v ≠ [] := by
    rcases hcases with ⟨u, r, w, -, -, hv⟩ | ⟨rfl, -, -⟩ | ⟨-, -, hvalue, hsame⟩
    · exact hv
    · exact hreported (.setProposal v) (hpre.subset (by simp))
    · rwa [hsame]
  rw [hv] at hne ⊢
  rcases hselected.value with ⟨hvalid, -, hheld⟩ | ⟨hnone, hproposed⟩
  · refine Or.inl ⟨_, hvalid, hselected.le_last, hheld, fun w hw => ?_⟩
    have hsub : reports (pre ++ [call]) ⊆ reports calls := (hpre.filterMap _).subset
    exact hagree _ (hsub hw.mem_reports) _ (hsub hheld.mem_reports) rfl
  · refine Or.inr ⟨fun r w hcount hvalid => ?_, by rwa [if_neg hne] at hproposed⟩
    have hle := hselected.le_last r w hcount
    rw [hnone] at hle
    rw [le_antisymm hle (ProposalID.empty_le r)] at hvalid
    exact Bool.false_ne_true hvalid

/-- A value is proposed, and a promise of an earlier ballot has reported another one. -/
theorem run_selectsValue_reported_before :
    (new [97] 2 false true).SelectsValue
      [.setProposal [120], .prepare true, .receivePromise [49] ⟨1, [97]⟩ ⟨0, [98]⟩ [121],
        .prepare true, .receivePromise [49] ⟨2, [97]⟩ .empty [],
        .receivePromise [50] ⟨2, [97]⟩ .empty []] :=
  run_selectsValue (by decide) (by decide)

end Proposer

end CppPaxos
