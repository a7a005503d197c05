import CppPaxos.Messenger
import CppPaxos.Library.Machine

/-!
# The learner

`paxos/learner.h` and `paxos/learner.cpp`. A learner keeps a count for each proposal ID
and the latest ID of each acceptor. Two details of `receiveAccepted` matter: an entry
that `operator[]` creates has counts that nothing has initialised, and the iterator to
the acceptor's old ID is read after that ID has been overwritten.
-/

namespace CppPaxos

open Machines MessengerCall

/-- `struct Learner::Proposal`. The counts are unbounded here: overflow of `int` is undefined. -/
structure Learner.Proposal where
  /-- `m_acceptCount`: how often the proposal was accepted. -/
  acceptCount : Int
  /-- `m_retentionCount`: how many acceptors still hold it. -/
  retentionCount : Int
  /-- `m_value`. -/
  value : Str
  deriving DecidableEq

/-- `class Learner`. A `std::map` is the partial function from its keys to its values. -/
structure Learner where
  /-- `m_quorumSize`. -/
  quorumSize : Int
  /-- `m_proposals`. -/
  proposals : ProposalID → Option Learner.Proposal
  /-- `m_acceptors`: the latest proposal ID of each acceptor. -/
  acceptors : Str → Option ProposalID
  /-- `m_finalValue`. -/
  finalValue : Str
  /-- `m_finalProposalID`. -/
  finalProposalID : ProposalID
  /-- `m_active`. -/
  active : Bool

/-- A call of `receiveAccepted`, together with the contents of the memory in which the call may
default-construct a `Proposal`. -/
structure Report where
  fromUID : Str
  proposalID : ProposalID
  acceptedValue : Str
  /-- What `m_acceptCount` holds in an entry that `operator[]` creates. -/
  unsetAcceptCount : Int
  /-- What `m_retentionCount` holds in an entry that `operator[]` creates. -/
  unsetRetentionCount : Int
  deriving DecidableEq

namespace Learner

/-- The constructor. It leaves `m_active` unset, so its first content is an argument. -/
def new (quorumSize : Int) (active : Bool) : Learner where
  quorumSize := quorumSize
  proposals := fun _ => none
  acceptors := fun _ => none
  finalValue := []
  finalProposalID := .empty
  active := active

/-- `isComplete`. -/
def isComplete (L : Learner) : Bool := ¬L.finalValue.isEmpty

/-- The block of `receiveAccepted` that updates the old proposal, for the ID that `itrOld->second`
reads. -/
def updateOldProposal (L : Learner) (second : ProposalID) (unset : Proposal) : Learner :=
  let oldProposal := (L.proposals second).getD unset
  let oldProposal := { oldProposal with retentionCount := oldProposal.retentionCount - 1 }
  if oldProposal.retentionCount = 0 then
    { L with proposals := Function.update L.proposals second none }
  else { L with proposals := Function.update L.proposals second (some oldProposal) }

/-- The block of `receiveAccepted` that updates the new proposal. -/
def updateNewProposal (L : Learner) (proposalID : ProposalID) (acceptedValue : Str) :
    Learner × List MessengerCall :=
  match L.proposals proposalID with
  | none =>
    ({ L with
        proposals := Function.update L.proposals proposalID (some ⟨0, 0, acceptedValue⟩) }, [])
  | some itrNew =>
    let itrNew := { itrNew with
      acceptCount := itrNew.acceptCount + 1
      retentionCount := itrNew.retentionCount + 1 }
    if itrNew.acceptCount ≥ L.quorumSize then
      ({ L with
          finalProposalID := proposalID
          finalValue := acceptedValue
          proposals := fun _ => none
          acceptors := fun _ => none },
        [onResolution proposalID acceptedValue])
    else ({ L with proposals := Function.update L.proposals proposalID (some itrNew) }, [])

/-- `receiveAccepted`. `itrOld` stays at the key `fromUID`, whose ID has been overwritten when
`itrOld->second` is read. -/
def receiveAccepted (L : Learner) (r : Report) : Learner × List MessengerCall :=
  if L.isComplete then (L, [])
  else if ¬r.proposalID.isValid then (L, [])
  else
    let itrOld := L.acceptors r.fromUID
    if itrOld.any fun second => r.proposalID < second ∨ r.proposalID = second then (L, [])
    else
      let L := { L with acceptors := Function.update L.acceptors r.fromUID (some r.proposalID) }
      let L :=
        match itrOld, L.acceptors r.fromUID with
        | some _, some second =>
          L.updateOldProposal second ⟨r.unsetAcceptCount, r.unsetRetentionCount, []⟩
        | _, _ => L
      L.updateNewProposal r.proposalID r.acceptedValue

/-- `setActive`. -/
def setActive (L : Learner) (active : Bool) : Learner := { L with active := active }

/-- The learner as a machine that receives reports. -/
def machine : Machine Learner Report MessengerCall where
  step L r := L.receiveAccepted r

/-- A step of the machine is a call of `receiveAccepted`. -/
theorem next_eq (L : Learner) (r : Report) : machine.next L r = (L.receiveAccepted r).1 := rfl

/-- So is what it emits. -/
theorem emits_eq (L : Learner) (r : Report) : machine.emits L r = (L.receiveAccepted r).2 := rfl

/-! ### What a learner does with a report -/

/-- The report passes the three guards of `receiveAccepted`. -/
def Takes (L : Learner) (r : Report) : Prop :=
  ¬L.isComplete ∧ r.proposalID.isValid ∧ ∀ second ∈ L.acceptors r.fromUID, second < r.proposalID

/-- The acceptor of the report has reported before, so the first update block is entered. -/
def Moves (L : Learner) (r : Report) : Prop := (L.acceptors r.fromUID).isSome

instance (L : Learner) (r : Report) : Decidable (L.Takes r) :=
  inferInstanceAs (Decidable (_ ∧ _ ∧ _))

instance (L : Learner) (r : Report) : Decidable (L.Moves r) :=
  inferInstanceAs (Decidable (_ = _))

/-- The entry of the reported ID that the second update block finds. -/
def found (L : Learner) (r : Report) : Option Proposal :=
  if L.Moves r then
    let entry := (L.proposals r.proposalID).getD ⟨r.unsetAcceptCount, r.unsetRetentionCount, []⟩
    if entry.retentionCount = 1 then none
    else some { entry with retentionCount := entry.retentionCount - 1 }
  else L.proposals r.proposalID

/-- The learner with the report's ID noted for its acceptor and an entry set for that ID. -/
def noted (L : Learner) (r : Report) (entry : Proposal) : Learner :=
  { L with
    acceptors := Function.update L.acceptors r.fromUID (some r.proposalID)
    proposals := Function.update L.proposals r.proposalID (some entry) }

/-- The learner after it has resolved with the report. -/
def resolved (L : Learner) (r : Report) : Learner :=
  { L with
    finalProposalID := r.proposalID
    finalValue := r.acceptedValue
    proposals := fun _ => none
    acceptors := fun _ => none }

/-- The first update block leaves the entry that the second one finds. -/
theorem updateOldProposal_eq (L : Learner) (p : ProposalID) (unset : Proposal) :
    L.updateOldProposal p unset =
      { L with
        proposals := Function.update L.proposals p
          (if ((L.proposals p).getD unset).retentionCount = 1 then none
          else some { (L.proposals p).getD unset with
            retentionCount := ((L.proposals p).getD unset).retentionCount - 1 }) } := by
  unfold updateOldProposal
  generalize (L.proposals p).getD unset = entry
  by_cases hlast : entry.retentionCount = 1
  · simp [hlast]
  · have hsub : ¬entry.retentionCount - 1 = 0 := by omega
    simp [hlast, hsub]

/-- A report that passes the guards: its ID is noted, then the entry found for it is replaced. -/
theorem receiveAccepted_of_takes {L : Learner} {r : Report} (htakes : L.Takes r) :
    L.receiveAccepted r =
      { L with
        acceptors := Function.update L.acceptors r.fromUID (some r.proposalID)
        proposals := Function.update L.proposals r.proposalID (L.found r) }.updateNewProposal
          r.proposalID r.acceptedValue := by
  obtain ⟨hincomplete, hvalid, hrises⟩ := htakes
  unfold receiveAccepted
  rw [if_neg hincomplete, if_neg (not_not.mpr hvalid)]
  dsimp only
  cases hold : L.acceptors r.fromUID with
  | none =>
    have hfound : L.found r = L.proposals r.proposalID := by simp [found, Moves, hold]
    simp [hfound]
  | some second =>
    have hlt : second < r.proposalID := hrises second hold
    have hguard : ¬(r.proposalID < second ∨ r.proposalID = second) := by
      rw [not_or]
      exact ⟨hlt.not_gt, hlt.ne'⟩
    simp only [Option.any_some, hguard, decide_false, Bool.false_eq_true, if_false,
      Function.update_self]
    rw [updateOldProposal_eq]
    simp only [found, Moves, hold, Option.isSome_some, if_true]

/-- A report is ignored, or it starts the entry of its ID, or it resolves, or it is counted. -/
theorem receiveAccepted_cases (L : Learner) (r : Report) :
    (¬L.Takes r ∧ L.receiveAccepted r = (L, [])) ∨
    (L.Takes r ∧ L.found r = none ∧
      L.receiveAccepted r = (L.noted r ⟨0, 0, r.acceptedValue⟩, [])) ∨
    (∃ e, L.Takes r ∧ L.found r = some e ∧ L.quorumSize ≤ e.acceptCount + 1 ∧
      L.receiveAccepted r = (L.resolved r, [onResolution r.proposalID r.acceptedValue])) ∨
    ∃ e, L.Takes r ∧ L.found r = some e ∧ e.acceptCount + 1 < L.quorumSize ∧
      L.receiveAccepted r =
        (L.noted r { e with
          acceptCount := e.acceptCount + 1
          retentionCount := e.retentionCount + 1 }, []) := by
  by_cases htakes : L.Takes r
  · have heq := receiveAccepted_of_takes htakes
    cases hfound : L.found r with
    | none =>
      refine Or.inr (Or.inl ⟨htakes, rfl, ?_⟩)
      simp [heq, hfound, updateNewProposal, noted]
    | some e =>
      by_cases hquorum : L.quorumSize ≤ e.acceptCount + 1
      · refine Or.inr (Or.inr (Or.inl ⟨e, htakes, rfl, hquorum, ?_⟩))
        simp [heq, hfound, updateNewProposal, resolved, hquorum]
      · refine Or.inr (Or.inr (Or.inr ⟨e, htakes, rfl, not_le.mp hquorum, ?_⟩))
        simp [heq, hfound, updateNewProposal, noted, hquorum]
  · refine Or.inl ⟨htakes, ?_⟩
    unfold receiveAccepted
    by_cases hcomplete : L.isComplete
    · rw [if_pos hcomplete]
    rw [if_neg hcomplete]
    by_cases hvalid : r.proposalID.isValid
    · have hguard : (L.acceptors r.fromUID).any
          fun second => r.proposalID < second ∨ r.proposalID = second := by
        by_contra hguard
        refine htakes ⟨hcomplete, hvalid, fun second hsecond => ?_⟩
        rw [Option.mem_def] at hsecond
        simp only [hsecond, Option.any_some, decide_eq_true_eq, not_or] at hguard
        exact (le_of_not_gt hguard.1).lt_of_ne (Ne.symm hguard.2)
      rw [if_neg (not_not.mpr hvalid)]
      exact if_pos hguard
    · rw [if_pos hvalid]

/-- The entry found has the count of the entry that was there, or what the memory held. -/
theorem acceptCount_of_found {L : Learner} {r : Report} {e : Proposal} (h : L.found r = some e) :
    (∃ e₀, L.proposals r.proposalID = some e₀ ∧ (L.Moves r → e₀.retentionCount ≠ 1) ∧
      e.acceptCount = e₀.acceptCount) ∨
    (L.proposals r.proposalID = none ∧ L.Moves r ∧ r.unsetRetentionCount ≠ 1 ∧
      e.acceptCount = r.unsetAcceptCount) := by
  unfold found at h
  by_cases hmoves : L.Moves r
  · rw [if_pos hmoves] at h
    cases hentry : L.proposals r.proposalID with
    | none =>
      simp only [hentry, Option.getD_none, Option.ite_none_left_eq_some, Option.some.injEq] at h
      obtain ⟨hlast, rfl⟩ := h
      exact Or.inr ⟨rfl, hmoves, hlast, rfl⟩
    | some e₀ =>
      simp only [hentry, Option.getD_some, Option.ite_none_left_eq_some, Option.some.injEq] at h
      obtain ⟨hlast, rfl⟩ := h
      exact Or.inl ⟨e₀, rfl, fun _ => hlast, rfl⟩
  · rw [if_neg hmoves] at h
    exact Or.inl ⟨e, h, fun hmoves' => absurd hmoves' hmoves, rfl⟩

end Learner

end CppPaxos
