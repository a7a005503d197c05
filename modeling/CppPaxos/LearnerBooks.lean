import CppPaxos.LearnerQuorum
import Mathlib.Algebra.BigOperators.Group.Finset.Piecewise
import Mathlib.Algebra.BigOperators.Ring.Finset

/-!
# The books of a learner

`learner.h` says what the two counts of a proposal are: how many acceptors have accepted it,
and how many of them still hold it. The code keeps neither. The report that starts an entry
is not counted, and an acceptor that moves on is taken off its new proposal, since its old
ID has been overwritten by then. From the first report on the retention counts fall short
of the number of acceptors, and only the contents of uninitialised memory can make up for it.
-/

namespace CppPaxos

open Machines

namespace Learner

/-- The acceptors that have reported. -/
def reporting (reports : List Report) : Finset Str := (reports.map Report.fromUID).toFinset

/-- Those of them that the learner maps to `p`. -/
def holders (L : Learner) (reports : List Report) (p : ProposalID) : Finset Str :=
  (reporting reports).filter fun a => L.acceptors a = some p

/-- Each acceptor is mapped to the highest ID that it has reported. -/
def MapsToHighest (L : Learner) (reports : List Report) : Prop :=
  ∀ a p, L.acceptors a = some p ↔
    (∃ r ∈ reports, r.fromUID = a ∧ r.proposalID = p) ∧
      ∀ r ∈ reports, r.fromUID = a → r.proposalID ≤ p

/-- The two maps say the same: the keys of the proposals are the IDs that acceptors are mapped to,
and the counts are those of the acceptors. -/
structure Books (L : Learner) (reports : List Report) : Prop where
  key_iff : ∀ p, (L.proposals p).isSome ↔ ∃ a, L.acceptors a = some p
  retention : ∀ p e, L.proposals p = some e → e.retentionCount = (L.holders reports p).card
  counts : ∀ p e, L.proposals p = some e →
    1 ≤ e.retentionCount ∧ e.retentionCount ≤ e.acceptCount
  highest : L.MapsToHighest reports

/-- The books are right at every moment of the run at which the learner is not complete. -/
def KeepsBooks (L : Learner) (reports : List Report) : Prop :=
  ∀ pre, pre <+: reports → ¬(machine.run L pre).isComplete → (machine.run L pre).Books pre

/-- The tally of an incomplete learner maps each acceptor to its highest ID. -/
theorem Tally.mapsToHighest {L₀ L : Learner} {reports : List Report} (h : Tally L₀ reports L) :
    L.MapsToHighest reports := by
  intro a p
  constructor
  · intro hp
    refine ⟨h.reported a p hp, ?_⟩
    rintro r hr rfl
    obtain ⟨id, hid, hle⟩ := h.highest r hr
    rw [hp, Option.some_inj] at hid
    rwa [hid]
  · rintro ⟨⟨r, hr, rfl, rfl⟩, hhighest⟩
    obtain ⟨id, hid, hle⟩ := h.highest r hr
    obtain ⟨s, hs, hfrom, hsid⟩ := h.reported _ id hid
    have hge : id ≤ r.proposalID := by
      rw [← hsid]
      exact hhighest s hs hfrom
    rw [hid, le_antisymm hge hle]

/-! ### The totals of the two maps -/

/-- The retention counts of the proposals of a finite set of IDs, taken together. -/
def retained (ids : Finset ProposalID) (L : Learner) : Int :=
  ∑ p ∈ ids, (L.proposals p).elim 0 Proposal.retentionCount

/-- The acceptors of a finite set that are mapped to some ID. -/
def mapped (uids : Finset Str) (L : Learner) : Finset Str :=
  uids.filter fun a => (L.acceptors a).isSome

/-- Which acceptors are mapped to some ID. -/
theorem mem_mapped {uids : Finset Str} {L : Learner} {a : Str} :
    a ∈ mapped uids L ↔ a ∈ uids ∧ (L.acceptors a).isSome := Finset.mem_filter

/-- The IDs that have been reported. -/
def reportedIDs (reports : List Report) : Finset ProposalID :=
  (reports.map Report.proposalID).toFinset

/-- With right books the retention counts add up to the number of acceptors. -/
theorem Books.retained_eq {L : Learner} {reports : List Report} (h : L.Books reports) :
    retained (reportedIDs reports) L = (mapped (reporting reports) L).card := by
  have hmaps : ∀ a ∈ mapped (reporting reports) L,
      (L.acceptors a).getD .empty ∈ reportedIDs reports := by
    intro a ha
    obtain ⟨p, hp⟩ := Option.isSome_iff_exists.mp (mem_mapped.mp ha).2
    obtain ⟨r, hr, -, hid⟩ := ((h.highest a p).mp hp).1
    rw [hp, Option.getD_some]
    exact List.mem_toFinset.mpr (List.mem_map.mpr ⟨r, hr, hid⟩)
  have hfibre : ∀ p, (mapped (reporting reports) L).filter
      (fun a => (L.acceptors a).getD .empty = p) = L.holders reports p := by
    intro p
    ext a
    simp only [mem_mapped, holders, Finset.mem_filter, and_assoc]
    refine and_congr_right fun _ => ?_
    cases L.acceptors a <;> simp
  rw [Finset.card_eq_sum_card_fiberwise hmaps, retained, Nat.cast_sum]
  refine Finset.sum_congr rfl fun p _ => ?_
  rw [hfibre]
  cases hentry : L.proposals p with
  | some e => exact h.retention p e hentry
  | none =>
    have hempty : L.holders reports p = ∅ := by
      refine Finset.filter_eq_empty_iff.mpr fun a _ ha => ?_
      have hkey := (h.key_iff p).mpr ⟨a, ha⟩
      rw [hentry] at hkey
      exact Bool.false_ne_true hkey
    rw [hempty]
    rfl

/-- An acceptor that moves to an ID without an entry finds no retention count above one in the
memory of the entry made for it. -/
def FindsNoSurplus (L : Learner) (r : Report) : Prop :=
  L.Takes r → L.Moves r → L.proposals r.proposalID = none → r.unsetRetentionCount ≤ 1

instance (L : Learner) (r : Report) : Decidable (L.FindsNoSurplus r) :=
  inferInstanceAs (Decidable (_ → _ → _ → _))

section Totals

variable {L : Learner} {r : Report} {ids : Finset ProposalID} {uids : Finset Str}

/-- What an entry adds to the total, and what the entry before it had added. -/
theorem retained_noted (hid : r.proposalID ∈ ids) (entry : Proposal) :
    retained ids (L.noted r entry) + (L.proposals r.proposalID).elim 0 Proposal.retentionCount =
      retained ids L + entry.retentionCount := by
  have hsum : retained ids (L.noted r entry) =
      ∑ p ∈ ids, Function.update (fun p => (L.proposals p).elim 0 Proposal.retentionCount)
        r.proposalID entry.retentionCount p := by
    refine Finset.sum_congr rfl fun p _ => ?_
    by_cases hp : p = r.proposalID
    · subst hp
      simp [noted]
    · simp [noted, Function.update_of_ne hp]
  rw [hsum, Finset.sum_update_of_mem hid, retained, ← Finset.add_sum_erase ids _ hid,
    Finset.sdiff_singleton_eq_erase]
  omega

/-- The acceptor of a report is mapped to an ID from then on. -/
theorem card_mapped_noted (huid : r.fromUID ∈ uids) (entry : Proposal) :
    (mapped uids (L.noted r entry)).card =
      (mapped uids L).card + if L.Moves r then 0 else 1 := by
  have hinsert : mapped uids (L.noted r entry) = insert r.fromUID (mapped uids L) := by
    ext a
    rw [Finset.mem_insert, mem_mapped, mem_mapped]
    by_cases ha : a = r.fromUID
    · subst ha
      simp [noted, huid]
    · simp [noted, ha]
  rw [hinsert]
  by_cases hmoves : L.Moves r
  · have hmem : r.fromUID ∈ mapped uids L := mem_mapped.mpr ⟨huid, hmoves⟩
    rw [if_pos hmoves, Nat.add_zero, Finset.insert_eq_of_mem hmem]
  · have hnew : r.fromUID ∉ mapped uids L := fun hmem => hmoves (mem_mapped.mp hmem).2
    rw [if_neg hmoves, Finset.card_insert_of_notMem hnew]

/-- The retention count that a report leaves behind is at most that of the entry before it, and one
more if its acceptor is new. -/
theorem retentionCount_le (hfinds : L.FindsNoSurplus r) (htakes : L.Takes r) {e : Proposal}
    (hfound : L.found r = some e) :
    e.retentionCount + 1 ≤ (L.proposals r.proposalID).elim 0 Proposal.retentionCount +
      if L.Moves r then 0 else 1 := by
  unfold found at hfound
  by_cases hmoves : L.Moves r
  · rw [if_pos hmoves] at hfound ⊢
    cases hentry : L.proposals r.proposalID with
    | none =>
      have hsurplus := hfinds htakes hmoves hentry
      simp only [hentry, Option.getD_none, Option.ite_none_left_eq_some, Option.some.injEq]
        at hfound
      obtain ⟨hlast, rfl⟩ := hfound
      simp only [Option.elim_none]
      omega
    | some e₀ =>
      simp only [hentry, Option.getD_some, Option.ite_none_left_eq_some, Option.some.injEq]
        at hfound
      obtain ⟨-, rfl⟩ := hfound
      simp
  · rw [if_neg hmoves] at hfound ⊢
    rw [hfound, Option.elim_some]

/-- An entry that is started anew leaves nothing, and its ID had a count that was not negative. -/
theorem zero_le_of_found_none (hfound : L.found r = none) :
    0 ≤ (L.proposals r.proposalID).elim 0 Proposal.retentionCount := by
  unfold found at hfound
  cases hentry : L.proposals r.proposalID with
  | none => rfl
  | some e₀ =>
    by_cases hmoves : L.Moves r
    · simp only [hmoves, hentry, if_true, Option.getD_some, ite_eq_left_iff, reduceCtorEq,
        imp_false, not_not] at hfound
      rw [Option.elim_some, hfound]
      exact Int.one_nonneg
    · rw [if_neg hmoves, hentry] at hfound
      cases hfound

/-- A report adds no more to the retention counts than to the acceptors. -/
theorem retained_next_le (hid : r.proposalID ∈ ids) (huid : r.fromUID ∈ uids)
    (hfinds : L.FindsNoSurplus r) (hincomplete : ¬(machine.next L r).isComplete)
    (hvalue : r.acceptedValue ≠ []) :
    retained ids (machine.next L r) + (mapped uids L).card ≤
      retained ids L + (mapped uids (machine.next L r)).card := by
  rw [next_eq] at hincomplete ⊢
  rcases L.receiveAccepted_cases r with
    ⟨-, heq⟩ | ⟨htakes, hfound, heq⟩ | ⟨e, -, -, -, heq⟩ | ⟨e, htakes, hfound, -, heq⟩
  · rw [heq]
  · have htotal := retained_noted (L := L) hid ⟨0, 0, r.acceptedValue⟩
    have hcard := card_mapped_noted (L := L) huid ⟨0, 0, r.acceptedValue⟩
    have hbefore := zero_le_of_found_none hfound
    rw [heq, hcard]
    dsimp only at htotal ⊢
    omega
  · rw [heq] at hincomplete
    exact absurd (by simpa [isComplete, resolved] using hvalue) hincomplete
  · have htotal := retained_noted (L := L) hid
      { e with acceptCount := e.acceptCount + 1, retentionCount := e.retentionCount + 1 }
    have hcard := card_mapped_noted (L := L) huid
      { e with acceptCount := e.acceptCount + 1, retentionCount := e.retentionCount + 1 }
    have hle := retentionCount_le hfinds htakes hfound
    rw [heq, hcard]
    dsimp only at htotal ⊢
    split_ifs at hle ⊢ <;> omega

end Totals

/-- The first report of a run starts the entry of its ID, and is not counted. -/
theorem next_new (quorumSize : Int) (active : Bool) {r : Report}
    (hvalid : r.proposalID.isValid) :
    machine.next (new quorumSize active) r =
      (new quorumSize active).noted r ⟨0, 0, r.acceptedValue⟩ := by
  have htakes : (new quorumSize active).Takes r :=
    ⟨by simp [isComplete, new], hvalid, by simp [new]⟩
  have hfound : (new quorumSize active).found r = none := by simp [found, Moves, new]
  rw [next_eq]
  rcases (new quorumSize active).receiveAccepted_cases r with
    ⟨hignored, -⟩ | ⟨-, -, heq⟩ | ⟨e, -, hsome, -⟩ | ⟨e, -, hsome, -⟩
  · exact absurd htakes hignored
  · rw [heq]
  · rw [hfound] at hsome
    cases hsome
  · rw [hfound] at hsome
    cases hsome

/-- The retention counts fall short of the acceptors after any report, unless an entry has found a
surplus. -/
theorem retained_lt_mapped {quorumSize : Int} {active : Bool} {reports : List Report}
    (hvalid : ∀ r ∈ reports, r.proposalID.isValid) (hvalue : ∀ r ∈ reports, r.acceptedValue ≠ [])
    (hfinds : machine.Admits FindsNoSurplus (new quorumSize active) reports)
    (hne : reports ≠ [])
    (hincomplete : ¬(machine.run (new quorumSize active) reports).isComplete) :
    retained (reportedIDs reports) (machine.run (new quorumSize active) reports) <
      (mapped (reporting reports) (machine.run (new quorumSize active) reports)).card := by
  have hmem : machine.Admits (fun _ r => r ∈ reports) (new quorumSize active) reports :=
    Machine.admits_const_iff.mpr fun _ hr => hr
  refine (hfinds.and hmem).induction
    (I := fun pre L => pre ≠ [] → ¬L.isComplete →
      retained (reportedIDs reports) L < (mapped (reporting reports) L).card)
    (fun h => absurd rfl h) ?_ hne hincomplete
  intro pre r ih ⟨hfindsNow, hr⟩ _ hincompleteNow
  have hid : r.proposalID ∈ reportedIDs reports :=
    List.mem_toFinset.mpr (List.mem_map_of_mem hr)
  have huid : r.fromUID ∈ reporting reports := List.mem_toFinset.mpr (List.mem_map_of_mem hr)
  by_cases hfirst : pre = []
  · have htotal := retained_noted (L := new quorumSize active) hid ⟨0, 0, r.acceptedValue⟩
    have hcard := card_mapped_noted (L := new quorumSize active) huid ⟨0, 0, r.acceptedValue⟩
    have hnone : retained (reportedIDs reports) (new quorumSize active) = 0 :=
      Finset.sum_eq_zero fun _ _ => rfl
    have hnew : ¬(new quorumSize active).Moves r := Bool.false_ne_true
    rw [if_neg hnew] at hcard
    rw [hnone] at htotal
    simp only [new, Option.elim_none] at htotal
    rw [hfirst, Machine.run_nil, next_new _ _ (hvalid r hr), hcard]
    simp only [new]
    omega
  · have hbefore : ¬(machine.run (new quorumSize active) pre).isComplete := by
      intro hcomplete
      rw [next_of_isComplete hcomplete] at hincompleteNow
      exact hincompleteNow hcomplete
    have hshort := ih hfirst hbefore
    have hle := retained_next_le hid huid hfindsNow hincompleteNow (hvalue r hr)
    omega

/-- **The books of a learner** are right at all moments of a run only if nothing is reported in it.
Each acceptor is mapped to its highest ID as long as the learner is not complete, but after any
report the books are wrong, unless an entry has found a surplus in uninitialised memory. -/
theorem keepsBooks_iff {quorumSize : Int} {active : Bool} {reports : List Report}
    (hvalid : ∀ r ∈ reports, r.proposalID.isValid)
    (hvalue : ∀ r ∈ reports, r.acceptedValue ≠ []) :
    ((new quorumSize active).KeepsBooks reports ↔ reports = []) ∧
      (¬(machine.run (new quorumSize active) reports).isComplete →
        (machine.run (new quorumSize active) reports).MapsToHighest reports ∧
          (reports ≠ [] → machine.Admits FindsNoSurplus (new quorumSize active) reports →
            ¬(machine.run (new quorumSize active) reports).Books reports)) := by
  refine ⟨⟨fun hkeeps => ?_, ?_⟩, fun hincomplete => ⟨?_, fun hne hfinds hbooks => ?_⟩⟩
  · cases reports with
    | nil => rfl
    | cons r rest =>
      have hnext := next_new quorumSize active (hvalid r List.mem_cons_self)
      have hbooks := hkeeps [r] (List.prefix_append [r] rest)
        (by rw [Machine.run_cons, Machine.run_nil, hnext]; simp [isComplete, noted, new])
      rw [Machine.run_cons, Machine.run_nil, hnext] at hbooks
      have hcounts := hbooks.counts r.proposalID ⟨0, 0, r.acceptedValue⟩ (by simp [noted])
      exact absurd hcounts.1 (by simp)
  · rintro rfl pre hpre -
    rw [List.prefix_nil.mp hpre, Machine.run_nil]
    exact ⟨by simp [new], by simp [new], by simp [new], by simp [MapsToHighest, new]⟩
  · have htally : Tally (new quorumSize active) reports
        (machine.run (new quorumSize active) reports) :=
      (run_isComplete_or_tally hvalid hvalue).resolve_left hincomplete
    exact htally.mapsToHighest
  · have hlt := retained_lt_mapped hvalid hvalue hfinds hne hincomplete
    exact absurd hbooks.retained_eq hlt.ne

/-- Three acceptors report, and the first one moves on from (1, a) to (2, a). Two of them hold
(2, a) then, and its entry says one. -/
theorem keepsBooks_iff_moved :
    let reports : List Report := [⟨[49], ⟨1, [97]⟩, [120], 0, 0⟩, ⟨[50], ⟨1, [97]⟩, [120], 0, 0⟩,
      ⟨[49], ⟨2, [97]⟩, [120], 0, 0⟩, ⟨[51], ⟨2, [97]⟩, [120], 0, 0⟩]
    ¬(new 3 true).KeepsBooks reports ∧ ¬(machine.run (new 3 true) reports).Books reports := by
  intro reports
  have hvalid : ∀ r ∈ reports, r.proposalID.isValid := by decide
  have hvalue : ∀ r ∈ reports, r.acceptedValue ≠ [] := by decide
  constructor
  · intro hkeeps
    exact absurd ((keepsBooks_iff hvalid hvalue).1.mp hkeeps) (List.cons_ne_nil _ _)
  · exact ((keepsBooks_iff hvalid hvalue).2 (by decide)).2 (List.cons_ne_nil _ _) (by decide)

/-- One acceptor reports (1, a). The entry of (1, a) then says that no acceptor holds it. -/
theorem books_wrong_after_one_report :
    let reports : List Report := [⟨[49], ⟨1, [97]⟩, [120], 0, 0⟩]
    (∀ r ∈ reports, r.proposalID.isValid ∧ r.acceptedValue ≠ []) ∧
      ¬(new 3 true).KeepsBooks reports := by
  refine ⟨by decide, fun h => ?_⟩
  have hbooks := h [⟨[49], ⟨1, [97]⟩, [120], 0, 0⟩] List.prefix_rfl (by decide)
  have hcounts := hbooks.counts ⟨1, [97]⟩ ⟨0, 0, [120]⟩ (by decide)
  exact absurd hcounts.1 (by decide)

end Learner

end CppPaxos
