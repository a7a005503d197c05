import CppPaxos.LearnerQuorum

/-!
# A decision is final

A learner is complete when its final value is not empty. Nothing in the code rejects an
empty value, and a learner that resolves with one forgets what was reported to it and
starts again.
-/

namespace CppPaxos

open Machines MessengerCall

/-- The call announces a decision. -/
def MessengerCall.isResolution : MessengerCall → Bool
  | .onResolution .. => true
  | _ => false

namespace Learner

/-- There is at most one resolution, and what it decides stays decided. -/
structure DecidedOnce (L : Learner) (reports : List Report) : Prop where
  once : (machine.trace L reports).countP isResolution ≤ 1
  stays : ∀ pre r, pre ++ [r] <+: reports → ∀ p v,
    onResolution p v ∈ machine.emits (machine.run L pre) r →
      ∀ later, pre ++ [r] <+: later → later <+: reports →
        (machine.run L later).isComplete ∧ (machine.run L later).finalValue = v ∧
          (machine.run L later).finalProposalID = p

/-- A report that completes a quorum carries a value. -/
def KeepsDecision (L : Learner) (r : Report) : Prop :=
  L.Takes r → (∃ e ∈ L.found r, L.quorumSize ≤ e.acceptCount + 1) → r.acceptedValue ≠ []

/-- A report that passes the guards and completes a quorum resolves with its value. -/
theorem receiveAccepted_of_quorum {L : Learner} {r : Report} (htakes : L.Takes r)
    (hquorum : ∃ e ∈ L.found r, L.quorumSize ≤ e.acceptCount + 1) :
    L.receiveAccepted r = (L.resolved r, [onResolution r.proposalID r.acceptedValue]) := by
  obtain ⟨e, hfound, hreached⟩ := hquorum
  rw [Option.mem_def] at hfound
  rcases L.receiveAccepted_cases r with
    ⟨hignored, -⟩ | ⟨-, hnone, -⟩ | ⟨-, -, -, -, heq⟩ | ⟨e', -, hsome, hshort, -⟩
  · exact absurd htakes hignored
  · rw [hfound] at hnone
    cases hnone
  · exact heq
  · rw [hfound] at hsome
    cases hsome
    omega

/-- A report resolves with its own ID and value, or it announces nothing. -/
theorem emits_cases (L : Learner) (r : Report) :
    (machine.emits L r = [onResolution r.proposalID r.acceptedValue] ∧ L.Takes r ∧
      (∃ e ∈ L.found r, L.quorumSize ≤ e.acceptCount + 1) ∧ machine.next L r = L.resolved r) ∨
    machine.emits L r = [] := by
  rw [emits_eq, next_eq]
  rcases L.receiveAccepted_cases r with
    ⟨-, heq⟩ | ⟨-, -, heq⟩ | ⟨e, htakes, hfound, hquorum, heq⟩ | ⟨e, -, -, -, heq⟩
  · exact Or.inr (by rw [heq])
  · exact Or.inr (by rw [heq])
  · exact Or.inl ⟨by rw [heq], htakes, ⟨e, hfound, hquorum⟩, by rw [heq]⟩
  · exact Or.inr (by rw [heq])

/-- A complete learner stays as it is. -/
theorem run_of_isComplete {L : Learner} (h : L.isComplete) (reports : List Report) :
    machine.run L reports = L := by
  induction reports with
  | nil => rfl
  | cons r reports ih => rw [Machine.run_cons, next_of_isComplete h, ih]

/-- A learner that has announced a decision is complete, as long as no empty value is decided. -/
theorem countP_isResolution_le {L : Learner} {reports : List Report}
    (h : machine.Admits KeepsDecision L reports) :
    (machine.trace L reports).countP isResolution ≤
      if (machine.run L reports).isComplete then 1 else 0 := by
  induction reports using List.reverseRecOn with
  | nil => simp
  | append_singleton reports r ih =>
    obtain ⟨hreports, hkeeps⟩ := machine.admits_concat.mp h
    have hbefore := ih hreports
    rw [Machine.trace_concat, Machine.run_concat, List.countP_append]
    rcases emits_cases (machine.run L reports) r with ⟨hemits, htakes, hquorum, hnext⟩ | hemits
    · have hcomplete : ((machine.run L reports).resolved r).isComplete := by
        simpa [isComplete, resolved] using hkeeps htakes hquorum
      rw [if_neg htakes.1] at hbefore
      rw [hemits, hnext, if_pos hcomplete, List.countP_singleton]
      simpa [isResolution] using hbefore
    · rw [hemits, List.countP_nil, Nat.add_zero]
      by_cases hcomplete : (machine.run L reports).isComplete
      · rwa [next_of_isComplete hcomplete]
      · rw [if_neg hcomplete] at hbefore
        exact hbefore.trans (Nat.zero_le _)

/-- **A decision is made once and stays**, in a run of a new learner, exactly if every report that
completes a quorum carries a value. -/
theorem decidedOnce_iff {quorumSize : Int} {active : Bool} {reports : List Report} :
    (new quorumSize active).DecidedOnce reports ↔
      machine.Admits KeepsDecision (new quorumSize active) reports := by
  constructor
  · intro h
    refine Machine.admits_iff_forall_prefix.mpr fun pre r hpre htakes hquorum hempty => ?_
    have heq := receiveAccepted_of_quorum htakes hquorum
    have hsent : onResolution r.proposalID r.acceptedValue ∈
        machine.emits (machine.run (new quorumSize active) pre) r := by
      rw [emits_eq, heq]
      exact List.mem_singleton_self _
    have hcomplete := (h.stays pre r hpre _ _ hsent _ List.prefix_rfl hpre).1
    rw [Machine.run_concat, next_eq, heq] at hcomplete
    simp [isComplete, resolved, hempty] at hcomplete
  · intro h
    refine ⟨?_, fun pre r hpre p v hsent later hlater _ => ?_⟩
    · have hcount := countP_isResolution_le h
      split_ifs at hcount <;> omega
    · obtain ⟨rfl, rfl, e, htakes, hfound, hreached⟩ := of_onResolution_mem hsent
      have hquorum := receiveAccepted_of_quorum htakes ⟨e, hfound, hreached⟩
      have hvalue := h.allowed_of_prefix hpre htakes ⟨e, hfound, hreached⟩
      have hcomplete : ((machine.run (new quorumSize active) pre).resolved r).isComplete := by
        simpa [isComplete, resolved] using hvalue
      obtain ⟨more, rfl⟩ := hlater
      rw [Machine.run_append, Machine.run_concat, next_eq, hquorum, run_of_isComplete hcomplete]
      exact ⟨hcomplete, rfl, rfl⟩

/-- Two acceptors have accepted the empty value with (1, a), and then the value x with (2, a). The
learner with a quorum size of 1 decides both. -/
theorem decides_again_after_empty_value :
    ¬(new 1 true).DecidedOnce
      [⟨[49], ⟨1, [97]⟩, [], 0, 0⟩, ⟨[50], ⟨1, [97]⟩, [], 0, 0⟩,
        ⟨[49], ⟨2, [97]⟩, [120], 0, 0⟩, ⟨[50], ⟨2, [97]⟩, [120], 0, 0⟩] := by
  intro h
  exact absurd h.once (by decide)

end Learner

end CppPaxos
