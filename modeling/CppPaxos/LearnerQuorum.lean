import CppPaxos.Learner
import Mathlib.Data.Finset.Card
import Mathlib.Data.Finset.Dedup

/-!
# What a learner's resolution means

Soundness: a resolution is backed by a quorum of distinct acceptors. Completeness: a
quorum of acceptors that have moved up to an ID makes the learner complete. The
contents of uninitialised memory and the votes that the bookkeeping drops decide when
the code has the two properties.
-/

namespace CppPaxos

open Machines MessengerCall

/-- The acceptors that have reported `p` with the value `v`. -/
def reporters (reports : List Report) (p : ProposalID) (v : Str) : Finset Str :=
  ((reports.filter fun r => r.proposalID = p ∧ r.acceptedValue = v).map Report.fromUID).toFinset

/-- Who has reported a pair. -/
theorem mem_reporters {reports : List Report} {p : ProposalID} {v a : Str} :
    a ∈ reporters reports p v ↔
      ∃ r ∈ reports, r.fromUID = a ∧ r.proposalID = p ∧ r.acceptedValue = v := by
  simp only [reporters, List.mem_toFinset, List.mem_map, List.mem_filter, decide_eq_true_eq]
  constructor
  · rintro ⟨r, ⟨hr, hp, hv⟩, ha⟩
    exact ⟨r, hr, ha, hp, hv⟩
  · rintro ⟨r, hr, ha, hp, hv⟩
    exact ⟨r, ⟨hr, hp, hv⟩, ha⟩

/-- All reports of one ID carry one value. -/
def OneValue (reports : List Report) : Prop :=
  ∀ r ∈ reports, ∀ s ∈ reports, r.proposalID = s.proposalID → r.acceptedValue = s.acceptedValue

instance (reports : List Report) : Decidable (OneValue reports) :=
  inferInstanceAs (Decidable (∀ _ ∈ _, _))

namespace Learner

/-- The quorum size never changes. -/
@[simp] theorem next_quorumSize (L : Learner) (r : Report) :
    (machine.next L r).quorumSize = L.quorumSize := by
  rw [next_eq]
  rcases L.receiveAccepted_cases r with
    ⟨-, heq⟩ | ⟨-, -, heq⟩ | ⟨e, -, -, -, heq⟩ | ⟨e, -, -, -, heq⟩ <;> rw [heq] <;> rfl

/-- The quorum size of a learner is fixed. -/
theorem run_quorumSize (L : Learner) (reports : List Report) :
    (machine.run L reports).quorumSize = L.quorumSize := by
  induction reports generalizing L with
  | nil => rfl
  | cons r reports ih => rw [Machine.run_cons, ih, next_quorumSize]

/-! ### Soundness -/

/-- Every resolution is backed by a quorum of acceptors that have reported it. -/
def ResolutionsBacked (L : Learner) (reports : List Report) : Prop :=
  ∀ pre r, pre ++ [r] <+: reports → ∀ p v,
    onResolution p v ∈ machine.emits (machine.run L pre) r →
      L.quorumSize ≤ (reporters (pre ++ [r]) p v).card

/-- An acceptor that moves to an ID without an entry finds no positive count in the memory of the
entry made for it, unless that entry is erased at once. -/
def FindsNoVotes (L : Learner) (r : Report) : Prop :=
  L.Takes r → L.Moves r → L.proposals r.proposalID = none →
    r.unsetAcceptCount ≤ 0 ∨ r.unsetRetentionCount = 1

instance (L : Learner) (r : Report) : Decidable (L.FindsNoVotes r) :=
  inferInstanceAs (Decidable (_ → _ → _ → _))

/-- Distinct acceptors that have reported `p` and have not gone below it since. -/
structure Voters (reports : List Report) (L : Learner) (p : ProposalID) (voters : Finset Str) :
    Prop where
  reported : ∀ a ∈ voters, ∃ r ∈ reports, r.fromUID = a ∧ r.proposalID = p
  noted : ∀ a ∈ voters, ∃ id ∈ L.acceptors a, p ≤ id

/-- No count is above the number of distinct voters. -/
def CountsVoters (reports : List Report) (L : Learner) : Prop :=
  ∀ p e, L.proposals p = some e → ∃ voters, Voters reports L p voters ∧ e.acceptCount ≤ voters.card

/-- A report that is taken keeps the voters of all IDs, as IDs of acceptors only grow. -/
theorem Voters.noted_of_takes {reports : List Report} {L : Learner} {p : ProposalID}
    {voters : Finset Str} (h : Voters reports L p voters) {r : Report} (htakes : L.Takes r)
    (entry : Proposal) : Voters (reports ++ [r]) (L.noted r entry) p voters := by
  refine ⟨fun a ha => ?_, fun a ha => ?_⟩
  · obtain ⟨s, hs, heq⟩ := h.reported a ha
    exact ⟨s, List.mem_append_left _ hs, heq⟩
  · obtain ⟨id, hid, hle⟩ := h.noted a ha
    by_cases hself : a = r.fromUID
    · subst hself
      exact ⟨r.proposalID, by simp [Learner.noted], hle.trans (htakes.2.2 id hid).le⟩
    · exact ⟨id, by simpa [Learner.noted, Function.update_of_ne hself] using hid, hle⟩

/-- The count found for a report, with the report itself, is not above the number of voters. -/
theorem CountsVoters.of_found {reports : List Report} {L : Learner} (h : CountsVoters reports L)
    {r : Report} (hfinds : L.FindsNoVotes r) (htakes : L.Takes r) {e : Proposal}
    (hfound : L.found r = some e) (entry : Proposal) :
    ∃ voters, Voters (reports ++ [r]) (L.noted r entry) r.proposalID voters ∧
      e.acceptCount + 1 ≤ voters.card := by
  have hself : ∃ s ∈ reports ++ [r], s.fromUID = r.fromUID ∧ s.proposalID = r.proposalID :=
    ⟨r, by simp, rfl, rfl⟩
  have hnoted : ∃ id ∈ (L.noted r entry).acceptors r.fromUID, r.proposalID ≤ id :=
    ⟨r.proposalID, by simp [Learner.noted], le_rfl⟩
  rcases acceptCount_of_found hfound with
    ⟨e₀, hentry, -, hcount⟩ | ⟨hentry, hmoves, hretention, hcount⟩
  · obtain ⟨voters, hvoters, hle⟩ := h _ _ hentry
    have hnew : r.fromUID ∉ voters := by
      intro hmem
      obtain ⟨id, hid, hge⟩ := hvoters.noted _ hmem
      exact absurd (htakes.2.2 id hid) (not_lt.mpr hge)
    have hbefore := hvoters.noted_of_takes htakes entry
    refine ⟨insert r.fromUID voters, ⟨?_, ?_⟩, ?_⟩
    · exact Finset.forall_mem_insert _ _ _ |>.mpr ⟨hself, hbefore.reported⟩
    · exact Finset.forall_mem_insert _ _ _ |>.mpr ⟨hnoted, hbefore.noted⟩
    · rw [Finset.card_insert_of_notMem hnew]
      omega
  · have hnone : r.unsetAcceptCount ≤ 0 := (hfinds htakes hmoves hentry).resolve_right hretention
    refine ⟨{r.fromUID}, ⟨?_, ?_⟩, ?_⟩
    · simp
    · simp [Learner.noted]
    · rw [Finset.card_singleton]
      omega

/-- One report keeps the counts at or below the numbers of voters. -/
theorem CountsVoters.next {reports : List Report} {L : Learner} (h : CountsVoters reports L)
    {r : Report} (hfinds : L.FindsNoVotes r) :
    CountsVoters (reports ++ [r]) (machine.next L r) := by
  have hother : L.Takes r → ∀ entry p e, p ≠ r.proposalID →
      (L.noted r entry).proposals p = some e →
        ∃ voters, Voters (reports ++ [r]) (L.noted r entry) p voters ∧
          e.acceptCount ≤ voters.card := by
    intro htakes entry p e hp hentry
    have hold : L.proposals p = some e := by
      simpa [Learner.noted, Function.update_of_ne hp] using hentry
    obtain ⟨voters, hvoters, hle⟩ := h p e hold
    exact ⟨voters, hvoters.noted_of_takes htakes entry, hle⟩
  rw [next_eq]
  rcases L.receiveAccepted_cases r with
    ⟨-, heq⟩ | ⟨htakes, -, heq⟩ | ⟨e, -, -, -, heq⟩ | ⟨e₀, htakes, hfound, -, heq⟩
  · rw [heq]
    intro p e hentry
    obtain ⟨voters, hvoters, hle⟩ := h p e hentry
    refine ⟨voters, ⟨fun a ha => ?_, hvoters.noted⟩, hle⟩
    obtain ⟨s, hs, hreport⟩ := hvoters.reported a ha
    exact ⟨s, List.mem_append_left _ hs, hreport⟩
  · rw [heq]
    intro p e hentry
    by_cases hp : p = r.proposalID
    · subst hp
      have he : (⟨0, 0, r.acceptedValue⟩ : Proposal) = e := by
        simpa [Learner.noted] using hentry
      exact ⟨∅, ⟨by simp, by simp⟩, by simp [← he]⟩
    · exact hother htakes _ p e hp hentry
  · rw [heq]
    intro p e hentry
    simp [resolved] at hentry
  · rw [heq]
    intro p e hentry
    by_cases hp : p = r.proposalID
    · subst hp
      obtain ⟨voters, hvoters, hle⟩ := h.of_found hfinds htakes hfound
        { e₀ with acceptCount := e₀.acceptCount + 1, retentionCount := e₀.retentionCount + 1 }
      simp only [Learner.noted, Function.update_self, Option.some.injEq] at hentry
      exact ⟨voters, hvoters, by rw [← hentry]; exact hle⟩
    · exact hother htakes _ p e hp hentry

/-- A resolution is emitted for the report that completes it, with the count that was found. -/
theorem of_onResolution_mem {L : Learner} {r : Report} {p : ProposalID} {v : Str}
    (h : onResolution p v ∈ machine.emits L r) :
    p = r.proposalID ∧ v = r.acceptedValue ∧
      ∃ e, L.Takes r ∧ L.found r = some e ∧ L.quorumSize ≤ e.acceptCount + 1 := by
  rw [emits_eq] at h
  rcases L.receiveAccepted_cases r with
    ⟨-, heq⟩ | ⟨-, -, heq⟩ | ⟨e, htakes, hfound, hquorum, heq⟩ | ⟨e, -, -, -, heq⟩
  · simp [heq] at h
  · simp [heq] at h
  · simp only [heq, List.mem_singleton, onResolution.injEq] at h
    exact ⟨h.1, h.2, e, htakes, hfound, hquorum⟩
  · simp [heq] at h

/-- **Soundness.** Every resolution is backed by a quorum in every run in which no acceptor that
moves to a new ID finds a positive count in uninitialised memory. -/
theorem resolutions_backed {quorumSize : Int} {active : Bool} {reports : List Report}
    (hvalues : OneValue reports)
    (hrun : machine.Admits FindsNoVotes (new quorumSize active) reports) :
    (new quorumSize active).ResolutionsBacked reports := by
  intro pre r hpre p v hresolution
  obtain ⟨rfl, rfl, e, htakes, hfound, hquorum⟩ := of_onResolution_mem hresolution
  have hcounts : CountsVoters pre (machine.run (new quorumSize active) pre) :=
    (hrun.of_prefix ((List.prefix_append _ _).trans hpre)).induction (I := CountsVoters)
      (fun p e hentry => by simp [new] at hentry) fun _ _ hI hfinds => hI.next hfinds
  obtain ⟨voters, hvoters, hle⟩ :=
    hcounts.of_found (hrun.allowed_of_prefix hpre) htakes hfound e
  rw [run_quorumSize] at hquorum
  have hsub : voters ⊆ reporters (pre ++ [r]) r.proposalID r.acceptedValue := by
    intro a ha
    obtain ⟨s, hs, hfrom, hid⟩ := hvoters.reported a ha
    refine mem_reporters.mpr ⟨s, hs, hfrom, hid, ?_⟩
    exact hvalues s (hpre.subset hs) r (hpre.subset (by simp)) hid
  have hcard : voters.card ≤ (reporters (pre ++ [r]) r.proposalID r.acceptedValue).card :=
    Finset.card_le_card hsub
  omega

/-- The third report completes a learner with quorum size 2, since the first one is not counted. -/
theorem resolutions_backed_threeReports :
    (new 2 true).ResolutionsBacked
      [⟨[49], ⟨1, [97]⟩, [120], 9, 9⟩, ⟨[50], ⟨1, [97]⟩, [120], 9, 9⟩,
        ⟨[51], ⟨1, [97]⟩, [120], 9, 9⟩] :=
  resolutions_backed (by decide) (by decide)

/-- One acceptor moves from (1, a) to (2, a). The entry made for (2, a) starts with the count 5
that the memory held, and the learner resolves with a quorum size of 3. -/
theorem one_reporter_resolves :
    let reports : List Report :=
      [⟨[49], ⟨1, [97]⟩, [120], 0, 0⟩, ⟨[49], ⟨2, [97]⟩, [121], 5, 7⟩]
    OneValue reports ∧ ¬(new 3 true).ResolutionsBacked reports := by
  refine ⟨by decide, fun h => ?_⟩
  have hbacked := h [⟨[49], ⟨1, [97]⟩, [120], 0, 0⟩] ⟨[49], ⟨2, [97]⟩, [121], 5, 7⟩
    List.prefix_rfl ⟨2, [97]⟩ [121] (by decide)
  exact absurd hbacked (by decide)

/-! ### Completeness -/

/-- The report is higher than all earlier reports of its acceptor. -/
def Rising (earlier : List Report) (r : Report) : Prop :=
  ∀ s ∈ earlier, s.fromUID = r.fromUID → s.proposalID < r.proposalID

instance (earlier : List Report) (r : Report) : Decidable (Rising earlier r) :=
  inferInstanceAs (Decidable (∀ _ ∈ _, _))

/-- The acceptors that make a rising report of `p` among the reports after `earlier`. -/
def risersAfter (p : ProposalID) (earlier : List Report) : List Report → Finset Str
  | [] => ∅
  | r :: reports =>
    let risers := risersAfter p (earlier ++ [r]) reports
    if r.proposalID = p ∧ Rising earlier r then insert r.fromUID risers else risers

/-- The acceptors that have made a rising report of `p`. -/
def risers (reports : List Report) (p : ProposalID) : Finset Str := risersAfter p [] reports

/-- Who has reported `p` as its highest ID so far, after the earlier reports. -/
theorem mem_risersAfter {p : ProposalID} {earlier reports : List Report} {a : Str} :
    a ∈ risersAfter p earlier reports ↔ ∃ pre r, pre ++ [r] <+: reports ∧
      r.fromUID = a ∧ r.proposalID = p ∧ Rising (earlier ++ pre) r := by
  induction reports generalizing earlier with
  | nil => simp [risersAfter]
  | cons s reports ih =>
    have hhead : (∃ pre r, pre ++ [r] <+: s :: reports ∧
        r.fromUID = a ∧ r.proposalID = p ∧ Rising (earlier ++ pre) r) ↔
        (s.fromUID = a ∧ s.proposalID = p ∧ Rising earlier s) ∨
          a ∈ risersAfter p (earlier ++ [s]) reports := by
      rw [ih]
      constructor
      · rintro ⟨pre, r, hpre, hr⟩
        cases pre with
        | nil =>
          rw [List.nil_append, List.cons_prefix_cons] at hpre
          rw [hpre.1, List.append_nil] at hr
          exact Or.inl hr
        | cons t pre =>
          rw [List.cons_append, List.cons_prefix_cons] at hpre
          obtain ⟨rfl, hpre⟩ := hpre
          exact Or.inr ⟨pre, r, hpre, by simpa using hr⟩
      · rintro (hs | ⟨pre, r, hpre, hr⟩)
        · exact ⟨[], s, by simp, by simpa using hs⟩
        · exact ⟨s :: pre, r, by simpa using hpre, by simpa using hr⟩
    rw [hhead, risersAfter]
    by_cases hs : s.proposalID = p ∧ Rising earlier s
    · rw [if_pos hs, Finset.mem_insert]
      simp only [hs, and_true, eq_comm]
    · rw [if_neg hs]
      simp only [hs, and_false, false_or]

/-- Who has reported `p` as its highest ID so far. -/
theorem mem_risers {p : ProposalID} {reports : List Report} {a : Str} :
    a ∈ risers reports p ↔ ∃ pre r, pre ++ [r] <+: reports ∧
      r.fromUID = a ∧ r.proposalID = p ∧ Rising pre r := by
  simp [risers, mem_risersAfter]

/-- One more report adds its acceptor to the risers of its ID if it is rising. -/
theorem risers_concat (reports : List Report) (r : Report) (p : ProposalID) :
    risers (reports ++ [r]) p =
      if r.proposalID = p ∧ Rising reports r then insert r.fromUID (risers reports p)
      else risers reports p := by
  ext a
  rw [mem_risers, Machine.exists_concat_iff, ← mem_risers]
  by_cases hr : r.proposalID = p ∧ Rising reports r
  · rw [if_pos hr, Finset.mem_insert, or_comm]
    simp only [hr, and_true, eq_comm]
  · rw [if_neg hr]
    simp only [hr, and_false, or_false]

/-- An acceptor makes at most one rising report of an ID. -/
theorem notMem_risers_of_rising {reports : List Report} {r : Report} (h : Rising reports r) :
    r.fromUID ∉ risers reports r.proposalID := by
  intro hmem
  obtain ⟨pre, s, hpre, hfrom, hid, -⟩ := mem_risers.mp hmem
  have hlt := h s (hpre.subset (by simp)) hfrom
  exact absurd hid hlt.ne

/-- A quorum of risers of one ID makes the learner complete, at every moment of the run. -/
def CompletesPromptly (L : Learner) (reports : List Report) : Prop :=
  ∀ pre, pre <+: reports → ∀ p, L.quorumSize ≤ (risers pre p).card →
    (machine.run L pre).isComplete

/-- The report is counted and drops no count: its ID has an entry that is not erased, or gets one
with a memory content that is not negative. -/
def KeepsVotes (L : Learner) (r : Report) : Prop :=
  match L.proposals r.proposalID with
  | none => L.Moves r ∧ 0 ≤ r.unsetAcceptCount ∧ r.unsetRetentionCount ≠ 1
  | some entry => L.Moves r → entry.retentionCount ≠ 1

instance (L : Learner) (r : Report) : Decidable (L.KeepsVotes r) := by
  unfold KeepsVotes
  split <;> infer_instance

/-- No rising report of `p` has dropped votes. -/
def VotesKept (L : Learner) (reports : List Report) (p : ProposalID) : Prop :=
  ∀ pre r, pre ++ [r] <+: reports → r.proposalID = p → Rising pre r →
    (machine.run L pre).KeepsVotes r

instance (L : Learner) (reports : List Report) (p : ProposalID) :
    Decidable (L.VotesKept reports p) :=
  inferInstanceAs (Decidable (∀ pre r, pre ++ [r] <+: reports → _))

/-- One more report adds one condition. -/
theorem votesKept_concat {L : Learner} {reports : List Report} {r : Report} {p : ProposalID} :
    L.VotesKept (reports ++ [r]) p ↔ L.VotesKept reports p ∧
      (r.proposalID = p → Rising reports r → (machine.run L reports).KeepsVotes r) :=
  Machine.forall_concat_iff

/-- Nothing is dropped of an ID that nobody has risen to. -/
theorem votesKept_of_risers_empty {L : Learner} {reports : List Report} {p : ProposalID}
    (h : risers reports p = ∅) : L.VotesKept reports p := by
  intro pre r hpre hid hrising
  have hmem : r.fromUID ∈ risers reports p := mem_risers.mpr ⟨pre, r, hpre, rfl, hid, hrising⟩
  rw [h] at hmem
  exact absurd hmem (Finset.notMem_empty _)

/-- The report that makes the risers of its ID a quorum. -/
def FillsQuorum (quorumSize : Int) (earlier : List Report) (r : Report) : Prop :=
  (risers earlier r.proposalID).card < quorumSize ∧
    quorumSize ≤ (risers (earlier ++ [r]) r.proposalID).card

instance (quorumSize : Int) (earlier : List Report) (r : Report) :
    Decidable (FillsQuorum quorumSize earlier r) :=
  inferInstanceAs (Decidable (_ ∧ _))

/-- A count compared with the number of risers: not below it while all votes have been kept, and
below it afterwards. -/
structure Counted (kept : Prop) (risers : ℕ) (acceptCount : Int) : Prop where
  of_kept : kept → (risers : Int) ≤ acceptCount
  of_dropped : ¬kept → acceptCount < risers

/-- What the maps of an incomplete learner say about the reports so far. -/
structure Tally (L₀ : Learner) (reports : List Report) (L : Learner) : Prop where
  incomplete : ¬L.isComplete
  reported : ∀ a id, L.acceptors a = some id → ∃ r ∈ reports, r.fromUID = a ∧ r.proposalID = id
  highest : ∀ r ∈ reports, ∃ id, L.acceptors r.fromUID = some id ∧ r.proposalID ≤ id
  unseen : ∀ p, L.proposals p = none → risers reports p = ∅
  counted : ∀ p e, L.proposals p = some e →
    Counted (L₀.VotesKept reports p) (risers reports p).card e.acceptCount

/-- The guards of an incomplete learner let the rising reports through. -/
theorem Tally.takes_iff_rising {L₀ L : Learner} {reports : List Report} (h : Tally L₀ reports L)
    {r : Report} (hvalid : r.proposalID.isValid) : L.Takes r ↔ Rising reports r := by
  constructor
  · intro htakes s hs hfrom
    obtain ⟨id, hid, hle⟩ := h.highest s hs
    rw [hfrom] at hid
    exact hle.trans_lt (htakes.2.2 id hid)
  · intro hrising
    refine ⟨h.incomplete, hvalid, fun id hid => ?_⟩
    obtain ⟨s, hs, hfrom, rfl⟩ := h.reported _ id hid
    exact hrising s hs hfrom

/-- The risers of the reported ID become one more with a report that is taken. -/
theorem Tally.card_risers_concat {L₀ L : Learner} {reports : List Report} (h : Tally L₀ reports L)
    {r : Report} (htakes : L.Takes r) :
    (risers (reports ++ [r]) r.proposalID).card = (risers reports r.proposalID).card + 1 := by
  have hrising : Rising reports r := (h.takes_iff_rising htakes.2.1).mp htakes
  rw [risers_concat, if_pos ⟨rfl, hrising⟩,
    Finset.card_insert_of_notMem (notMem_risers_of_rising hrising)]

/-- A report that starts the entry of its ID anew drops votes, its own at least. -/
theorem not_keepsVotes_of_found_none {L : Learner} {r : Report} (h : L.found r = none) :
    ¬L.KeepsVotes r := by
  unfold found at h
  unfold KeepsVotes
  by_cases hmoves : L.Moves r
  · cases hentry : L.proposals r.proposalID with
    | none =>
      simp only [hmoves, hentry, if_true, Option.getD_none, ite_eq_left_iff, reduceCtorEq,
        imp_false, not_not] at h
      simp [h]
    | some entry =>
      simp only [hmoves, hentry, if_true, Option.getD_some, ite_eq_left_iff, reduceCtorEq,
        imp_false, not_not] at h
      simp [hmoves, h]
  · rw [if_neg hmoves] at h
    simp [h, hmoves]

/-- The count found for a report, with the report itself, against the risers of its ID. -/
theorem Tally.counted_of_found {L₀ : Learner} {reports : List Report}
    (h : Tally L₀ reports (machine.run L₀ reports)) {r : Report}
    (htakes : (machine.run L₀ reports).Takes r) {e : Proposal}
    (hfound : (machine.run L₀ reports).found r = some e) :
    Counted (L₀.VotesKept (reports ++ [r]) r.proposalID)
      (risers (reports ++ [r]) r.proposalID).card (e.acceptCount + 1) := by
  have hrising : Rising reports r := (h.takes_iff_rising htakes.2.1).mp htakes
  have hkept : L₀.VotesKept (reports ++ [r]) r.proposalID ↔
      L₀.VotesKept reports r.proposalID ∧ (machine.run L₀ reports).KeepsVotes r := by
    rw [votesKept_concat]
    simp only [hrising, forall_const]
  have hcard := h.card_risers_concat htakes
  rw [hcard, hkept]
  rcases acceptCount_of_found hfound with
    ⟨e₀, hentry, hretention, hcount⟩ | ⟨hentry, hmoves, hretention, hcount⟩
  · have hkeeps : (machine.run L₀ reports).KeepsVotes r := by
      unfold KeepsVotes
      rw [hentry]
      exact hretention
    obtain ⟨hle, hlt⟩ := h.counted _ _ hentry
    simp only [hkeeps, and_true]
    exact ⟨fun hk => by have := hle hk; omega, fun hk => by have := hlt hk; omega⟩
  · have hkeeps : (machine.run L₀ reports).KeepsVotes r ↔ 0 ≤ r.unsetAcceptCount := by
      unfold KeepsVotes
      rw [hentry]
      simp [hmoves, hretention]
    have hnone := h.unseen _ hentry
    have hbefore : L₀.VotesKept reports r.proposalID := votesKept_of_risers_empty hnone
    simp only [hnone, hkeeps, hbefore, true_and, Finset.card_empty]
    exact ⟨fun hk => by omega, fun hk => by omega⟩

/-- A report that is ignored is not rising. -/
theorem Tally.ignore {L₀ L : Learner} {reports : List Report} (h : Tally L₀ reports L)
    {r : Report} (hvalid : r.proposalID.isValid) (hignored : ¬L.Takes r) :
    Tally L₀ (reports ++ [r]) L := by
  have hfalling : ¬Rising reports r :=
    fun hrising => hignored ((h.takes_iff_rising hvalid).mpr hrising)
  have hrisers : ∀ p, risers (reports ++ [r]) p = risers reports p := by
    intro p
    rw [risers_concat, if_neg fun hr => hfalling hr.2]
  refine ⟨h.incomplete, fun a id hid => ?_, ?_, fun p hp => ?_, fun p e he => ?_⟩
  · obtain ⟨s, hs, hreport⟩ := h.reported a id hid
    exact ⟨s, List.mem_append_left _ hs, hreport⟩
  · intro s hs
    rcases List.mem_append.mp hs with hs | hs
    · exact h.highest s hs
    · rw [List.mem_singleton] at hs
      subst hs
      by_contra hnone
      refine hignored ⟨h.incomplete, hvalid, fun id hid => ?_⟩
      by_contra hge
      exact hnone ⟨id, hid, not_lt.mp hge⟩
  · rw [hrisers]
    exact h.unseen p hp
  · have hkept : L₀.VotesKept (reports ++ [r]) p ↔ L₀.VotesKept reports p := by
      rw [votesKept_concat]
      simp only [hfalling, false_imp_iff, imp_true_iff, and_true]
    rw [hrisers, hkept]
    exact h.counted p e he

/-- A report that is taken, with the entry that the learner sets for its ID. -/
theorem Tally.note {L₀ : Learner} {reports : List Report}
    (h : Tally L₀ reports (machine.run L₀ reports)) {r : Report}
    (htakes : (machine.run L₀ reports).Takes r) {entry : Proposal}
    (hentry : Counted (L₀.VotesKept (reports ++ [r]) r.proposalID)
      (risers (reports ++ [r]) r.proposalID).card entry.acceptCount) :
    Tally L₀ (reports ++ [r]) ((machine.run L₀ reports).noted r entry) := by
  refine ⟨h.incomplete, fun a id hid => ?_, fun s hs => ?_, fun p hp => ?_, fun p e he => ?_⟩
  · by_cases hself : a = r.fromUID
    · subst hself
      have heq : r.proposalID = id := by simpa [noted] using hid
      exact ⟨r, by simp, rfl, heq⟩
    · obtain ⟨s, hs, hreport⟩ :=
        h.reported a id (by simpa [noted, Function.update_of_ne hself] using hid)
      exact ⟨s, List.mem_append_left _ hs, hreport⟩
  · by_cases hself : s.fromUID = r.fromUID
    · refine ⟨r.proposalID, by simp [noted, hself], ?_⟩
      rcases List.mem_append.mp hs with hs | hs
      · exact ((h.takes_iff_rising htakes.2.1).mp htakes s hs hself).le
      · rw [List.mem_singleton] at hs
        rw [hs]
    · have hbefore : s ∈ reports := by
        rcases List.mem_append.mp hs with hs | hs
        · exact hs
        · rw [List.mem_singleton] at hs
          exact absurd (by rw [hs]) hself
      obtain ⟨id, hid, hle⟩ := h.highest s hbefore
      exact ⟨id, by simpa [noted, Function.update_of_ne hself] using hid, hle⟩
  · by_cases hself : p = r.proposalID
    · subst hself
      simp [noted] at hp
    · rw [risers_concat, if_neg fun hr => hself hr.1.symm]
      exact h.unseen p (by simpa [noted, Function.update_of_ne hself] using hp)
  · by_cases hself : p = r.proposalID
    · subst hself
      have heq : entry = e := by simpa [noted] using he
      rw [← heq]
      exact hentry
    · have hother : r.proposalID ≠ p := Ne.symm hself
      have hkept : L₀.VotesKept (reports ++ [r]) p ↔ L₀.VotesKept reports p := by
        rw [votesKept_concat]
        simp only [hother, false_imp_iff, and_true]
      rw [risers_concat, if_neg fun hr => hother hr.1, hkept]
      exact h.counted p e (by simpa [noted, Function.update_of_ne hself] using he)

/-- One report completes the learner or keeps the tally. -/
theorem Tally.next {L₀ : Learner} {reports : List Report}
    (h : Tally L₀ reports (machine.run L₀ reports)) {r : Report}
    (hvalid : r.proposalID.isValid) (hvalue : r.acceptedValue ≠ []) :
    (machine.next (machine.run L₀ reports) r).isComplete ∨
      Tally L₀ (reports ++ [r]) (machine.next (machine.run L₀ reports) r) := by
  rw [next_eq]
  rcases (machine.run L₀ reports).receiveAccepted_cases r with
    ⟨hignored, heq⟩ | ⟨htakes, hfound, heq⟩ | ⟨e, -, -, -, heq⟩ | ⟨e, htakes, hfound, -, heq⟩
  · rw [heq]
    exact Or.inr (h.ignore hvalid hignored)
  · rw [heq]
    refine Or.inr (h.note htakes ⟨fun hkept => ?_, fun _ => ?_⟩)
    · have hrising := (h.takes_iff_rising hvalid).mp htakes
      exact absurd ((votesKept_concat.mp hkept).2 rfl hrising) (not_keepsVotes_of_found_none hfound)
    · rw [h.card_risers_concat htakes]
      exact Int.natCast_pos.mpr (Nat.succ_pos _)
  · rw [heq]
    exact Or.inl (by simpa [isComplete, resolved] using hvalue)
  · rw [heq]
    exact Or.inr (h.note htakes (h.counted_of_found htakes hfound))

/-- A complete learner stays as it is. -/
theorem next_of_isComplete {L : Learner} (h : L.isComplete) (r : Report) :
    machine.next L r = L := by
  simp [Machine.next, machine, receiveAccepted, h]

/-- An incomplete learner becomes complete with a report if the count reaches the quorum. -/
theorem isComplete_next_iff {L : Learner} (hincomplete : ¬L.isComplete) {r : Report}
    (hvalue : r.acceptedValue ≠ []) :
    (machine.next L r).isComplete ↔
      ∃ e, L.Takes r ∧ L.found r = some e ∧ L.quorumSize ≤ e.acceptCount + 1 := by
  rw [next_eq]
  rcases L.receiveAccepted_cases r with
    ⟨hignored, heq⟩ | ⟨-, hfound, heq⟩ | ⟨e, htakes, hfound, hquorum, heq⟩ |
      ⟨e, -, hfound, hshort, heq⟩
  · rw [heq]
    exact ⟨fun h => absurd h hincomplete, fun ⟨_, htakes, _⟩ => absurd htakes hignored⟩
  · rw [heq]
    refine ⟨fun h => absurd h hincomplete, fun ⟨e, _, hsome, _⟩ => ?_⟩
    rw [hfound] at hsome
    cases hsome
  · rw [heq]
    exact ⟨fun _ => ⟨e, htakes, hfound, hquorum⟩,
      fun _ => by simpa [isComplete, resolved] using hvalue⟩
  · rw [heq]
    refine ⟨fun h => absurd h hincomplete, fun ⟨e', _, hsome, hquorum⟩ => ?_⟩
    rw [hfound] at hsome
    cases hsome
    omega

/-- A rising report that makes the risers of its ID a quorum completes a learner that has kept all
votes for that ID. -/
theorem Tally.isComplete_next_of_kept {L₀ : Learner} {reports : List Report}
    (h : Tally L₀ reports (machine.run L₀ reports)) {r : Report} (hvalid : r.proposalID.isValid)
    (hvalue : r.acceptedValue ≠ []) (hrising : Rising reports r)
    (hkept : L₀.VotesKept (reports ++ [r]) r.proposalID)
    (hquorum : (machine.run L₀ reports).quorumSize ≤
      (risers (reports ++ [r]) r.proposalID).card) :
    (machine.next (machine.run L₀ reports) r).isComplete := by
  have htakes := (h.takes_iff_rising hvalid).mpr hrising
  rw [isComplete_next_iff h.incomplete hvalue]
  cases hfound : (machine.run L₀ reports).found r with
  | none =>
    have hkeeps := (votesKept_concat.mp hkept).2 rfl hrising
    exact absurd hkeeps (not_keepsVotes_of_found_none hfound)
  | some e =>
    have hle := (h.counted_of_found htakes hfound).of_kept hkept
    exact ⟨e, htakes, rfl, le_trans hquorum hle⟩

/-- If a report completes the learner, and the risers of its ID were no quorum before, then all
votes for that ID have been kept. -/
theorem Tally.votesKept_of_isComplete_next {L₀ : Learner} {reports : List Report}
    (h : Tally L₀ reports (machine.run L₀ reports)) {r : Report} (hvalue : r.acceptedValue ≠ [])
    (hfew : (risers reports r.proposalID).card < (machine.run L₀ reports).quorumSize)
    (hcomplete : (machine.next (machine.run L₀ reports) r).isComplete) :
    L₀.VotesKept (reports ++ [r]) r.proposalID := by
  rw [isComplete_next_iff h.incomplete hvalue] at hcomplete
  obtain ⟨e, htakes, hfound, hcount⟩ := hcomplete
  by_contra hdropped
  have hlt := (h.counted_of_found htakes hfound).of_dropped hdropped
  have hcard := h.card_risers_concat htakes
  omega

/-- A run of a new learner keeps the tally until it is complete. -/
theorem run_isComplete_or_tally {quorumSize : Int} {active : Bool} {reports : List Report}
    (hvalid : ∀ r ∈ reports, r.proposalID.isValid) (hvalue : ∀ r ∈ reports, r.acceptedValue ≠ []) :
    (machine.run (new quorumSize active) reports).isComplete ∨
      Tally (new quorumSize active) reports (machine.run (new quorumSize active) reports) := by
  induction reports using List.reverseRecOn with
  | nil =>
    refine Or.inr ⟨by simp [isComplete, new], ?_, by simp,
      fun p _ => by simp [risers, risersAfter], ?_⟩
    · intro a id hid
      simp [new] at hid
    · intro p e he
      simp [new] at he
  | append_singleton reports r ih =>
    rw [Machine.run_concat]
    rcases ih (fun s hs => hvalid s (by simp [hs])) (fun s hs => hvalue s (by simp [hs])) with
      hcomplete | htally
    · exact Or.inl (by rwa [next_of_isComplete hcomplete])
    · exact htally.next (hvalid r (by simp)) (hvalue r (by simp))

/-- Two acceptors that have reported different IDs both move to (3, a). -/
def twoMovers : List Report :=
  [⟨[49], ⟨1, [97]⟩, [120], 0, 0⟩, ⟨[50], ⟨2, [97]⟩, [121], 0, 0⟩,
    ⟨[49], ⟨3, [97]⟩, [122], 0, 5⟩, ⟨[50], ⟨3, [97]⟩, [122], 0, 0⟩]

end Learner

end CppPaxos
