import CppPaxos.Agreement
import CppPaxos.DurableCluster

/-!
# Agreement with crashing acceptors

The votes are now the durable copies: the accepted pair of a copy is a vote of its
acceptor, the promised ID of the copy is the floor of its further votes, and what an
acceptor has in memory beyond its copy is not counted. A crash then undoes no vote.
Permits name votes, and a resolution of a learner names a quorum of permits.
-/

namespace CppPaxos

open Machines MessengerCall

variable {κ ι ν : Type*}

/-- How an acceptor evolves depends on the three durable members only. -/
theorem Acceptor.Evolves.of_durableCopy_eq {A B A' B' : Acceptor} (h : A.Evolves B)
    (hA : A'.durableCopy = A.durableCopy) (hB : B'.durableCopy = B.durableCopy) :
    A'.Evolves B' := by
  simp only [durableCopy, DurableCopy.mk.injEq] at hA hB
  obtain ⟨hA₁, hA₂, hA₃⟩ := hA
  obtain ⟨hB₁, hB₂, hB₃⟩ := hB
  refine ⟨?_, ?_, ?_⟩
  · rw [hA₁, hB₁]
    exact h.promisedID_le
  · rw [hA₂, hB₂]
    exact h.acceptedID_le
  · rw [hA₁, hA₂, hA₃, hB₂, hB₃]
    exact h.accepted_eq_or_ge

/-- The accepted pair is a matter of the durable members. -/
theorem Acceptor.acceptedPair_eq_of_durableCopy (A B : Acceptor)
    (h : B.durableCopy = A.durableCopy) : B.acceptedPair = A.acceptedPair := by
  simp only [durableCopy, DurableCopy.mk.injEq] at h
  simp only [acceptedPair, h.2.1, h.2.2]

namespace Host

/-- The acceptor that a crash at this moment leaves behind, unless the copy is just being
rewritten. -/
def recovered (H : Host) : Acceptor := H.acceptor.restart H.disk 0 true

/-- Recovery reads back the copy on disk. -/
@[simp] theorem recovered_durableCopy (H : Host) : H.recovered.durableCopy = H.disk := rfl

/-- The promised ID comes from there. -/
@[simp] theorem recovered_promisedID (H : Host) : H.recovered.promisedID = H.disk.promisedID := rfl

/-- So does the accepted ID. -/
@[simp] theorem recovered_acceptedID (H : Host) : H.recovered.acceptedID = H.disk.acceptedID := rfl

/-- An action rewrites the copy and leaves it in line with the acceptor, or it is a call that
leaves the copy alone, or nothing happens. -/
theorem next_cases (H : Host) (act : HostAction) :
    ((machine.next H act).acceptor.durableCopy = (machine.next H act).disk ∧
      ((machine.next H act).disk = H.disk ∨ (machine.next H act).disk = H.acceptor.durableCopy)) ∨
    (∃ call, act = .call call ∧ call ≠ .persisted ∧ (machine.next H act).disk = H.disk ∧
      (machine.next H act).acceptor = Acceptor.machine.next H.acceptor call) ∨
    machine.next H act = H := by
  cases act with
  | call call =>
    by_cases hskip : call = .persisted ∧ ¬H.acceptor.persistenceRequired
    · exact Or.inr (Or.inr (by simp only [Machine.next, machine, if_pos hskip]))
    · by_cases hpersisted : call = .persisted
      · subst hpersisted
        have hkept : H.acceptor.persistenceRequired := by simpa using hskip
        left
        simp only [Machine.next, machine, hkept, not_true_eq_false, and_false, if_false, if_true]
        exact ⟨rfl, Or.inr trivial⟩
      · right; left
        refine ⟨call, rfl, hpersisted, ?_, ?_⟩ <;>
          simp only [Machine.next, machine, if_neg hskip, if_neg hpersisted]
  | crash copyRewritten now active =>
    left
    refine ⟨?_, H.next_disk _⟩
    simp only [Machine.next, machine]
    split_ifs <;> rfl

/-- The call behind a message, which the guard of the owner has let through. -/
theorem of_mem_emits {H : Host} {act : HostAction} {o : MessengerCall}
    (ho : o ∈ machine.emits H act) :
    ∃ call, act = .call call ∧ machine.emits H act = Acceptor.machine.emits H.acceptor call ∧
      (machine.next H act).acceptor = Acceptor.machine.next H.acceptor call ∧
      (machine.next H act).disk = if call = .persisted then H.acceptor.durableCopy else H.disk := by
  cases act with
  | crash copyRewritten now active => simp [Machine.emits, machine] at ho
  | call call =>
    by_cases hskip : call = .persisted ∧ ¬H.acceptor.persistenceRequired
    · simp only [Machine.emits, machine, if_pos hskip, List.not_mem_nil] at ho
    · exact ⟨call, rfl, by simp only [Machine.emits, machine, if_neg hskip],
        by simp only [Machine.next, machine, if_neg hskip],
        by simp only [Machine.next, machine, if_neg hskip]⟩

end Host

/-- What is known of an acceptor, its durable copy and the messages it has sent. -/
structure HostFacts (R : Voting.Record ι ProposalID Str) (proposed : ProposalID → Str → Prop)
    (i : ι) (H : Host) (answers : List MessengerCall) : Prop where
  /-- The acceptor that would recover, with the answers of all incarnations. -/
  recovered : AcceptorFacts R proposed i H.recovered answers
  invariant : H.Invariant
  /-- The acceptor in memory is a later one. -/
  evolves : H.recovered.Evolves H.acceptor
  held_proposed : ∀ b v, H.acceptor.acceptedPair = some (b, v) → proposed b v
  permit : ∀ u p v, sendPermit u p v ∈ answers → R.voted i p v

section Hosts

variable {R R' : Voting.Record ι ProposalID Str} {proposed proposed' : ProposalID → Str → Prop}
  {i : ι} {H : Host} {answers : List MessengerCall} {quorumSize : ℕ}

/-- Another party's step leaves the facts of an acceptor true. -/
theorem HostFacts.keep (h : HostFacts R proposed i H answers) (hR : R.Extends R')
    (hvoted : ∀ b v, R'.voted i b v ↔ R.voted i b v ∨ H.recovered.acceptedPair = some (b, v))
    (hfloor : R'.floor i = H.recovered.promisedID)
    (hproposed : ∀ b v, proposed b v → proposed' b v) :
    HostFacts R' proposed' i H answers :=
  ⟨h.recovered.keep hR hvoted hfloor hproposed, h.invariant, h.evolves,
    fun b v hheld => hproposed b v (h.held_proposed b v hheld),
    fun u p v hsent => hR.voted i p v (h.permit u p v hsent)⟩

/-- What recovers evolves with each action. -/
theorem HostFacts.recovered_evolves (h : HostFacts R proposed i H answers) (act : HostAction) :
    H.recovered.Evolves (Host.machine.next H act).recovered := by
  rcases H.next_disk act with hdisk | hdisk
  · exact (Acceptor.Evolves.refl H.recovered).of_durableCopy_eq rfl hdisk
  · exact h.evolves.of_durableCopy_eq rfl hdisk

/-- What recovers after an action is again an earlier state of the acceptor in memory. -/
theorem HostFacts.evolves_next (h : HostFacts R proposed i H answers) {act : HostAction}
    (hact : act.ValidID) :
    (Host.machine.next H act).recovered.Evolves (Host.machine.next H act).acceptor := by
  rcases H.next_cases act with ⟨hcopy, -⟩ | ⟨call, rfl, -, hdisk, hnext⟩ | hsame
  · exact (Acceptor.Evolves.refl _).of_durableCopy_eq rfl hcopy
  · have hvalid : call.ValidID := hact
    have hstep := (h.invariant.acceptor.step hvalid).evolves h.invariant.acceptor
    rw [hnext]
    exact (h.evolves.trans hstep).of_durableCopy_eq hdisk rfl
  · rw [hsame]
    exact h.evolves

/-- The pair held in memory has been proposed, also after a crash. -/
theorem HostFacts.held_proposed_next (h : HostFacts R proposed i H answers) {act : HostAction}
    (hact : act.ValidID)
    (hrequest : ∀ u p v, act = .call (.receiveAcceptRequest u p v) → proposed p v) (b : ProposalID)
    (v : Str) (hheld : (Host.machine.next H act).acceptor.acceptedPair = some (b, v)) :
    proposed b v := by
  rcases H.next_cases act with ⟨hcopy, hdisk | hdisk⟩ | ⟨call, rfl, -, -, hnext⟩ | hsame
  · rw [H.recovered.acceptedPair_eq_of_durableCopy _ (hcopy.trans hdisk)] at hheld
    exact h.recovered.voted_proposed b v (h.recovered.voted_of_accepted b v hheld)
  · rw [H.acceptor.acceptedPair_eq_of_durableCopy _ (hcopy.trans hdisk)] at hheld
    exact h.held_proposed b v hheld
  · have hcall : call.ValidID := hact
    rw [hnext] at hheld
    obtain ⟨hvalid, hid, hvalue⟩ := Acceptor.acceptedPair_eq_some.mp hheld
    rcases (h.invariant.acceptor.step hcall).accepted_eq_or with
      ⟨hsame, hsame'⟩ | ⟨u, p, v', heq, -, -, -, hp, hv'⟩
    · apply h.held_proposed b v
      rw [hsame] at hvalid hid
      exact Acceptor.acceptedPair_eq_some.mpr ⟨hvalid, hid, hsame' ▸ hvalue⟩
    · rw [← hid, ← hvalue, hp, hv']
      exact hrequest u p v' (by rw [heq])
  · rw [hsame] at hheld
    exact h.held_proposed b v hheld

/-- A vote is not above the accepted ID of any later copy. -/
theorem HostFacts.voted_le_next (h : HostFacts R proposed i H answers) (act : HostAction)
    (hvoted : ∀ b v, R'.voted i b v ↔
      R.voted i b v ∨ (Host.machine.next H act).recovered.acceptedPair = some (b, v))
    (b : ProposalID) (v : Str) (hv : R'.voted i b v) :
    b ≤ (Host.machine.next H act).disk.acceptedID := by
  rcases (hvoted b v).mp hv with hold | hnew
  · exact (h.recovered.voted_le b v hold).trans (h.invariant.disk_le_next act).2
  · exact (Acceptor.acceptedPair_eq_some.mp hnew).2.1.ge

/-- A vote has been proposed: a new one was held in memory before the copy was rewritten. -/
theorem HostFacts.voted_proposed_next (h : HostFacts R proposed i H answers) (act : HostAction)
    (hvoted : ∀ b v, R'.voted i b v ↔
      R.voted i b v ∨ (Host.machine.next H act).recovered.acceptedPair = some (b, v))
    (b : ProposalID) (v : Str) (hv : R'.voted i b v) : proposed b v := by
  rcases (hvoted b v).mp hv with hold | hnew
  · exact h.recovered.voted_proposed b v hold
  · have hcopy : (Host.machine.next H act).recovered.durableCopy =
        (Host.machine.next H act).disk := rfl
    rcases H.next_disk act with hdisk | hdisk
    · rw [H.recovered.acceptedPair_eq_of_durableCopy _ (hcopy.trans hdisk)] at hnew
      exact h.recovered.voted_proposed b v (h.recovered.voted_of_accepted b v hnew)
    · rw [H.acceptor.acceptedPair_eq_of_durableCopy _ (hcopy.trans hdisk)] at hnew
      exact h.held_proposed b v hnew

/-- A permit names a vote: the owner has just rewritten the copy, or the acceptor has answered a
duplicate and the copy held the ID. -/
theorem HostFacts.permit_next (h : HostFacts R proposed i H answers)
    (hunique : ∀ b v v', proposed b v → proposed b v' → v = v') {act : HostAction}
    (hact : act.ValidID) (hdisk : H.AnswersFromDisk act)
    (hvoted : ∀ b v, R'.voted i b v ↔
      R.voted i b v ∨ (Host.machine.next H act).recovered.acceptedPair = some (b, v)) {u : Str}
    {p : ProposalID} {v : Str} (hsent : sendPermit u p v ∈ Host.machine.emits H act) :
    R'.voted i p v := by
  obtain ⟨call, rfl, hemits, -, hcopy⟩ := Host.of_mem_emits hsent
  rw [hemits] at hsent
  have hcall : call.ValidID := hact
  obtain ⟨hvalid, hp, hv, hp', hv', hsource⟩ :=
    (h.invariant.acceptor.step hcall).of_sendPermit_mem h.invariant.acceptor hsent
  rw [hp'] at hp
  rw [hv'] at hv
  have hheld : H.acceptor.acceptedPair = some (p, v) :=
    Acceptor.acceptedPair_eq_some.mpr ⟨hp ▸ hvalid, hp.symm, hv.symm⟩
  rcases hsource with rfl | ⟨rfl, hactive⟩
  · rw [if_pos rfl] at hcopy
    refine (hvoted p v).mpr (Or.inr ?_)
    rw [← hheld]
    exact H.acceptor.acceptedPair_eq_of_durableCopy _ hcopy
  · -- the ID is in the copy, and an ID determines the value proposed with it
    have hid : H.disk.acceptedID = p := hdisk hactive ⟨hp ▸ hvalid, hp, hv.symm⟩
    have hcopied : H.recovered.acceptedPair = some (p, H.disk.acceptedValue) :=
      Acceptor.acceptedPair_eq_some.mpr ⟨by rwa [H.recovered_acceptedID, hid], hid, rfl⟩
    have hvote := h.recovered.voted_of_accepted _ _ hcopied
    have hvalue : H.disk.acceptedValue = v :=
      hunique p _ v (h.recovered.voted_proposed _ _ hvote) (h.held_proposed p v hheld)
    rw [hvalue] at hvote
    exact (hvoted p v).mpr (Or.inl hvote)

/-- A promise is covered by the copy, and the pair it reports is at or above all votes. -/
theorem HostFacts.promise_next (h : HostFacts R proposed i H answers) {act : HostAction}
    (hact : act.ValidID) (hdisk : H.AnswersFromDisk act)
    (hvoted : ∀ b v, R'.voted i b v ↔
      R.voted i b v ∨ (Host.machine.next H act).recovered.acceptedPair = some (b, v))
    (hfloor : R'.floor i = (Host.machine.next H act).recovered.promisedID)
    (hrequest : ∀ u p v, act = .call (.receiveAcceptRequest u p v) → proposed p v) {u : Str}
    {p r : ProposalID} {w : Str} (hsent : sendPromise u p r w ∈ Host.machine.emits H act) :
    R'.Reports i p r ∧ Justified proposed r w := by
  have hcovered := (h.invariant.covers_emits hact hdisk).promise u p r w hsent
  have hheld := h.held_proposed_next hact hrequest
  have hI := (h.invariant.next hact).acceptor
  obtain ⟨call, hcall, hemits, hnext, -⟩ := Host.of_mem_emits hsent
  rw [hemits] at hsent
  have hvalid : call.ValidID := by rwa [hcall] at hact
  obtain ⟨-, -, hr, hw, -, hr', -⟩ :=
    (h.invariant.acceptor.step hvalid).of_sendPromise_mem h.invariant.acceptor hsent
  refine ⟨⟨?_, fun b v hv _ => ?_⟩, ?_⟩
  · rw [hfloor]
    exact hcovered
  · rw [hr, hr']
    refine (h.voted_le_next act hvoted b v hv).trans ?_
    rcases H.next_disk act with hcopy | hcopy <;> rw [hcopy]
    · exact h.invariant.acceptedID_le
    · exact le_rfl
  · rw [← hnext] at hr hw
    rcases hI.accepted with hvalid | ⟨hempty, hnothing⟩
    · exact Or.inr (hheld r w (Acceptor.acceptedPair_eq_some.mpr ⟨hvalid, hr.symm, hw.symm⟩))
    · exact Or.inl ⟨hr.trans hempty, hw.trans hnothing⟩

/-- **One action of an acceptor.** Its facts stay true, if it is a crash or a call whose accept
request has been proposed and which answers duplicates from disk only. -/
theorem HostFacts.step (h : HostFacts R proposed i H answers) (hR : R.Extends R')
    (hunique : ∀ b v v', proposed b v → proposed b v' → v = v') {act : HostAction}
    (hact : act.ValidID) (hdisk : H.AnswersFromDisk act)
    (hvoted : ∀ b v, R'.voted i b v ↔
      R.voted i b v ∨ (Host.machine.next H act).recovered.acceptedPair = some (b, v))
    (hfloor : R'.floor i = (Host.machine.next H act).recovered.promisedID)
    (hrequest : ∀ u p v, act = .call (.receiveAcceptRequest u p v) → proposed p v) :
    HostFacts R' proposed i (Host.machine.next H act) (answers ++ Host.machine.emits H act) := by
  refine ⟨⟨(h.invariant.next hact).restart 0 true, hfloor,
    fun b v hv => (hvoted b v).mpr (Or.inr hv), h.voted_le_next act hvoted,
    h.voted_proposed_next act hvoted, ?_⟩, h.invariant.next hact, h.evolves_next hact,
    h.held_proposed_next hact hrequest, ?_⟩
  · intro u p r w hsent
    rcases List.mem_append.mp hsent with hold | hnew
    · obtain ⟨hreports, hjustified⟩ := h.recovered.promise u p r w hold
      exact ⟨hreports.extend hR, hjustified⟩
    · exact h.promise_next hact hdisk hvoted hfloor hrequest hnew
  · intro u p v hsent
    rcases List.mem_append.mp hsent with hold | hnew
    · exact hR.voted i p v (h.permit u p v hold)
    · exact h.permit_next hunique hact hdisk hvoted hnew

end Hosts

/-! ### Learners -/

/-- What is known of a learner: it counts permits, and what it has resolved is decided. -/
structure LearnerFacts [Fintype ι] (S : Setup κ ι) (C : DurableCluster κ ι ν) (L : Learner)
    (resolutions : List MessengerCall) : Prop where
  quorumSize : L.quorumSize = S.quorumSize
  counts : ∃ reports, Learner.CountsVoters reports L ∧ ∀ r ∈ reports, S.LearnerEnabled C r
  resolved : ∀ p v, onResolution p v ∈ resolutions → S.Decided C p v

section Learners

variable [Fintype ι] {S : Setup κ ι} {C C' : DurableCluster κ ι ν} {L : Learner}
  {resolutions : List MessengerCall}

/-- A decision survives further answers. -/
theorem Setup.Decided.mono {p : ProposalID} {v : Str} (h : S.Decided C p v)
    (hanswers : ∀ i, C.answers i ⊆ C'.answers i) : S.Decided C' p v := by
  obtain ⟨Q, hQ, hpermitted⟩ := h
  refine ⟨Q, hQ, fun i hi => ?_⟩
  obtain ⟨toUID, hsent⟩ := hpermitted i hi
  exact ⟨toUID, hanswers i hsent⟩

/-- The facts of a learner stay true while the acceptors send more. -/
theorem LearnerFacts.keep (h : LearnerFacts S C L resolutions)
    (hanswers : ∀ i, C.answers i ⊆ C'.answers i) : LearnerFacts S C' L resolutions := by
  obtain ⟨reports, hcounts, henabled⟩ := h.counts
  refine ⟨h.quorumSize, ⟨reports, hcounts, fun r hr => ?_⟩,
    fun p v hresolved => (h.resolved p v hresolved).mono hanswers⟩
  obtain ⟨i, hi, toUID, hsent⟩ := henabled r hr
  exact ⟨i, hi, toUID, hanswers i hsent⟩

/-- A learner that is told of a permit, and finds no votes in uninitialised memory, keeps its
facts: when it resolves, the voters it has counted are a quorum that sent permits. -/
theorem LearnerFacts.step [DecidableEq ι] (h : LearnerFacts S C L resolutions)
    (hunique : ∀ i j p v v', C.Permitted i p v → C.Permitted j p v' → v = v') {r : Report}
    (hr : S.LearnerEnabled C r) (hfinds : L.FindsNoVotes r) :
    LearnerFacts S C (Learner.machine.next L r)
      (resolutions ++ Learner.machine.emits L r) := by
  obtain ⟨reports, hcounts, henabled⟩ := h.counts
  have henabled' : ∀ s ∈ reports ++ [r], S.LearnerEnabled C s := by
    intro s hs
    rcases List.mem_append.mp hs with hold | hnew
    · exact henabled s hold
    · rw [List.mem_singleton.mp hnew]
      exact hr
  refine ⟨?_, ⟨reports ++ [r], hcounts.next hfinds, henabled'⟩, fun p v hresolved => ?_⟩
  · rw [Learner.next_quorumSize]
    exact h.quorumSize
  rcases List.mem_append.mp hresolved with hold | hnew
  · exact h.resolved p v hold
  · obtain ⟨rfl, rfl, e, htakes, hfound, hquorum⟩ := Learner.of_onResolution_mem hnew
    obtain ⟨voters, hvoters, hle⟩ := hcounts.of_found hfinds htakes hfound e
    have hpermitted : ∀ u ∈ voters, ∃ i, S.acceptorUID i = u ∧
        C.Permitted i r.proposalID r.acceptedValue := by
      intro u hu
      obtain ⟨s, hs, hfrom, hid⟩ := hvoters.reported u hu
      obtain ⟨i, hi, hsent⟩ := henabled' s hs
      obtain ⟨j, -, hsent'⟩ := hr
      rw [hid] at hsent
      rw [hunique i j _ _ _ hsent hsent'] at hsent
      exact ⟨i, hi.trans hfrom, hsent⟩
    refine ⟨Finset.univ.filter fun i => S.acceptorUID i ∈ voters, ?_, fun i hi => ?_⟩
    · have hcard := Voting.card_le_card_filter_name S.acceptorUID fun u hu =>
        (hpermitted u hu).imp fun _ hi => hi.1
      rw [h.quorumSize] at hquorum
      omega
    · obtain ⟨j, hj, hsent⟩ := hpermitted _ (Finset.mem_filter.mp hi).2
      rwa [← S.acceptorUID_injective hj]

end Learners

/-! ### The cluster -/

/-- What is known of all parties. -/
structure DurableFacts [Fintype ι] (S : Setup κ ι) (R : Voting.Record ι ProposalID Str)
    (X : DurableCluster κ ι ν × (κ → Bool)) : Prop where
  host : ∀ i, HostFacts R X.1.Proposed i (X.1.hosts i) (X.1.answers i)
  proposer : ∀ k, ProposerFacts S R X.1.Proposed k (X.1.proposers k) (X.2 k) (X.1.requests k)
  learner : ∀ n, LearnerFacts S X.1 (X.1.learners n) (X.1.resolutions n)

namespace DurableFacts

variable [Fintype ι] {S : Setup κ ι} {R : Voting.Record ι ProposalID Str}
  {C : DurableCluster κ ι ν} {stale : κ → Bool}

/-- The facts say where the values of the accept requests come from. -/
theorem proposals (h : DurableFacts S R (C, stale)) :
    ProposalFacts S.quorumSize R C.Proposed :=
  proposalFacts_of_proposers h.proposer fun i => (h.host i).recovered.voted_proposed

/-- A permit carries the value proposed with its ID. -/
theorem permitted_unique (h : DurableFacts S R (C, stale)) (i j : ι) (p : ProposalID) (v v' : Str)
    (hpermitted : C.Permitted i p v) (hpermitted' : C.Permitted j p v') : v = v' := by
  obtain ⟨u, hsent⟩ := hpermitted
  obtain ⟨u', hsent'⟩ := hpermitted'
  have hproposals := h.proposals
  exact hproposals.unique p v v' (hproposals.of_voted i p v ((h.host i).permit u p v hsent))
    (hproposals.of_voted j p v' ((h.host j).permit u' p v' hsent'))

/-- A decision is a choice of the voting record. -/
theorem chosen_of_decided (h : DurableFacts S R (C, stale)) {p : ProposalID} {v : Str}
    (hdecided : S.Decided C p v) : R.Chosen S.quorumSize p v := by
  obtain ⟨Q, hQ, hpermitted⟩ := hdecided
  refine ⟨Q, hQ, fun i hi => ?_⟩
  obtain ⟨u, hsent⟩ := hpermitted i hi
  exact (h.host i).permit u p v hsent

/-- Decisions carry one value. -/
theorem decided_unique [DecidableEq ι] (h : DurableFacts S R (C, stale)) {p p' : ProposalID}
    {v v' : Str} (hdecided : S.Decided C p v) (hdecided' : S.Decided C p' v') : v = v' := by
  have hproposals := h.proposals
  refine Voting.Record.chosen_unique S.majority ?_ ?_ (h.chosen_of_decided hdecided)
    (h.chosen_of_decided hdecided')
  · intro i j b w w' hvoted hvoted'
    exact hproposals.unique b w w' (hproposals.of_voted i b w hvoted)
      (hproposals.of_voted j b w' hvoted')
  · intro i b w hvoted
    exact hproposals.safe b w (hproposals.of_voted i b w hvoted)

/-- A decided value stays: it is the only one proposed with the same ID or a larger one. -/
theorem proposed_eq_of_decided [DecidableEq ι] (h : DurableFacts S R (C, stale))
    {p p' : ProposalID} {v v' : Str} (hdecided : S.Decided C p v) (hproposed : C.Proposed p' v')
    (hle : p ≤ p') : v' = v := by
  have hproposals := h.proposals
  have hchosen := h.chosen_of_decided hdecided
  rcases hle.lt_or_eq with hlt | rfl
  · exact ((hproposals.safe p' v' hproposed).eq_of_chosen S.majority hlt hchosen).symm
  · -- a quorum is not empty, so some acceptor has voted for the pair
    obtain ⟨Q, hQ, hvoted⟩ := hchosen
    obtain ⟨i, hi⟩ : Q.Nonempty := Finset.card_pos.mp (S.quorumSize_pos.trans_le hQ)
    exact hproposals.unique p v' v hproposed (hproposals.of_voted i p v (hvoted i hi))

/-- The copies of later hosts extend the record. -/
theorem extends_noteVotes (h : DurableFacts S R (C, stale)) {hosts : ι → Host}
    (hevolves : ∀ i, (C.hosts i).recovered.Evolves (hosts i).recovered) :
    R.Extends (noteVotes R fun i => (hosts i).recovered) :=
  CppPaxos.extends_noteVotes (fun i => (h.host i).recovered.floor)
    (fun i => (h.host i).recovered.voted_of_accepted) hevolves

/-- The requests delivered to an acceptor carry valid IDs. -/
theorem validID (h : DurableFacts S R (C, stale)) {act : HostAction}
    (henabled : S.HostEnabled C act) : act.ValidID := by
  cases act with
  | crash => exact trivial
  | call call =>
    cases call with
    | receivePrepare now u p =>
      obtain ⟨k, -, hsent⟩ := henabled
      have huid := (h.proposer k).prepare_uid p hsent
      simpa [HostAction.ValidID, AcceptorCall.ValidID, ProposalID.isValid, huid] using
        S.proposerUID_ne_nil k
    | receiveAcceptRequest u p v =>
      obtain ⟨k, -, hsent⟩ := henabled
      exact h.proposals.valid p v ⟨k, hsent⟩
    | persisted => exact trivial
    | setActive => exact trivial

/-- The calls enabled on a proposer are regular. -/
theorem regular_of_enabled {k : κ} {call : ProposerCall}
    (henabled : S.DurableProposerEnabled C k call) : call.Regular := by
  cases call with
  | setProposal => exact henabled
  | setLeader => exact absurd henabled not_false
  | _ => exact trivial

/-- The facts hold at the start, with no votes. -/
theorem durableFacts_start : DurableFacts S ⟨fun _ _ _ => False, fun _ => .empty⟩
    ((S.durableStart : DurableCluster κ ι ν), fun _ => false) := by
  refine ⟨fun i => ⟨⟨Acceptor.invariant_new _ _ _ _, rfl, ?_, ?_, ?_, ?_⟩,
    Host.invariant_new _ _ _ _, ⟨le_rfl, le_rfl, Or.inl ⟨rfl, rfl⟩⟩, ?_, ?_⟩, fun k => ?_,
    fun n => ?_⟩
  · intro b v hpair
    simp [Setup.durableStart, Host.new, Host.recovered, Acceptor.restart, Acceptor.recover,
      Acceptor.acceptedPair] at hpair
  · exact fun b v hv => absurd hv not_false
  · exact fun b v hv => absurd hv not_false
  · intro u p r w hsent
    simp [Setup.durableStart] at hsent
  · intro b v hpair
    simp [Setup.durableStart, Host.new, Acceptor.new, Acceptor.acceptedPair] at hpair
  · intro u p v hsent
    simp [Setup.durableStart] at hsent
  · refine ⟨rfl, rfl, ⟨?_, ?_, ?_, ?_⟩, ?_, ?_, ?_, ?_, Or.inl rfl, ?_⟩ <;>
      simp [Setup.durableStart, Proposer.new]
  · refine ⟨rfl, ⟨[], ?_, by simp⟩, by simp [Setup.durableStart]⟩
    intro p e hentry
    simp [Setup.durableStart, Learner.new] at hentry

variable [DecidableEq κ] [DecidableEq ι] [DecidableEq ν]

/-- An action of a proposer keeps the facts. -/
theorem proposer_step (h : DurableFacts S R (C, stale)) {k : κ} {call : ProposerCall}
    (henabled : S.DurableProposerEnabled C k call)
    (havoids : DurableCluster.AvoidsFlaws (C, stale) (.proposer k call)) :
    DurableFacts S (noteVotes R fun i => (C.hosts i).recovered)
      (DurableCluster.trackedMachine.next (C, stale) (.proposer k call)) := by
  have hR := h.extends_noteVotes fun i => Acceptor.Evolves.refl (C.hosts i).recovered
  have hproposed : ∀ b v, C.Proposed b v →
      (DurableCluster.machine.next C (.proposer k call)).Proposed b v := by
    rintro b v ⟨j, hsent⟩
    refine ⟨j, ?_⟩
    rw [DurableCluster.next_proposer]
    by_cases hself : j = k
    · subst hself
      simp [hsent]
    · simpa [Function.update_of_ne hself] using hsent
  have hpromise : ∀ u p r w, call = .receivePromise u p r w →
      ∃ i, S.acceptorUID i = u ∧ R.Reports i p r ∧ Justified C.Proposed r w := by
    rintro u p r w rfl
    obtain ⟨i, hi, hsent⟩ := henabled
    exact ⟨i, hi, (h.host i).recovered.promise _ p r w hsent⟩
  obtain ⟨hwrap, hfresh, hkeeps⟩ := havoids
  rw [DurableCluster.trackedMachine_next]
  refine ⟨fun i => (h.host i).keep hR (fun b v => Iff.rfl) rfl hproposed, fun j => ?_,
    fun n => (h.learner n).keep fun i => List.Subset.refl _⟩
  by_cases hself : j = k
  · subst hself
    have hstep := ((h.proposer j).step h.proposals (regular_of_enabled henabled) hwrap hfresh
      hkeeps hpromise hproposed).keep hR fun _ _ hb => hb
    simpa [DurableCluster.next_proposer, DurableCluster.staleAfter] using hstep
  · have hkeep := (h.proposer j).keep hR hproposed
    simpa [DurableCluster.next_proposer, DurableCluster.staleAfter, Function.update_of_ne hself]
      using hkeep

/-- An action of an acceptor, or its crash, keeps the facts. -/
theorem host_step (h : DurableFacts S R (C, stale)) {i : ι} {act : HostAction}
    (henabled : S.HostEnabled C act) (hdisk : (C.hosts i).AnswersFromDisk act) :
    DurableFacts S
      (noteVotes R fun j => ((DurableCluster.machine.next C (.host i act)).hosts j).recovered)
      (DurableCluster.trackedMachine.next (C, stale) (.host i act)) := by
  have hself : (DurableCluster.machine.next C (.host i act)).hosts i =
      Host.machine.next (C.hosts i) act := by
    simp [DurableCluster.next_host]
  have hother : ∀ j, j ≠ i →
      (DurableCluster.machine.next C (.host i act)).hosts j = C.hosts j := by
    intro j hj
    simp [DurableCluster.next_host, Function.update_of_ne hj]
  have hR : R.Extends
      (noteVotes R fun j => ((DurableCluster.machine.next C (.host i act)).hosts j).recovered) := by
    refine h.extends_noteVotes fun j => ?_
    by_cases hj : j = i
    · subst hj
      rw [hself]
      exact (h.host j).recovered_evolves act
    · rw [hother j hj]
      exact Acceptor.Evolves.refl _
  have hrequest : ∀ u p v, act = .call (.receiveAcceptRequest u p v) → C.Proposed p v := by
    rintro u p v rfl
    obtain ⟨k, -, hsent⟩ := henabled
    exact ⟨k, hsent⟩
  have hanswers : ∀ j, C.answers j ⊆ (DurableCluster.machine.next C (.host i act)).answers j := by
    intro j call hcall
    rw [DurableCluster.next_host]
    by_cases hj : j = i
    · subst hj
      simp [hcall]
    · simpa [Function.update_of_ne hj] using hcall
  have hsame : (DurableCluster.machine.next C (.host i act)).Proposed = C.Proposed := rfl
  rw [DurableCluster.trackedMachine_next]
  refine ⟨fun j => ?_, fun k => (h.proposer k).keep hR fun _ _ hb => hb,
    fun n => (h.learner n).keep hanswers⟩
  by_cases hj : j = i
  · subst hj
    have hfacts := (h.host j).step hR h.proposals.unique (h.validID henabled) hdisk
      (fun b v => by rw [← hself]; exact Iff.rfl) (by rw [← hself]; rfl) hrequest
    rw [hsame]
    simpa [DurableCluster.next_host] using hfacts
  · have hfacts := (h.host j).keep hR (fun b v => by rw [← hother j hj]; exact Iff.rfl)
      (by rw [← hother j hj]; rfl) fun _ _ hb => hb
    rw [hsame]
    simpa [DurableCluster.next_host, Function.update_of_ne hj] using hfacts

/-- A report to a learner keeps the facts. -/
theorem learner_step (h : DurableFacts S R (C, stale)) {n : ν} {report : Report}
    (henabled : S.LearnerEnabled C report) (hfinds : (C.learners n).FindsNoVotes report) :
    DurableFacts S (noteVotes R fun i => (C.hosts i).recovered)
      (DurableCluster.trackedMachine.next (C, stale) (.learner n report)) := by
  have hR := h.extends_noteVotes fun i => Acceptor.Evolves.refl (C.hosts i).recovered
  rw [DurableCluster.trackedMachine_next]
  refine ⟨fun i => (h.host i).keep hR (fun b v => Iff.rfl) rfl fun _ _ hb => hb,
    fun k => (h.proposer k).keep hR fun _ _ hb => hb, fun m => ?_⟩
  by_cases hself : m = n
  · subst hself
    have hstep : LearnerFacts S (DurableCluster.machine.next C (.learner m report)) _ _ :=
      ((h.learner m).step h.permitted_unique henabled hfinds).keep fun i => List.Subset.refl _
    simpa [DurableCluster.next_learner] using hstep
  · have hkeep : LearnerFacts S (DurableCluster.machine.next C (.learner n report)) _ _ :=
      (h.learner m).keep fun i => List.Subset.refl _
    simpa [DurableCluster.next_learner, Function.update_of_ne hself] using hkeep

/-- A voting record that explains a state becomes one that explains the state after an action. -/
theorem next {X : DurableCluster κ ι ν × (κ → Bool)} (h : DurableFacts S R X)
    {act : DurableAction κ ι ν} (henabled : S.DurableEnabled X.1 act)
    (havoids : DurableCluster.AvoidsFlaws X act) :
    ∃ R', DurableFacts S R' (DurableCluster.trackedMachine.next X act) := by
  obtain ⟨C, stale⟩ := X
  cases act with
  | proposer k call => exact ⟨_, h.proposer_step henabled havoids⟩
  | host i act => exact ⟨_, h.host_step henabled havoids⟩
  | learner n report => exact ⟨_, h.learner_step henabled havoids⟩

/-- Some voting record explains the state that a run ends in. -/
theorem exists_of_soundRun {acts : List (DurableAction κ ι ν)} (hrun : S.SoundRun acts) :
    ∃ R, DurableFacts S R
      (DurableCluster.trackedMachine.run (S.durableStart, fun _ => false) acts) :=
  hrun.invariant (I := fun X => ∃ R, DurableFacts S R X) ⟨_, durableFacts_start⟩
    fun _ _ ⟨_, h⟩ ⟨henabled, havoids⟩ => h.next henabled havoids

end DurableFacts

namespace Setup

variable [Fintype ι] {S : Setup κ ι} [DecidableEq κ] [DecidableEq ι] [DecidableEq ν]

/-- **A decision outlives crashes.** In every sound run, once a quorum of acceptors has permitted a
pair, each in whichever of its incarnations, every pair that a quorum has permitted carries the
same value, and so does every accept request sent with the same ID or a larger one. -/
theorem decision_survives_crashes {acts : List (DurableAction κ ι ν)} (hrun : S.SoundRun acts)
    {p : ProposalID} {v : Str}
    (hdecided : S.Decided (DurableCluster.machine.run S.durableStart acts) p v) :
    (∀ p' v', S.Decided (DurableCluster.machine.run S.durableStart acts) p' v' → v' = v) ∧
      ∀ p' v', (DurableCluster.machine.run S.durableStart acts).Proposed p' v' → p ≤ p' →
        v' = v := by
  obtain ⟨R, h⟩ := DurableFacts.exists_of_soundRun hrun
  rw [← DurableCluster.trackedMachine_run_fst (S.durableStart, fun _ => false)] at hdecided ⊢
  exact ⟨fun p' v' hdecided' => h.decided_unique hdecided' hdecided,
    fun p' v' hproposed hle => h.proposed_eq_of_decided hdecided hproposed hle⟩

/-- **Learners agree.** In every sound run each resolution of a learner is decided, and the
resolutions of all learners, at whatever moments, carry one value. -/
theorem learners_agree {acts : List (DurableAction κ ι ν)} (hrun : S.SoundRun acts) {n m : ν}
    {p p' : ProposalID} {v v' : Str}
    (hn : onResolution p v ∈ (DurableCluster.machine.run S.durableStart acts).resolutions n)
    (hm : onResolution p' v' ∈ (DurableCluster.machine.run S.durableStart acts).resolutions m) :
    S.Decided (DurableCluster.machine.run S.durableStart acts) p v ∧ v = v' := by
  obtain ⟨R, h⟩ := DurableFacts.exists_of_soundRun hrun
  rw [← DurableCluster.trackedMachine_run_fst (S.durableStart, fun _ => false)] at hn hm ⊢
  have hdecided := (h.learner n).resolved p v hn
  exact ⟨hdecided, h.decided_unique hdecided ((h.learner m).resolved p' v' hm)⟩

/-! ### A run with two crashes -/

/-- Acceptor `i` handles a prepare request for `p` and persists its promise. -/
def hostPromises (i : Fin 3) (p : ProposalID) : List (DurableAction (Fin 2) (Fin 3) Bool) :=
  [.host i (.call (.receivePrepare 0 p.uid p)), .host i (.call .persisted)]

/-- Acceptor `i` handles an accept request for `(p, v)` and persists its permit. -/
def hostPermits (i : Fin 3) (p : ProposalID) (v : Str) :
    List (DurableAction (Fin 2) (Fin 3) Bool) :=
  [.host i (.call (.receiveAcceptRequest p.uid p v)), .host i (.call .persisted)]

/-- Proposer `k` hears of the promise of acceptor `i`. -/
def hearsPromise (k : Fin 2) (i : Fin 3) (p r : ProposalID) (w : Str) :
    List (DurableAction (Fin 2) (Fin 3) Bool) :=
  [.proposer k (.receivePromise (twoOnThree.acceptorUID i) p r w)]

/-- Learner `n` hears of the permits of three acceptors for `(p, v)`. -/
def hearsPermits (n : Bool) (i j l : Fin 3) (p : ProposalID) (v : Str) :
    List (DurableAction (Fin 2) (Fin 3) Bool) :=
  [i, j, l].map fun i => .learner n ⟨twoOnThree.acceptorUID i, p, v, 0, 0⟩

/-- Proposer `z` is elected and its value decided, then acceptor `j` crashes. Proposer `b` is
elected, and acceptor `i` crashes right after it has recorded the accept request of `b`. Each
learner hears of one of the two ballots. -/
def crashesBetween (b z : Fin 2) (i j l : Fin 3) (p p' : ProposalID) :
    List (DurableAction (Fin 2) (Fin 3) Bool) :=
  [.proposer z (.setProposal [120]), .proposer z (.prepare true)] ++
    hostPromises i p ++ hostPromises j p ++
    hearsPromise z i p .empty [] ++ hearsPromise z j p .empty [] ++
    hostPermits i p [120] ++ hostPermits j p [120] ++ hostPermits l p [120] ++
    hearsPermits false i j l p [120] ++ [.host j (.crash false 9 true)] ++
  [.proposer b (.setProposal [121]), .proposer b (.prepare true), .proposer b (.prepare true)] ++
    hostPromises j p' ++ hostPromises l p' ++
    hearsPromise b j p' p [120] ++ hearsPromise b l p' p [120] ++
  [.host i (.call (.receiveAcceptRequest p'.uid p' [120])), .host i (.crash false 9 true)] ++
    hostPermits i p' [120] ++ hostPermits j p' [120] ++ hostPermits l p' [120] ++
    hearsPermits true i j l p' [120]

set_option maxRecDepth 4000 in
/-- The run reaches none of the flaws. -/
theorem soundRun_crashesBetween :
    twoOnThree.SoundRun (crashesBetween 0 1 0 1 2 ⟨1, [90]⟩ ⟨2, [66]⟩) := by decide

set_option maxRecDepth 4000 in
/-- The value decided before the crashes is proposed again after them. -/
theorem decision_survives_crashes_crashesBetween :
    let C := DurableCluster.machine.run twoOnThree.durableStart
      (crashesBetween 0 1 0 1 2 ⟨1, [90]⟩ ⟨2, [66]⟩)
    C.Proposed ⟨2, [66]⟩ [120] ∧ ∀ p v, C.Proposed p v → ⟨1, [90]⟩ ≤ p → v = [120] := by
  intro C
  have hdecided : twoOnThree.Decided C ⟨1, [90]⟩ [120] := ⟨{0, 1}, by decide, by decide⟩
  exact ⟨⟨0, by decide⟩, (decision_survives_crashes soundRun_crashesBetween hdecided).2⟩

set_option maxRecDepth 4000 in
/-- Both learners resolve the same value. -/
theorem learners_agree_crashesBetween :
    let C := DurableCluster.machine.run twoOnThree.durableStart
      (crashesBetween 0 1 0 1 2 ⟨1, [90]⟩ ⟨2, [66]⟩)
    twoOnThree.Decided C ⟨1, [90]⟩ [120] ∧ twoOnThree.Decided C ⟨2, [66]⟩ [120] := by
  intro C
  have hfirst : onResolution ⟨1, [90]⟩ [120] ∈ C.resolutions false := by decide
  have hsecond : onResolution ⟨2, [66]⟩ [120] ∈ C.resolutions true := by decide
  exact ⟨(learners_agree soundRun_crashesBetween hfirst hsecond).1,
    (learners_agree soundRun_crashesBetween hsecond hfirst).1⟩

end Setup

end CppPaxos
