import CppPaxos.NodeValues
import CppPaxos.Outbidding
import CppPaxos.SplitVote

/-!
# Which nodes can still be elected

A node can be elected with the promises it holds and with those that it can still get: of
the acceptors that have recorded nothing, and of those locked to its current ID. No step of
a cluster adds an acceptor to these, and as long as they are a quorum, their answers are
enough. A leader that begins a new ballot has none left but the free ones, and those are
too few.
-/

namespace CppPaxos

open Machines MessengerCall

namespace Proposer

/-- A quorum of promises makes a leader. -/
def QuorumLeads (P : Proposer) : Prop := P.quorumSize ≤ P.promisesReceived.card → P.leader

/-- It stays so, unless the flag is set from outside. -/
theorem QuorumLeads.next {P : Proposer} (h : P.QuorumLeads) (hquorum : 0 < P.quorumSize)
    {call : ProposerCall} (hset : ∀ leader, call ≠ .setLeader leader) :
    (machine.next P call).QuorumLeads := by
  by_cases hprepare : call = .prepare true
  · subst hprepare
    intro hcard
    have hzero : P.quorumSize ≤ 0 := hcard
    omega
  by_cases hleader : P.leader
  · exact fun _ => leader_next_of_leader hleader hprepare (hset false)
  intro hcard
  rw [next_quorumSize] at hcard
  by_cases hgrows : (machine.next P call).promisesReceived ⊆ P.promisesReceived
  · exact absurd (h (hcard.trans (Finset.card_le_card hgrows))) hleader
  · obtain ⟨u, hu, hnew⟩ := Finset.not_subset.mp hgrows
    rcases promisesReceived_next_cases hu with ⟨hheld, -⟩ | ⟨p, r, w, rfl, hcounts, -⟩
    · exact absurd hheld hnew
    · rw [next_receivePromise_of_counts hcounts] at hcard ⊢
      simp only [countPromise_promisesReceived, observeProposal_promisesReceived] at hcard
      simp [hcard]

/-- A promise for the current ID is held afterwards, and the ID stays. -/
theorem next_receivePromise_current (P : Proposer) (u : Str) (r : ProposalID) (w : Str) :
    (machine.next P (.receivePromise u P.proposalID r w)).promisesReceived =
        insert u P.promisesReceived ∧
      (machine.next P (.receivePromise u P.proposalID r w)).proposalID = P.proposalID := by
  have hsame : P.observeProposal u P.proposalID = P :=
    P.observeProposal_of_not_raises u _ fun hraises => hraises.2 rfl
  by_cases hheld : u ∈ P.promisesReceived
  · have hignored : ¬P.Counts u P.proposalID := fun hcounts => hcounts.2 hheld
    rw [next_receivePromise_of_not_counts hignored, hsame, Finset.insert_eq_of_mem hheld]
    exact ⟨rfl, rfl⟩
  · have hcounts : P.Counts u P.proposalID := ⟨by rw [hsame], hheld⟩
    rw [next_receivePromise_of_counts hcounts, hsame]
    simp

/-- The prepare requests sent in a run without wrap-around are not above the ID it ends with. -/
theorem le_of_sendPrepare_mem {P : Proposer} {calls : List ProposerCall}
    (hwrap : machine.Admits NoWrap P calls) {p : ProposalID}
    (h : sendPrepare p ∈ machine.trace P calls) : p ≤ (machine.run P calls).proposalID := by
  induction calls generalizing P with
  | nil => cases h
  | cons call calls ih =>
    rcases List.mem_append.mp h with hnow | hlater
    · rw [of_sendPrepare_mem hnow]
      exact (run_goes_on hwrap.2).1
    · exact ih hwrap.2 hlater

end Proposer

/-- A prepare request leaves the recorded ID, or is recorded. -/
theorem Acceptor.promisedID_receivePrepare_cases (A : Acceptor) (now : UInt64) (u : Str)
    (p : ProposalID) :
    (A.receivePrepare now u p).1.promisedID = A.promisedID ∨
      (A.receivePrepare now u p).1.promisedID = p := by
  unfold Acceptor.receivePrepare
  split_ifs <;> simp

/-- A locked acceptor that has recorded nothing, or this ID, has recorded it after a request. -/
theorem Acceptor.Locked.promisedID_receivePrepare {A : Acceptor} {sent : List MessengerCall}
    (h : A.Locked sent) {p : ProposalID} (hp : p.isValid)
    (hopen : A.promisedID.isValid = false ∨ A.promisedID = p) (now : UInt64) (u : Str) :
    (A.receivePrepare now u p).1.promisedID = p := by
  rcases hopen with hfree | hsame
  · have hidle : A.pendingPromiseUID.isEmpty := by
      by_contra hpending
      rw [h.invariant.pendingPromise (by simpa using hpending)] at hfree
      cases hfree
    simp [Acceptor.receivePrepare, hfree, hidle]
  · simp [Acceptor.receivePrepare, hsame, hp]

/-- A locked acceptor promises the ID that it has recorded. -/
theorem Acceptor.Locked.sendPromise_mem {A : Acceptor} {sent : List MessengerCall}
    (h : A.Locked sent) {p : ProposalID} (hp : p.isValid) (hsame : A.promisedID = p) (now : UInt64)
    (u : Str) :
    sendPromise u p A.acceptedID A.acceptedValue ∈ (A.receivePrepare now u p).2 := by
  simp [Acceptor.receivePrepare, hsame, hp, h.active]

namespace PaxosNode

/-- A node prepares a new ID only in a ballot that it begins. -/
theorem startsBallot_of_prepare_mem {N : PaxosNode} {call : NodeCall}
    (h : .prepare true ∈ N.proposerCalls call) : N.StartsBallot call := by
  cases call with
  | setLeaderProposalID | pulse | receivePrepare => simp [proposerCalls] at h
  | setActive | receivePromise => simp [proposerCalls] at h
  | prepare increment =>
    simp only [proposerCalls, List.mem_singleton, ProposerCall.prepare.injEq] at h
    exact h.symm
  | pollLiveness | acquireLeadership | receivePrepareNACK =>
    by_contra hstarts
    simp [proposerCalls, hstarts] at h
  | receiveHeartbeat | receiveAcceptNACK =>
    simp only [proposerCalls] at h
    split_ifs at h <;> simp at h

/-- A node takes the leader flag away when it hears of another leader, or of too many refusals. -/
theorem setLeader_mem_cases {N : PaxosNode} {call : NodeCall} {leader : Bool}
    (h : .setLeader leader ∈ N.proposerCalls call) :
    (∃ now uid id, call = .receiveHeartbeat now uid id ∧ N.proposer.leader ∧
        uid ≠ N.proposer.proposerUID) ∨
      ∃ u p id, call = .receiveAcceptNACK u p id := by
  cases call with
  | receiveHeartbeat now uid id =>
    simp only [proposerCalls] at h
    split_ifs at h with hdemotes
    · exact Or.inl ⟨now, uid, id, rfl, hdemotes.2⟩
    · cases h
  | receiveAcceptNACK u p id => exact Or.inr ⟨u, p, id, rfl⟩
  | setLeaderProposalID | pulse | receivePrepare | setActive | prepare | receivePromise =>
    simp [proposerCalls] at h
  | pollLiveness | acquireLeadership | receivePrepareNACK =>
    simp only [proposerCalls] at h
    split_ifs at h <;> simp at h

/-- A new ballot drops the promises and raises the ID. -/
theorem proposer_next_of_startsBallot {N : PaxosNode} {call : NodeCall}
    (hstarts : N.StartsBallot call) (hwrap : N.NoWrap call) :
    (machine.next N call).proposer.promisesReceived = ∅ ∧
      N.proposer.proposalID < (machine.next N call).proposer.proposalID := by
  obtain ⟨before, hcalls, -⟩ := proposerCalls_of_startsBallot hstarts
  rw [NoWrap, hcalls] at hwrap
  obtain ⟨hbefore, hlast⟩ := Proposer.machine.admits_concat.mp hwrap
  rw [next_proposer, hcalls, Machine.run_concat]
  exact ⟨rfl, (Proposer.run_goes_on hbefore).1.trans_lt (ProposalID.lt_incrementNumber (hlast rfl))⟩

/-- A leader stays one through calls that begin no ballot and do not take the flag away. -/
theorem leader_next {N : PaxosNode} {call : NodeCall} (hleader : N.proposer.leader)
    (hstays : ¬N.StartsBallot call) (hset : ∀ leader, .setLeader leader ∉ N.proposerCalls call) :
    (machine.next N call).proposer.leader := by
  have hcalls : ∀ c ∈ N.proposerCalls call, c ≠ .prepare true ∧ c ≠ .setLeader false := by
    intro c hc
    refine ⟨?_, ?_⟩
    · rintro rfl
      exact hstays (startsBallot_of_prepare_mem hc)
    · rintro rfl
      exact hset false hc
  rw [next_proposer]
  exact (Machine.admits_const_iff.mpr hcalls).invariant (I := fun (P : Proposer) => P.leader)
    hleader fun P c hP hc => Proposer.leader_next_of_leader hP hc.1 hc.2

end PaxosNode

namespace NodeSetup

variable {ι : Type*} {S : NodeSetup ι}

/-- What may happen in a cluster whose nodes stay active and whose numbers do not wrap around. -/
def Orderly (S : NodeSetup ι) (C : NodeCluster ι) (act : ι × NodeCall) : Prop :=
  (S.Enabled C act ∧ act.2 ≠ .setActive false) ∧ (C.parties act.1).NoWrap act.2

/-- What is known of one node and of the messages sent, as long as no number wraps around. -/
structure CandidateFacts (S : NodeSetup ι) (sent : ι → List MessengerCall) (i : ι)
    (N : PaxosNode) : Prop where
  election : S.ElectionFacts sent i N
  values : ValueFacts sent i N
  leads : N.proposer.QuorumLeads
  requested : ∀ p, sendPrepare p ∈ sent i → p ≤ N.proposer.proposalID
  recorded : N.acceptor.promisedID.isValid → ∃ j, sendPrepare N.acceptor.promisedID ∈ sent j

/-- The facts survive what other nodes send. -/
theorem CandidateFacts.mono {sent sent' : ι → List MessengerCall} {i : ι} {N : PaxosNode}
    (h : S.CandidateFacts sent i N) (hself : sent' i = sent i) (hsent : ∀ j, sent j ⊆ sent' j) :
    S.CandidateFacts sent' i N := by
  refine ⟨h.election.mono hself hsent, h.values.of_sent_eq hself, h.leads, ?_, fun hvalid => ?_⟩
  · rw [hself]
    exact h.requested
  · exact (h.recorded hvalid).imp fun j hj => hsent j hj

/-! ### The acceptors that a node can count on -/

/-- Node `i` holds a promise of node `j`, or can still get one: the acceptor is free, or locked to
the current ID. -/
def Supports (S : NodeSetup ι) (C : NodeCluster ι) (i j : ι) : Prop :=
  S.nodeUID j ∈ (C.parties i).proposer.promisesReceived ∨
    (C.parties j).acceptor.promisedID.isValid = false ∨
      (C.parties j).acceptor.promisedID = (C.parties i).proposer.proposalID

instance (C : NodeCluster ι) (i : ι) : DecidablePred (S.Supports C i) := fun _ =>
  inferInstanceAs (Decidable (_ ∨ _ ∨ _))

/-- No acceptor has recorded an ID of a node above its current one. -/
theorem CandidateFacts.promisedID_le {C : NodeCluster ι}
    (h : ∀ j, S.CandidateFacts C.sent j (C.parties j)) {i j : ι}
    (hvalid : (C.parties j).acceptor.promisedID.isValid)
    (huid : (C.parties j).acceptor.promisedID.uid = S.nodeUID i) :
    (C.parties j).acceptor.promisedID ≤ (C.parties i).proposer.proposalID := by
  obtain ⟨l, hsent⟩ := (h j).recorded hvalid
  have hl : l = i := S.nodeUID_injective (((h l).election.prepare _ hsent).symm.trans huid)
  rw [hl] at hsent
  exact (h i).requested _ hsent

section Steps

variable [DecidableEq ι] {C : NodeCluster ι}

/-- The ID of a node only grows. -/
theorem Orderly.proposalID_next {act : ι × NodeCall} (hact : S.Orderly C act) (i : ι) :
    (C.parties i).proposer.proposalID ≤
        (((PaxosNode.machine.network ι).next C act).parties i).proposer.proposalID ∧
      (((PaxosNode.machine.network ι).next C act).parties i).proposer.proposalID.uid =
        (C.parties i).proposer.proposalID.uid := by
  refine Machine.network_parties_invariant_next
    (P := fun i (N : PaxosNode) => (C.parties i).proposer.proposalID ≤ N.proposer.proposalID ∧
      N.proposer.proposalID.uid = (C.parties i).proposer.proposalID.uid)
    (fun _ => ⟨le_rfl, rfl⟩) ?_ i
  rw [PaxosNode.next_proposer]
  exact Proposer.run_goes_on hact.2

/-- An acceptor keeps the ID that it has recorded. -/
theorem CandidateFacts.promisedID_next (h : ∀ j, S.CandidateFacts C.sent j (C.parties j))
    {act : ι × NodeCall} (hact : S.Orderly C act) {j : ι}
    (hvalid : (C.parties j).acceptor.promisedID.isValid) :
    (((PaxosNode.machine.network ι).next C act).parties j).acceptor.promisedID =
      (C.parties j).acceptor.promisedID :=
  Machine.network_parties_invariant_next
    (P := fun j (N : PaxosNode) => (C.parties j).acceptor.promisedID.isValid →
      N.acceptor.promisedID = (C.parties j).acceptor.promisedID)
    (fun _ _ => rfl)
    (ElectionFacts.promisedID_next (fun l => (h l).election) hact.1.1 hact.1.2) j hvalid

/-- A promise that a node comes to hold is one that it could get. -/
theorem CandidateFacts.supports_of_received (h : ∀ j, S.CandidateFacts C.sent j (C.parties j))
    {act : ι × NodeCall} (hact : S.Orderly C act) {i j : ι}
    (hheld : S.nodeUID j ∈
      (((PaxosNode.machine.network ι).next C act).parties i).proposer.promisesReceived) :
    S.Supports C i j := by
  obtain ⟨k, call⟩ := act
  by_cases hik : i = k
  · subst hik
    rw [Machine.network_next_parties_self, PaxosNode.next_proposer] at hheld
    rcases Proposer.promisesReceived_run hheld with hbefore | ⟨p, r, w, hmem⟩
    · exact Or.inl hbefore
    obtain ⟨now, rfl⟩ := PaxosNode.of_receivePromise_mem hmem
    have hnext : S.nodeUID j ∈ (Proposer.machine.next (C.parties i).proposer
        (.receivePromise (S.nodeUID j) p r w)).promisesReceived := hheld
    rcases Proposer.promisesReceived_next_cases hnext with
      ⟨hbefore, -⟩ | ⟨p', r', w', heq, hcounts, -⟩
    · exact Or.inl hbefore
    · cases heq
      obtain ⟨⟨l, hl, hsent⟩, -⟩ := hact.1
      rw [S.nodeUID_injective hl] at hsent
      obtain ⟨hvalid, hp, huid⟩ := (h j).election.locked.promise _ _ _ _ hsent
      have hle := promisedID_le (i := i) h (hp ▸ hvalid) (by rw [← hp, ← huid])
      have hge := (C.parties i).proposer.le_observeProposal (S.nodeUID j) p
      rw [← hcounts.1, hp] at hge
      exact Or.inr (Or.inr (le_antisymm hle hge))
  · rw [Machine.network_next_parties_of_ne hik] at hheld
    exact Or.inl hheld

/-- **Support is never gained.** Who supports a node after a step did so before it. -/
theorem CandidateFacts.supports_of_next (h : ∀ j, S.CandidateFacts C.sent j (C.parties j))
    {act : ι × NodeCall} (hact : S.Orderly C act) {i j : ι}
    (hsupports : S.Supports ((PaxosNode.machine.network ι).next C act) i j) :
    S.Supports C i j := by
  by_cases hfree : (C.parties j).acceptor.promisedID.isValid
  · have hkept := promisedID_next h hact hfree
    rcases hsupports with hheld | hfreed | hcurrent
    · exact supports_of_received h hact hheld
    · rw [hkept, hfree] at hfreed
      cases hfreed
    · -- the ID has not been raised, since the acceptor has recorded it before
      rw [hkept] at hcurrent
      obtain ⟨hle, huid⟩ := hact.proposalID_next i
      rw [← hcurrent] at hle huid
      have hbelow := promisedID_le h hfree (huid.trans (h i).election.proposalID)
      exact Or.inr (Or.inr (le_antisymm hbelow hle))
  · exact Or.inr (Or.inl (by simpa using hfree))

end Steps

/-! ### Asking the supporters -/

/-- What has been done to win the supporters of node `i`: its ID has stayed, and the acceptors have
recorded no other one. -/
structure Courts (C D : NodeCluster ι) (i : ι) : Prop where
  proposalID : (D.parties i).proposer.proposalID = (C.parties i).proposer.proposalID
  received : (C.parties i).proposer.promisesReceived ⊆ (D.parties i).proposer.promisesReceived
  promisedID : ∀ j, (D.parties j).acceptor.promisedID = (C.parties j).acceptor.promisedID ∨
    (D.parties j).acceptor.promisedID = (C.parties i).proposer.proposalID
  sent : ∀ j, C.sent j ⊆ D.sent j

section Courts

variable {C D E : NodeCluster ι} {i j : ι}

/-- Courting goes on from where it has come to. -/
theorem Courts.trans (h : Courts C D i) (h' : Courts D E i) : Courts C E i := by
  refine ⟨h'.proposalID.trans h.proposalID, h.received.trans h'.received, fun j => ?_,
    fun j => List.Subset.trans (h.sent j) (h'.sent j)⟩
  rcases h'.promisedID j with hsame | hnew
  · rw [hsame]
    exact h.promisedID j
  · exact Or.inr (hnew.trans h.proposalID)

/-- The supporters are kept. -/
theorem Courts.supports (h : Courts C D i) (hsupports : S.Supports C i j) : S.Supports D i j := by
  rcases hsupports with hheld | hfree | hcurrent
  · exact Or.inl (h.received hheld)
  · rcases h.promisedID j with hsame | hnew
    · exact Or.inr (Or.inl (by rw [hsame, hfree]))
    · exact Or.inr (Or.inr (hnew.trans h.proposalID.symm))
  · rcases h.promisedID j with hsame | hnew
    · exact Or.inr (Or.inr (by rw [hsame, hcurrent, h.proposalID]))
    · exact Or.inr (Or.inr (hnew.trans h.proposalID.symm))

variable [DecidableEq ι]

/-- A call that the node does not hand to its proposer leaves all proposers. -/
theorem proposer_next_eq (act : ι × NodeCall)
    (hnone : (C.parties act.1).proposerCalls act.2 = []) (k : ι) :
    (((PaxosNode.machine.network ι).next C act).parties k).proposer = (C.parties k).proposer := by
  refine Machine.network_parties_invariant_next
    (P := fun k (N : PaxosNode) => N.proposer = (C.parties k).proposer) (fun _ => rfl) ?_ k
  rw [PaxosNode.next_proposer, hnone, Machine.run_nil]

/-- A call of node `i` that keeps its ID and its promises and is no prepare request. -/
theorem courts_next {call : NodeCall} (hactive : (C.parties i).acceptor.active)
    (hprepare : ∀ now u p, call ≠ .receivePrepare now u p) (hset : call ≠ .setActive false)
    (hid : (PaxosNode.machine.next (C.parties i) call).proposer.proposalID =
      (C.parties i).proposer.proposalID)
    (hheld : (C.parties i).proposer.promisesReceived ⊆
      (PaxosNode.machine.next (C.parties i) call).proposer.promisesReceived) :
    Courts C ((PaxosNode.machine.network ι).next C (i, call)) i := by
  refine ⟨?_, ?_, fun k => Or.inl ?_, Machine.sent_subset_next C _⟩
  · rw [Machine.network_next_parties_self, hid]
  · rwa [Machine.network_next_parties_self]
  · by_cases hki : k = i
    · subst hki
      rw [Machine.network_next_parties_self, PaxosNode.acceptor_next_eq hactive hprepare hset]
    · rw [Machine.network_next_parties_of_ne hki]

/-- The request of node `i` is delivered to an acceptor that can record its ID. If the acceptor has
recorded it before, the answer is a promise. -/
theorem CandidateFacts.courts_request (h : ∀ k, S.CandidateFacts C.sent k (C.parties k))
    {p : ProposalID} (hp : p = (C.parties i).proposer.proposalID) (hsent : sendPrepare p ∈ C.sent i)
    (hopen : (C.parties j).acceptor.promisedID.isValid = false ∨
      (C.parties j).acceptor.promisedID = p) :
    ∃ D, (PaxosNode.machine.network ι).Reaches S.Orderly C D ∧ Courts C D i ∧
      (D.parties j).acceptor.promisedID = p ∧
      ((C.parties j).acceptor.promisedID = p →
        ∃ r w, sendPromise (S.nodeUID i) p r w ∈ D.sent j) := by
  have hvalid : p.isValid := by
    simpa [hp, ProposalID.isValid, (h i).election.proposalID] using S.nodeUID_ne_nil i
  have hproposer := proposer_next_eq (C := C) (j, .receivePrepare 0 (S.nodeUID i) p) rfl
  have hrecorded :=
    (h j).election.locked.promisedID_receivePrepare hvalid hopen 0 (S.nodeUID i)
  refine ⟨(PaxosNode.machine.network ι).next C (j, .receivePrepare 0 (S.nodeUID i) p),
    (Machine.Reaches.refl C).next ⟨⟨⟨i, rfl, hsent⟩, by simp⟩, trivial⟩,
    ⟨by rw [hproposer], by rw [hproposer], fun k => ?_, Machine.sent_subset_next C _⟩, ?_,
    fun hsame => ?_⟩
  · by_cases hkj : k = j
    · subst hkj
      rw [Machine.network_next_parties_self, ← hp]
      exact Or.inr hrecorded
    · rw [Machine.network_next_parties_of_ne hkj]
      exact Or.inl rfl
  · rw [Machine.network_next_parties_self]
    exact hrecorded
  · rw [Machine.network_next_sent_self]
    exact ⟨_, _, List.mem_append_right _
      ((h j).election.locked.sendPromise_mem hvalid hsame 0 (S.nodeUID i))⟩

/-- Node `i` hears a promise for its current ID. -/
theorem CandidateFacts.courts_hear (h : ∀ k, S.CandidateFacts C.sent k (C.parties k))
    {p r : ProposalID} {w : Str} (hp : p = (C.parties i).proposer.proposalID)
    (hsent : sendPromise (S.nodeUID i) p r w ∈ C.sent j) :
    ∃ D, (PaxosNode.machine.network ι).Reaches S.Orderly C D ∧ Courts C D i ∧
      S.nodeUID j ∈ (D.parties i).proposer.promisesReceived := by
  subst hp
  obtain ⟨hheld, hid⟩ := (C.parties i).proposer.next_receivePromise_current (S.nodeUID j) r w
  have hproposer : (PaxosNode.machine.next (C.parties i) (.receivePromise 0 (S.nodeUID j)
      (C.parties i).proposer.proposalID r w)).proposer = Proposer.machine.next
        (C.parties i).proposer (.receivePromise (S.nodeUID j)
          (C.parties i).proposer.proposalID r w) := PaxosNode.next_proposer _ _
  have hcall : S.Orderly C
      (i, .receivePromise 0 (S.nodeUID j) (C.parties i).proposer.proposalID r w) :=
    ⟨⟨⟨j, rfl, hsent⟩, by simp⟩, fun hprepare => absurd hprepare (by simp), trivial⟩
  refine ⟨_, (Machine.Reaches.refl C).next hcall, courts_next (h i).election.locked.active
    (by simp) (by simp) (by rw [hproposer, hid]) ?_, ?_⟩
  · rw [hproposer, hheld]
    exact Finset.subset_insert _ _
  · rw [Machine.network_next_parties_self, hproposer, hheld]
    exact Finset.mem_insert_self _ _

/-- A node can always send its request once more. -/
theorem CandidateFacts.exists_requested (h : ∀ k, S.CandidateFacts C.sent k (C.parties k)) (i : ι) :
    ∃ D, (PaxosNode.machine.network ι).Reaches S.Orderly C D ∧ Courts C D i ∧
      sendPrepare (D.parties i).proposer.proposalID ∈ D.sent i := by
  have hset : S.Orderly C (i, .setActive true) :=
    ⟨⟨trivial, by simp⟩, fun hprepare => absurd hprepare (by simp), trivial⟩
  have hcourts : Courts C ((PaxosNode.machine.network ι).next C (i, .setActive true)) i :=
    courts_next (h i).election.locked.active (by simp) (by simp) rfl subset_rfl
  generalize hD : (PaxosNode.machine.network ι).next C (i, .setActive true) = D at hcourts
  have hnode : D.parties i = (C.parties i).setActive true := by
    rw [← hD, Machine.network_next_parties_self]
    rfl
  have hasks : S.Orderly D (i, .prepare false) :=
    ⟨⟨trivial, by simp⟩, fun hprepare => absurd hprepare (by simp), trivial⟩
  have hcourts' : Courts D ((PaxosNode.machine.network ι).next D (i, .prepare false)) i := by
    refine courts_next ?_ (by simp) (by simp) rfl subset_rfl
    rw [hnode]
    rfl
  have hreaches : (PaxosNode.machine.network ι).Reaches S.Orderly C D := by
    rw [← hD]
    exact (Machine.Reaches.refl C).next hset
  refine ⟨_, hreaches.next hasks, hcourts.trans hcourts', ?_⟩
  rw [Machine.network_next_sent_self, Machine.network_next_parties_self]
  refine List.mem_append_right _ ?_
  rw [hnode]
  exact List.mem_singleton_self _

end Courts

variable [Fintype ι]

instance (C : NodeCluster ι) : DecidablePred (S.Orderly C) := fun _ =>
  inferInstanceAs (Decidable (_ ∧ _))

/-- The supporters of a node. -/
def supporters (S : NodeSetup ι) (C : NodeCluster ι) (i : ι) : Finset ι :=
  Finset.univ.filter (S.Supports C i)

/-- Who the supporters of a node are. -/
theorem mem_supporters {C : NodeCluster ι} {i j : ι} :
    j ∈ S.supporters C i ↔ S.Supports C i j := by
  simp [supporters]

/-- The facts hold at the start if no leader flag is set and the acceptor is active. -/
theorem candidateFacts_start (hmajority : Fintype.card ι < 2 * (UInt64.ofInt S.quorumSize).toNat)
    (i : ι) (hleader : (S.unset i).leader = false) (hactive : (S.unset i).acceptorActive) :
    S.CandidateFacts S.start.sent i (S.start.parties i) := by
  refine ⟨electionFacts_start i hleader hactive, valueFacts_start i, fun hcard => ?_, ?_, ?_⟩
  · have hzero : (UInt64.ofInt S.quorumSize).toNat ≤ 0 := by
      simpa [start, PaxosNode.new, Proposer.new] using hcard
    omega
  · simp [start]
  · simp [start, PaxosNode.new, Acceptor.new, ProposalID.isValid, ProposalID.empty]

/-- A node has at least as many supporters as promises. -/
theorem CandidateFacts.card_promises_le {C : NodeCluster ι} {i : ι}
    (h : S.CandidateFacts C.sent i (C.parties i)) :
    (C.parties i).proposer.promisesReceived.card ≤ (S.supporters C i).card := by
  have hnamed := Voting.card_le_card_filter_name S.nodeUID
    fun u hu => (h.election.held u hu).imp fun _ hj => hj.1
  refine hnamed.trans (Finset.card_le_card fun j hj => ?_)
  exact mem_supporters.mpr (Or.inl (Finset.mem_filter.mp hj).2)

/-- A leader has a quorum of supporters. -/
theorem CandidateFacts.quorum_of_leader {C : NodeCluster ι} {i : ι}
    (h : S.CandidateFacts C.sent i (C.parties i)) (hleader : (C.parties i).isLeader) :
    (UInt64.ofInt S.quorumSize).toNat ≤ (S.supporters C i).card := by
  rw [← h.election.quorumSize]
  exact (h.election.elected hleader).trans h.card_promises_le

variable [DecidableEq ι]

/-- No call takes the leader flag away, except by a new ballot. -/
theorem CandidateFacts.setLeader_notMem {C : NodeCluster ι}
    (h : ∀ j, S.CandidateFacts C.sent j (C.parties j))
    (hmajority : Fintype.card ι < 2 * (UInt64.ofInt S.quorumSize).toNat) {i : ι} {call : NodeCall}
    (henabled : S.Enabled C (i, call)) (leader : Bool) :
    .setLeader leader ∉ (C.parties i).proposerCalls call := by
  intro hmem
  rcases PaxosNode.setLeader_mem_cases hmem with
    ⟨now, uid, id, rfl, hleader, hother⟩ | ⟨u, p, id, rfl⟩
  · obtain ⟨j, hbeat⟩ := henabled
    obtain ⟨huid, hbacked⟩ := (h j).election.heartbeat uid id hbeat
    have hi := (h i).election
    have hself := backed_of_leader hi.elected hi.quorumSize hi.held hleader
    have hsame := Backed.unique (fun j => (h j).election) hmajority hself hbacked
    exact hother (by rw [huid, hi.proposerUID, hsame])
  · obtain ⟨j, -, hrefusal⟩ := henabled
    exact (h j).values.silent _ hrefusal rfl

/-- One call of a node keeps its facts. -/
theorem CandidateFacts.next {C : NodeCluster ι}
    (h : ∀ j, S.CandidateFacts C.sent j (C.parties j))
    (hmajority : Fintype.card ι < 2 * (UInt64.ofInt S.quorumSize).toNat) {i : ι} {call : NodeCall}
    (hcall : S.Orderly C (i, call)) :
    S.CandidateFacts ((PaxosNode.machine.network ι).next C (i, call)).sent i
      (PaxosNode.machine.next (C.parties i) call) := by
  obtain ⟨⟨henabled, hactive⟩, hwrap⟩ := hcall
  have hsent := Machine.sent_subset_next (M := PaxosNode.machine) C (i, call)
  have helection := fun j => (h j).election
  refine ⟨.next helection henabled hactive, .next (fun j => (h j).values) henabled, ?_,
    fun p hp => ?_, fun hvalid => ?_⟩
  · have hset : ∀ c ∈ (C.parties i).proposerCalls call, ∀ leader, c ≠ .setLeader leader := by
      rintro c hc leader rfl
      exact setLeader_notMem h hmajority henabled leader hc
    have hpositive : 0 < (C.parties i).proposer.quorumSize := by
      rw [(h i).election.quorumSize]
      omega
    rw [PaxosNode.next_proposer]
    refine ((Machine.admits_const_iff.mpr hset).invariant
      (I := fun (P : Proposer) => P.QuorumLeads ∧ 0 < P.quorumSize) ⟨(h i).leads, hpositive⟩ ?_).1
    intro P c ⟨hleads, hquorum⟩ hc
    exact ⟨hleads.next hquorum hc, by rwa [P.next_quorumSize]⟩
  · rw [Machine.network_next_sent_self] at hp
    rw [PaxosNode.next_proposer]
    rcases List.mem_append.mp hp with hold | hnew
    · exact ((h i).requested p hold).trans (Proposer.run_goes_on hwrap).1
    · exact Proposer.le_of_sendPrepare_mem hwrap (PaxosNode.of_isRequest_mem rfl hnew)
  · by_cases hprepare : ∃ now u p, call = .receivePrepare now u p
    · obtain ⟨now, u, p, rfl⟩ := hprepare
      obtain ⟨j, -, hrequest⟩ := henabled
      rcases (C.parties i).acceptor.promisedID_receivePrepare_cases now u p with hsame | hnew
      · have hkept : (PaxosNode.machine.next (C.parties i)
            (.receivePrepare now u p)).acceptor.promisedID = (C.parties i).acceptor.promisedID :=
          hsame
        rw [hkept] at hvalid ⊢
        exact ((h i).recorded hvalid).imp fun j hj => hsent j hj
      · have hrecorded : (PaxosNode.machine.next (C.parties i)
            (.receivePrepare now u p)).acceptor.promisedID = p := hnew
        rw [hrecorded]
        exact ⟨j, hsent j hrequest⟩
    · have hother : ∀ now u p, call ≠ .receivePrepare now u p :=
        fun now u p hcall => hprepare ⟨now, u, p, hcall⟩
      rw [PaxosNode.acceptor_next_eq (h i).election.locked.active hother hactive] at hvalid ⊢
      exact ((h i).recorded hvalid).imp fun j hj => hsent j hj

/-- The facts hold in every state that is reached. -/
theorem candidateFacts_reaches
    (hmajority : Fintype.card ι < 2 * (UInt64.ofInt S.quorumSize).toNat) {C D : NodeCluster ι}
    (h : ∀ i, S.CandidateFacts C.sent i (C.parties i))
    (hD : (PaxosNode.machine.network ι).Reaches S.Orderly C D) (i : ι) :
    S.CandidateFacts D.sent i (D.parties i) := by
  obtain ⟨acts, hrun, rfl⟩ := hD
  refine hrun.network_invariant (I := S.CandidateFacts) h ?_ ?_ i
  · exact fun sent sent' i N h hself hsent => h.mono hself hsent
  · exact fun C i call h hcall => CandidateFacts.next h hmajority hcall

section Runs

variable (hmajority : Fintype.card ι < 2 * (UInt64.ofInt S.quorumSize).toNat)
  {C D : NodeCluster ι}

include hmajority

/-- In a run a node loses supporters only. -/
theorem supporters_subset (h : ∀ i, S.CandidateFacts C.sent i (C.parties i))
    (hD : (PaxosNode.machine.network ι).Reaches S.Orderly C D) (i : ι) :
    S.supporters D i ⊆ S.supporters C i := by
  refine (hD.invariant (I := fun D => (∀ j, S.CandidateFacts D.sent j (D.parties j)) ∧
    S.supporters D i ⊆ S.supporters C i) ⟨h, subset_rfl⟩ ?_).2
  intro E act ⟨hfacts, hsub⟩ hact
  have honce := (Machine.Reaches.refl (M := PaxosNode.machine.network ι) E).next hact
  refine ⟨candidateFacts_reaches hmajority hfacts honce, fun j hj => hsub ?_⟩
  rw [mem_supporters] at hj ⊢
  exact CandidateFacts.supports_of_next hfacts hact hj

/-- Each supporter of a node can be brought to promise, and the others stay supporters. -/
theorem exists_courted (h : ∀ k, S.CandidateFacts C.sent k (C.parties k)) {i j : ι}
    (hsent : sendPrepare (C.parties i).proposer.proposalID ∈ C.sent i)
    (hsupports : S.Supports C i j) :
    ∃ D, (PaxosNode.machine.network ι).Reaches S.Orderly C D ∧ Courts C D i ∧
      S.nodeUID j ∈ (D.parties i).proposer.promisesReceived := by
  rcases hsupports with hheld | hopen
  · exact ⟨C, Machine.Reaches.refl C, ⟨rfl, subset_rfl, fun _ => Or.inl rfl,
      fun _ => List.Subset.refl _⟩, hheld⟩
  -- the acceptor is asked twice: a free one only records the ID the first time
  obtain ⟨D, hD, hcourts, hrecorded, -⟩ := CandidateFacts.courts_request h rfl hsent hopen
  have hfacts := candidateFacts_reaches hmajority h hD
  obtain ⟨D', hD', hcourts', -, hpromise⟩ := CandidateFacts.courts_request hfacts
    hcourts.proposalID.symm (hcourts.sent i hsent) (Or.inr hrecorded)
  obtain ⟨r, w, hpromised⟩ := hpromise hrecorded
  have hboth := hcourts.trans hcourts'
  obtain ⟨E, hE, hcourts'', hheld⟩ := CandidateFacts.courts_hear
    (candidateFacts_reaches hmajority hfacts hD') hboth.proposalID.symm hpromised
  exact ⟨E, (hD.trans hD').trans hE, hboth.trans hcourts'', hheld⟩

/-- **A node can still be elected exactly if a quorum supports it**: if it holds their promises, or
can still get them. -/
theorem can_lead_iff (hstart : ∀ i, (S.unset i).leader = false ∧ (S.unset i).acceptorActive)
    (hC : (PaxosNode.machine.network ι).Reaches S.Orderly S.start C) (i : ι) :
    (∃ D, (PaxosNode.machine.network ι).Reaches S.Orderly C D ∧ (D.parties i).isLeader) ↔
      (UInt64.ofInt S.quorumSize).toNat ≤ (S.supporters C i).card := by
  have h := candidateFacts_reaches hmajority
    (fun i => candidateFacts_start hmajority i (hstart i).1 (hstart i).2) hC
  constructor
  · rintro ⟨D, hD, hleader⟩
    have hquorum := (candidateFacts_reaches hmajority h hD i).quorum_of_leader hleader
    exact hquorum.trans (Finset.card_le_card (supporters_subset hmajority h hD i))
  · intro hquorum
    obtain ⟨D, hD, hcourts, hsent⟩ := CandidateFacts.exists_requested h i
    obtain ⟨E, hE, ⟨hfacts, -⟩, hheld⟩ : ∃ E, (PaxosNode.machine.network ι).Reaches S.Orderly D E ∧
        ((∀ k, S.CandidateFacts E.sent k (E.parties k)) ∧
          sendPrepare (E.parties i).proposer.proposalID ∈ E.sent i) ∧
        ∀ j ∈ S.supporters C i, S.nodeUID j ∈ (E.parties i).proposer.promisesReceived := by
      refine Machine.Reaches.forall_mem (fun E => (∀ k, S.CandidateFacts E.sent k (E.parties k)) ∧
          sendPrepare (E.parties i).proposer.proposalID ∈ E.sent i) (fun j E => S.Supports E i j)
        (fun j E => S.nodeUID j ∈ (E.parties i).proposer.promisesReceived)
        ⟨candidateFacts_reaches hmajority h hD, hsent⟩
        (fun j hj => hcourts.supports (mem_supporters.mp hj)) ?_
      rintro j - E ⟨hfacts, hrequested⟩ hsupports
      obtain ⟨E', hE', hcourts', hheld⟩ := exists_courted hmajority hfacts hrequested hsupports
      refine ⟨E', hE', ⟨candidateFacts_reaches hmajority hfacts hE', ?_⟩, hheld, fun k _ =>
        ⟨hcourts'.supports, fun hk => hcourts'.received hk⟩⟩
      rw [hcourts'.proposalID]
      exact hcourts'.sent i hrequested
    have himage : (S.supporters C i).image S.nodeUID ⊆
        (E.parties i).proposer.promisesReceived := by
      intro u hu
      obtain ⟨j, hj, rfl⟩ := Finset.mem_image.mp hu
      exact hheld j hj
    refine ⟨E, hD.trans hE, (hfacts i).leads ?_⟩
    rw [(hfacts i).election.quorumSize]
    refine hquorum.trans ?_
    rw [← Finset.card_image_of_injective (S.supporters C i) S.nodeUID_injective]
    exact Finset.card_le_card himage

end Runs

/-- Node `i` prepares, and its own acceptor records the ID. -/
def firstCandidate (i : Fin 3) (p : ProposalID) : List (Fin 3 × NodeCall) :=
  [(i, .prepare true), (i, .receivePrepare 1 p.uid p)]

/-- A is the first candidate, but C can still be elected by B and itself. -/
theorem can_lead_iff_firstCandidate :
    ∃ D, (PaxosNode.machine.network (Fin 3)).Reaches threeNodes.Orderly
      ((PaxosNode.machine.network (Fin 3)).run threeNodes.start
        (firstCandidate 0 ⟨1, [65]⟩)) D ∧ (D.parties 2).isLeader :=
  (can_lead_iff (by decide) (by decide) ⟨_, by decide, rfl⟩ 2).mpr (by decide)

/-! ### A leader that begins a new ballot -/

section Terms

variable (hmajority : Fintype.card ι < 2 * (UInt64.ofInt S.quorumSize).toNat)
  {C D : NodeCluster ι}

include hmajority

/-- A leader that begins a new ballot has too few supporters left: those that made it the leader are
locked to its old ID. -/
theorem card_supporters_lt (h : ∀ k, S.CandidateFacts C.sent k (C.parties k)) {i : ι}
    {call : NodeCall} (hcall : S.Orderly C (i, call)) (hleader : (C.parties i).proposer.leader)
    (hstarts : (C.parties i).StartsBallot call) :
    (S.supporters ((PaxosNode.machine.network ι).next C (i, call)) i).card <
      (UInt64.ofInt S.quorumSize).toNat := by
  obtain ⟨hdropped, hraised⟩ := PaxosNode.proposer_next_of_startsBallot hstarts hcall.2
  have hnamed := Voting.card_le_card_filter_name S.nodeUID
    fun u hu => ((h i).election.held u hu).imp fun _ hj => hj.1
  have hquorum := (h i).election.elected hleader
  rw [(h i).election.quorumSize] at hquorum
  have hdisjoint : Disjoint (S.supporters ((PaxosNode.machine.network ι).next C (i, call)) i)
      (Finset.univ.filter fun j => S.nodeUID j ∈ (C.parties i).proposer.promisesReceived) := by
    rw [Finset.disjoint_left]
    intro j hsupports hheld
    obtain ⟨l, hl, p, r, w, hsent⟩ := (h i).election.held _ (Finset.mem_filter.mp hheld).2
    rw [S.nodeUID_injective hl] at hsent
    obtain ⟨hvalid, hp, huid⟩ := (h j).election.locked.promise _ p r w hsent
    rw [hp] at hvalid huid
    have hbelow := CandidateFacts.promisedID_le h hvalid huid.symm
    rcases mem_supporters.mp hsupports with hagain | hfree | hcurrent
    · rw [Machine.network_next_parties_self, hdropped] at hagain
      simp at hagain
    · rw [CandidateFacts.promisedID_next h hcall hvalid, hvalid] at hfree
      cases hfree
    · rw [CandidateFacts.promisedID_next h hcall hvalid, Machine.network_next_parties_self]
        at hcurrent
      exact absurd hraised (by rw [← hcurrent]; exact not_lt.mpr hbelow)
  have hboth := Finset.card_le_univ
    (S.supporters ((PaxosNode.machine.network ι).next C (i, call)) i ∪
      Finset.univ.filter fun j => S.nodeUID j ∈ (C.parties i).proposer.promisesReceived)
  rw [Finset.card_union_of_disjoint hdisjoint] at hboth
  omega

/-- A leader goes on leading or has too few supporters left. -/
theorem leader_or_card_supporters_lt (h : ∀ k, S.CandidateFacts C.sent k (C.parties k)) {i : ι}
    (hleader : (C.parties i).proposer.leader)
    (hD : (PaxosNode.machine.network ι).Reaches S.Orderly C D) :
    (D.parties i).proposer.leader ∨
      (S.supporters D i).card < (UInt64.ofInt S.quorumSize).toNat := by
  refine (hD.invariant (I := fun D => (∀ j, S.CandidateFacts D.sent j (D.parties j)) ∧
    ((D.parties i).proposer.leader ∨
      (S.supporters D i).card < (UInt64.ofInt S.quorumSize).toNat)) ⟨h, Or.inl hleader⟩ ?_).2
  rintro E ⟨k, call⟩ ⟨hfacts, hcases⟩ hcall
  have honce := (Machine.Reaches.refl (M := PaxosNode.machine.network ι) E).next hcall
  refine ⟨candidateFacts_reaches hmajority hfacts honce, ?_⟩
  rcases hcases with hleads | hfew
  · by_cases hik : i = k
    · subst hik
      by_cases hstarts : (E.parties i).StartsBallot call
      · exact Or.inr (card_supporters_lt hmajority hfacts hcall hleads hstarts)
      · rw [Machine.network_next_parties_self]
        exact Or.inl (PaxosNode.leader_next hleads hstarts
          (CandidateFacts.setLeader_notMem hfacts hmajority hcall.1.1))
    · rw [Machine.network_next_parties_of_ne hik]
      exact Or.inl hleads
  · exact Or.inr ((Finset.card_le_card (supporters_subset hmajority hfacts honce i)).trans_lt hfew)

/-- **No second term.** Once a node that led does not lead any more, no node ever leads again. -/
theorem no_second_term (hstart : ∀ i, (S.unset i).leader = false ∧ (S.unset i).acceptorActive)
    (hC : (PaxosNode.machine.network ι).Reaches S.Orderly S.start C) {i : ι}
    (hleader : (C.parties i).isLeader)
    (hD : (PaxosNode.machine.network ι).Reaches S.Orderly C D) (hlost : ¬(D.parties i).isLeader)
    {E : NodeCluster ι} (hE : (PaxosNode.machine.network ι).Reaches S.Orderly D E) (j : ι) :
    ¬(E.parties j).isLeader := by
  have hatC := candidateFacts_reaches hmajority
    (fun i => candidateFacts_start hmajority i (hstart i).1 (hstart i).2) hC
  have hatD := candidateFacts_reaches hmajority hatC hD
  have hatE := candidateFacts_reaches hmajority hatD hE
  have hfew := (leader_or_card_supporters_lt hmajority hatC hleader hD).resolve_left hlost
  intro hagain
  -- whoever leads must be the same node, since the promises to it are not forgotten
  have hbacked : S.Backed E.sent i := by
    have hthen := backed_of_leader (hatC i).election.elected (hatC i).election.quorumSize
      (hatC i).election.held hleader
    obtain ⟨acts, -, rfl⟩ := hD.trans hE
    exact hthen.mono fun l => Machine.sent_subset_of_prefix C (List.nil_prefix) l
  have hrival := backed_of_leader (hatE j).election.elected (hatE j).election.quorumSize
    (hatE j).election.held hagain
  have hsame := Backed.unique (fun k => (hatE k).election) hmajority hbacked hrival
  subst hsame
  have hquorum := (hatE i).quorum_of_leader hagain
  have hsub := Finset.card_le_card (supporters_subset hmajority hatD hE i)
  omega

end Terms

/-- Nodes `j` and `l` are asked once more, by node `i`, which then hears its old heartbeat. -/
def askedAgain (i j l : Fin 3) (p : ProposalID) : List (Fin 3 × NodeCall) :=
  [(j, .receivePrepare 7 p.uid p), (j, .receivePrepare 8 p.uid p), (l, .receivePrepare 7 p.uid p),
    (l, .receivePrepare 8 p.uid p), (i, .receiveHeartbeat 9 [65] ⟨1, [65]⟩)]

set_option maxRecDepth 2000 in
/-- A led until it began a new ballot. Asking all acceptors again does not help. -/
theorem no_second_term_askedAgain :
    let acts := electedThenRival 0 1 2 ⟨1, [65]⟩ ⟨2, [67]⟩
    let C := (PaxosNode.machine.network (Fin 3)).run threeNodes.start acts
    let D := (PaxosNode.machine.network (Fin 3)).run C [(0, .prepare true)]
    ∀ j, ¬(((PaxosNode.machine.network (Fin 3)).run D
      (askedAgain 0 1 2 ⟨2, [65]⟩)).parties j).isLeader :=
  no_second_term (i := 0) (by decide) (by decide) ⟨_, by decide, rfl⟩ (by decide)
    ⟨_, by decide, rfl⟩ (by decide) ⟨_, by decide, rfl⟩

end NodeSetup

end CppPaxos
