import CppPaxos.NodeElection

/-!
# A split vote is final

Each acceptor of a cluster is locked to the first ID that it records, and the timeouts only
make the nodes prepare higher IDs, which locked acceptors do not record. So a node for which
too few acceptors are left, free or locked to an ID of its own, is never elected.
-/

namespace CppPaxos

open Machines MessengerCall

/-- A locked acceptor keeps its promised ID. -/
theorem Acceptor.Locked.promisedID_eq {A A' : Acceptor} {sent emitted : List MessengerCall}
    (h : A.Locked sent) (hvalid : A.promisedID.isValid) {now : UInt64} {u : Str} {p : ProposalID}
    (hstep : A.Step (.receivePrepare now u p) A' emitted) : A'.promisedID = A.promisedID := by
  cases hstep with
  | promise _ _ hpending => exact absurd hpending (h.waits hvalid)
  | promiseAgain | prepareIgnored | prepareRefused => rfl

namespace NodeSetup

variable {ι : Type*} (S : NodeSetup ι)

/-- The acceptor may still promise something to node `i`: it has recorded nothing, or an ID of this
node. -/
def OpenTo (A : Acceptor) (i : ι) : Prop :=
  A.promisedID.isValid = false ∨ A.promisedID.uid = S.nodeUID i

instance (A : Acceptor) (i : ι) : Decidable (S.OpenTo A i) := inferInstanceAs (Decidable (_ ∨ _))

variable {S}

/-- A call of a node leaves the ID that its acceptor has recorded. -/
theorem ElectionFacts.promisedID_next {C : NodeCluster ι} {i : ι} {call : NodeCall}
    (h : ∀ j, S.ElectionFacts C.sent j (C.parties j)) (henabled : S.Enabled C (i, call))
    (hactive : call ≠ .setActive false) (hvalid : (C.parties i).acceptor.promisedID.isValid) :
    (PaxosNode.machine.next (C.parties i) call).acceptor.promisedID =
      (C.parties i).acceptor.promisedID := by
  have hlocked := (h i).locked
  by_cases hprepare : ∃ now u p, call = .receivePrepare now u p
  · obtain ⟨now, u, p, rfl⟩ := hprepare
    obtain ⟨j, -, hsent⟩ := henabled
    have hp : p.isValid := by
      simpa [ProposalID.isValid, (h j).prepare p hsent] using S.nodeUID_ne_nil j
    exact hlocked.promisedID_eq hvalid (hlocked.invariant.step_receivePrepare now u hp)
  · rw [PaxosNode.acceptor_next_eq hlocked.active (fun now u p hcall => hprepare ⟨now, u, p, hcall⟩)
      hactive]

/-- An acceptor that has sent a promise to a node is open to it. -/
theorem ElectionFacts.openTo {sent : ι → List MessengerCall} {N : PaxosNode} {i j : ι}
    (h : S.ElectionFacts sent j N) (hpromised : S.Promised sent j i) : S.OpenTo N.acceptor i := by
  obtain ⟨p, r, w, hsent⟩ := hpromised
  obtain ⟨-, hp, huid⟩ := h.locked.promise _ p r w hsent
  exact Or.inr (by rw [huid, hp])

variable [Fintype ι] [DecidableEq ι]

/-- An acceptor that is open to a node was so before. -/
theorem openTo_of_run {C : NodeCluster ι} {acts : List (ι × NodeCall)}
    (hfacts : ∀ i, S.ElectionFacts C.sent i (C.parties i))
    (hrun : (PaxosNode.machine.network ι).Admits
      (fun C act => S.Enabled C act ∧ act.2 ≠ .setActive false) C acts) {i j : ι}
    (hopen : S.OpenTo (((PaxosNode.machine.network ι).run C acts).parties j).acceptor i) :
    S.OpenTo (C.parties j).acceptor i := by
  by_cases hvalid : (C.parties j).acceptor.promisedID.isValid
  · have hkept : (((PaxosNode.machine.network ι).run C acts).parties j).acceptor.promisedID =
        (C.parties j).acceptor.promisedID := by
      refine (hrun.network_invariant (I := fun sent l N => S.ElectionFacts sent l N ∧
        (l = j → N.acceptor.promisedID = (C.parties j).acceptor.promisedID))
        (fun l => ⟨hfacts l, ?_⟩) ?_ ?_ j).2 rfl
      · rintro rfl
        rfl
      · exact fun sent sent' l N h hself hsent => ⟨h.1.mono hself hsent, h.2⟩
      · intro D l call h ⟨henabled, hactive⟩
        have hD : ∀ l, S.ElectionFacts D.sent l (D.parties l) := fun l => (h l).1
        refine ⟨ElectionFacts.next hD henabled hactive, fun hl => ?_⟩
        have hsame := (h l).2 hl
        rw [ElectionFacts.promisedID_next hD henabled hactive (by rwa [hsame]), hsame]
    rwa [OpenTo, hkept] at hopen
  · exact Or.inl (by simpa using hvalid)

/-- **A split vote is final.** If at some moment fewer acceptors than a quorum are free or locked to
an ID of some node, then this node does not lead at that moment or later, and no node
acknowledges it as the leader. -/
theorem split_vote_final
    (hstart : ∀ i, (S.unset i).leader = false ∧ (S.unset i).acceptorActive)
    {acts more : List (ι × NodeCall)}
    (hrun : (PaxosNode.machine.network ι).Admits
      (fun C act => S.Enabled C act ∧ act.2 ≠ .setActive false) S.start (acts ++ more)) {i : ι}
    (hsplit : (Finset.univ.filter fun j => S.OpenTo
      (((PaxosNode.machine.network ι).run S.start acts).parties j).acceptor i).card <
        (UInt64.ofInt S.quorumSize).toNat) :
    ¬(((PaxosNode.machine.network ι).run S.start (acts ++ more)).parties i).isLeader ∧
      ∀ j, (((PaxosNode.machine.network ι).run S.start (acts ++ more)).parties j).leaderUID ≠
        S.nodeUID i := by
  obtain ⟨hacts, hmore⟩ := (PaxosNode.machine.network ι).admits_append.mp hrun
  have hthen := electionFacts_run (fun i => electionFacts_start i (hstart i).1 (hstart i).2) hacts
  rw [Machine.run_append]
  have hend := electionFacts_run hthen hmore
  have hunbacked : ¬S.Backed ((PaxosNode.machine.network ι).run
      ((PaxosNode.machine.network ι).run S.start acts) more).sent i := by
    rintro ⟨Q, hQ, hpromised⟩
    refine absurd (Finset.card_le_card fun j hj => ?_) (not_le.mpr (hsplit.trans_le hQ))
    have hopen := (hend j).openTo (hpromised j hj)
    exact Finset.mem_filter.mpr ⟨Finset.mem_univ j, openTo_of_run hthen hmore hopen⟩
  refine ⟨fun hleader => ?_, fun j huid => ?_⟩
  · exact hunbacked (backed_of_leader (hend i).elected (hend i).quorumSize (hend i).held hleader)
  · rcases (hend j).acknowledged with hnone | ⟨l, hl, hbacked⟩
    · exact S.nodeUID_ne_nil i (huid.symm.trans hnone)
    · rw [S.nodeUID_injective (hl.symm.trans huid)] at hbacked
      exact hunbacked hbacked

/-- Each node prepares, and its own acceptor records the ID. -/
def threeCandidates (i j l : Fin 3) (p p' p'' : ProposalID) : List (Fin 3 × NodeCall) :=
  [(i, .prepare true), (j, .prepare true), (l, .prepare true), (i, .receivePrepare 1 p.uid p),
    (j, .receivePrepare 1 p'.uid p'), (l, .receivePrepare 1 p''.uid p'')]

/-- The nodes `i` and `l` time out, and `j` is asked by both. -/
def moreRequests (i j l : Fin 3) (p p'' : ProposalID) : List (Fin 3 × NodeCall) :=
  [(i, .prepare true), (l, .prepare true), (j, .receivePrepare 2 p.uid p),
    (j, .receivePrepare 3 p''.uid p''), (j, .receivePrepare 4 p''.uid p'')]

set_option maxRecDepth 2000 in
/-- Three candidates lock one acceptor each, and A asks again in vain. -/
theorem split_vote_final_threeCandidates :
    ¬(((PaxosNode.machine.network (Fin 3)).run threeNodes.start
      (threeCandidates 0 1 2 ⟨1, [65]⟩ ⟨1, [66]⟩ ⟨1, [67]⟩ ++
        moreRequests 0 1 2 ⟨2, [65]⟩ ⟨2, [67]⟩)).parties 0).isLeader :=
  (split_vote_final (i := 0) (by decide) (by decide) (by decide)).1

end NodeSetup

end CppPaxos
