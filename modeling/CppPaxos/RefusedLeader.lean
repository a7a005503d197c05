import CppPaxos.NodeLeadership
import Mathlib.Data.Finset.Union

/-!
# A leader whose accept requests are refused

A leader counts the acceptors that refuse its accept request and steps down at a quorum of
them. Each refusal reports the ID that the acceptor has promised, and the proposer observes
it first: a larger number changes the proposal ID of the leader, and from then on no refusal
of the old request is counted.
-/

namespace CppPaxos

open Machines MessengerCall

namespace PaxosNode

/-- Refusals of the accept request `p`: their senders and the promised IDs that they report. -/
def refusalCalls (p : ProposalID) (nacks : List (Str × ProposalID)) : List NodeCall :=
  nacks.map fun nack => .receiveAcceptNACK nack.1 p nack.2

/-- After these calls the node is no leader, acknowledges none, and has said so. -/
def GivesUp (N : PaxosNode) (calls : List NodeCall) : Prop :=
  ¬(machine.run N calls).isLeader ∧ (machine.run N calls).leaderUID = [] ∧
    onLeadershipLost ∈ machine.trace N calls

instance (N : PaxosNode) (calls : List NodeCall) : Decidable (N.GivesUp calls) :=
  inferInstanceAs (Decidable (_ ∧ _))

/-- The refusals before the first one that reports a larger number. -/
def beforeLargerNumber (p : ProposalID) (nacks : List (Str × ProposalID)) :
    List (Str × ProposalID) :=
  nacks.takeWhile fun nack => nack.2.number = p.number

/-- The node after a refusal that does not make it step down. -/
def noted (N : PaxosNode) (p : ProposalID) (nack : Str × ProposalID) : PaxosNode :=
  { N with
    proposer := N.proposer.observeProposal nack.1 nack.2
    acceptNACKs := N.refusals nack.1 p nack.2 }

/-- A refusal after which the leader stays is noted. -/
theorem step_of_not_stepsDown {N : PaxosNode} {p : ProposalID} {nack : Str × ProposalID}
    (h : ¬N.StepsDown nack.1 p nack.2) :
    machine.step N (.receiveAcceptNACK nack.1 p nack.2) = (N.noted p nack, []) := by
  change N.receiveAcceptNACK nack.1 p nack.2 = _
  rw [receiveAcceptNACK_eq, if_neg h]
  rfl

/-- A node that is no leader takes refusals without a word and acknowledges whom it did. -/
theorem refused_of_not_leader (p : ProposalID) (nacks : List (Str × ProposalID)) :
    ∀ {N : PaxosNode}, N.proposer.leader = false →
      (machine.run N (refusalCalls p nacks)).proposer.leader = false ∧
        (machine.run N (refusalCalls p nacks)).leaderUID = N.leaderUID := by
  induction nacks with
  | nil => exact fun h => ⟨h, rfl⟩
  | cons nack rest ih =>
    intro N h
    have hstays : ¬N.StepsDown nack.1 p nack.2 := by
      rw [StepsDown, h]
      exact fun hdown => Bool.false_ne_true hdown.1
    have hnext : machine.next N (.receiveAcceptNACK nack.1 p nack.2) = N.noted p nack := by
      rw [Machine.next, step_of_not_stepsDown hstays]
    have hleader : (N.noted p nack).proposer.leader = false := by simpa [noted] using h
    rw [refusalCalls, List.map_cons, Machine.run_cons, hnext]
    exact ih hleader

/-- A leader that steps down at a refusal has given up, whatever is refused later. -/
theorem givesUp_of_stepsDown {N : PaxosNode} {p : ProposalID} {nack : Str × ProposalID}
    {rest : List (Str × ProposalID)} (h : N.StepsDown nack.1 p nack.2) :
    N.GivesUp (refusalCalls p (nack :: rest)) := by
  have hstep := N.receiveAcceptNACK_eq nack.1 p nack.2
  rw [if_pos h] at hstep
  have hnext : machine.next N (.receiveAcceptNACK nack.1 p nack.2) =
      (N.receiveAcceptNACK nack.1 p nack.2).1 := rfl
  have hemits : machine.emits N (.receiveAcceptNACK nack.1 p nack.2) =
      (N.receiveAcceptNACK nack.1 p nack.2).2 := rfl
  rw [hstep] at hnext hemits
  have hleader : (machine.next N (.receiveAcceptNACK nack.1 p nack.2)).proposer.leader = false := by
    rw [hnext]
    simp [Proposer.setLeader]
  obtain ⟨hrest, huid⟩ := refused_of_not_leader p rest hleader
  refine ⟨?_, ?_, ?_⟩
  · change ¬(machine.run _ (refusalCalls p rest)).proposer.leader = true
    rw [hrest]
    exact Bool.false_ne_true
  · change (machine.run _ (refusalCalls p rest)).leaderUID = []
    rw [huid, hnext]
  · change onLeadershipLost ∈ machine.emits N _ ++ _
    rw [hemits]
    simp

/-- A leader gives up at the first refusal, or stays and gives up at a later one. -/
theorem givesUp_cons_iff {N : PaxosNode} {p : ProposalID} {nack : Str × ProposalID}
    {rest : List (Str × ProposalID)} (hleader : N.proposer.leader) :
    N.GivesUp (refusalCalls p (nack :: rest)) ↔
      N.proposer.quorumSize ≤ (N.refusals nack.1 p nack.2).card ∨
        (N.noted p nack).GivesUp (refusalCalls p rest) := by
  by_cases hquorum : N.proposer.quorumSize ≤ (N.refusals nack.1 p nack.2).card
  · exact iff_of_true (givesUp_of_stepsDown ⟨hleader, hquorum⟩) (Or.inl hquorum)
  · have hstep := step_of_not_stepsDown fun hdown => hquorum hdown.2
    have hnext : machine.next N (.receiveAcceptNACK nack.1 p nack.2) = N.noted p nack := by
      rw [Machine.next, hstep]
    have hemits : machine.emits N (.receiveAcceptNACK nack.1 p nack.2) = [] := by
      rw [Machine.emits, hstep]
    rw [or_iff_right hquorum, GivesUp, GivesUp, refusalCalls, List.map_cons, Machine.run_cons,
      Machine.trace_cons, hnext, hemits]
    rfl

/-- The refusal of an older request is not counted. -/
theorem refusals_of_lt {N : PaxosNode} {p : ProposalID} {nack : Str × ProposalID}
    (h : p < (N.noted p nack).proposer.proposalID) :
    N.refusals nack.1 p nack.2 = N.acceptNACKs := if_neg h.ne

/-- A leader short of a quorum stays one if only an older request is refused. -/
theorem stays_of_larger_id (p : ProposalID) (nacks : List (Str × ProposalID)) :
    ∀ {N : PaxosNode}, N.proposer.leader → p < N.proposer.proposalID →
      N.acceptNACKs.card < N.proposer.quorumSize → ¬N.GivesUp (refusalCalls p nacks) := by
  induction nacks with
  | nil =>
    intro N hleader _ _ hgives
    exact hgives.1 hleader
  | cons nack rest ih =>
    intro N hleader hlt hshort
    have hlater : p < (N.noted p nack).proposer.proposalID :=
      hlt.trans_le (N.proposer.le_observeProposal nack.1 nack.2)
    have hrefusals := refusals_of_lt hlater
    rw [givesUp_cons_iff hleader, hrefusals, not_or]
    refine ⟨not_le.mpr hshort, ih ?_ hlater ?_⟩
    · simpa [noted] using hleader
    · simpa [noted, hrefusals] using hshort

/-- A refusal that reports the number of the request is counted and changes nothing else. -/
theorem noted_of_number_eq {N : PaxosNode} {p : ProposalID} {nack : Str × ProposalID}
    (hid : N.proposer.proposalID = p) (h : nack.2.number = p.number) :
    N.refusals nack.1 p nack.2 = insert nack.1 N.acceptNACKs ∧
      N.noted p nack = { N with acceptNACKs := insert nack.1 N.acceptNACKs } := by
  have hsame : N.proposer.observeProposal nack.1 nack.2 = N.proposer := by
    apply N.proposer.observeProposal_of_not_raises
    rw [Proposer.Raises, hid]
    exact fun hraises => hraises.2 h
  have hrefusals : N.refusals nack.1 p nack.2 = insert nack.1 N.acceptNACKs := by
    rw [refusals, hsame, if_pos hid.symm]
  exact ⟨hrefusals, by rw [noted, hsame, hrefusals]⟩

/-- A refusal that reports a larger number leaves the request behind and is not counted. -/
theorem noted_of_number_ne {N : PaxosNode} {p : ProposalID} {nack : Str × ProposalID}
    (hid : N.proposer.proposalID = p) (hlt : p < nack.2) (h : nack.2.number ≠ p.number) :
    N.refusals nack.1 p nack.2 = N.acceptNACKs ∧ p < (N.noted p nack).proposer.proposalID := by
  have hraised : (N.noted p nack).proposer.proposalID =
      ⟨nack.2.number, N.proposer.proposalID.uid⟩ := by
    rw [noted, Proposer.observeProposal_proposalID, if_pos (by rwa [hid])]
  have habove : p < (N.noted p nack).proposer.proposalID := by
    rw [hraised, ProposalID.lt_iff]
    rcases ProposalID.lt_iff.mp hlt with hless | ⟨hsame, -⟩
    · exact Or.inl hless
    · exact absurd hsame.symm h
  exact ⟨refusals_of_lt habove, habove⟩

/-- **A refused leader gives up exactly if enough refusals are counted**: those that it holds
already, and those that come before the first one with a number larger than that of its request. -/
theorem givesUp_iff {p : ProposalID} {nacks : List (Str × ProposalID)} :
    ∀ {N : PaxosNode}, N.proposer.leader → N.proposer.proposalID = p →
      (∀ nack ∈ nacks, p < nack.2) →
      (N.GivesUp (refusalCalls p nacks) ↔ nacks ≠ [] ∧ N.proposer.quorumSize ≤
        (N.acceptNACKs ∪ ((beforeLargerNumber p nacks).map Prod.fst).toFinset).card) := by
  induction nacks with
  | nil =>
    intro N hleader _ _
    constructor
    · intro hgives
      exact absurd hleader hgives.1
    · intro h
      exact absurd rfl h.1
  | cons nack rest ih =>
    intro N hleader hid hlarger
    obtain ⟨hlt, hrest⟩ := List.forall_mem_cons.mp hlarger
    rw [givesUp_cons_iff hleader, and_iff_right (List.cons_ne_nil _ _)]
    by_cases hnumber : nack.2.number = p.number
    · -- the refusal is counted, and so are those after it
      obtain ⟨hrefusals, hnoted⟩ := noted_of_number_eq hid hnumber
      have hunion : N.acceptNACKs ∪
            ((beforeLargerNumber p (nack :: rest)).map Prod.fst).toFinset =
          insert nack.1 N.acceptNACKs ∪
            ((beforeLargerNumber p rest).map Prod.fst).toFinset := by
        simp [beforeLargerNumber, hnumber]
      have hlater := ih (N := N.noted p nack) (by rwa [hnoted]) (by rwa [hnoted]) hrest
      rw [hlater, hunion, hrefusals, hnoted]
      constructor
      · rintro (hquorum | ⟨-, hquorum⟩)
        · exact hquorum.trans (Finset.card_le_card Finset.subset_union_left)
        · exact hquorum
      · intro hquorum
        by_cases hnone : rest = []
        · exact Or.inl (by simpa [hnone, beforeLargerNumber] using hquorum)
        · exact Or.inr ⟨hnone, hquorum⟩
    · -- neither the refusal nor any after it is counted
      obtain ⟨hrefusals, habove⟩ := noted_of_number_ne hid hlt hnumber
      have hcounted : beforeLargerNumber p (nack :: rest) = [] := by
        simp [beforeLargerNumber, hnumber]
      rw [hrefusals, hcounted, List.map_nil, List.toFinset_nil, Finset.union_empty]
      refine or_iff_left_of_imp fun hgives => ?_
      by_contra hshort
      refine stays_of_larger_id p rest ?_ habove ?_ hgives
      · simpa [noted] using hleader
      · simpa [noted, hrefusals] using hshort

/-- Two acceptors refuse the request of a leader and report its own number with larger UIDs. -/
theorem givesUp_iff_same_number :
    (machine.run nodeA electedNode).GivesUp
      (refusalCalls ⟨1, [65]⟩ [([50], ⟨1, [66]⟩), ([51], ⟨1, [67]⟩)]) :=
  (givesUp_iff (by decide) (by decide) (by decide)).mpr (by decide)

/-- A leader at (1, A) with a quorum of two is refused by three acceptors that have promised
(2, B). It stays the leader. -/
theorem leader_stays_after_refusals :
    let nacks : List (Str × ProposalID) :=
      [([50], ⟨2, [66]⟩), ([51], ⟨2, [66]⟩), ([52], ⟨2, [66]⟩)]
    let N := machine.run nodeA electedNode
    N.isLeader ∧ N.getMyProposalID = ⟨1, [65]⟩ ∧
      (∀ nack ∈ nacks, (⟨1, [65]⟩ : ProposalID) < nack.2) ∧
      N.proposer.quorumSize ≤ (nacks.map Prod.fst).toFinset.card ∧
      ¬N.GivesUp (refusalCalls ⟨1, [65]⟩ nacks) := by
  decide

end PaxosNode

end CppPaxos
