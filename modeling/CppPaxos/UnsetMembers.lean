import CppPaxos.NodeSteps

/-!
# The members that no constructor sets

The constructors leave the leader flag and the active flags unset. Each of them is written
by some functions and consulted by others. A node behaves the same, whatever its flags
hold at first, as long as no flag is consulted that has not been written before.
-/

namespace CppPaxos

open Machines MessengerCall

/-! ### A role with other flags -/

namespace Proposer

/-- The proposer with these flags. -/
def withFlags (P : Proposer) (leader active : Bool) : Proposer :=
  { P with leader := leader, active := active }

/-- The promise completes a quorum. -/
def Elects (P : Proposer) (fromUID : Str) (proposalID : ProposalID) : Prop :=
  P.Counts fromUID proposalID ∧ P.quorumSize ≤ (insert fromUID P.promisesReceived).card

instance (P : Proposer) (fromUID : Str) (proposalID : ProposalID) :
    Decidable (P.Elects fromUID proposalID) :=
  inferInstanceAs (Decidable (_ ∧ _))

/-- The proposer has a value to propose once it has counted this promise. -/
def HasValue (P : Proposer) (prevAcceptedID : ProposalID) (prevAcceptedValue : Str) : Prop :=
  P.proposedValue ≠ [] ∨
    prevAcceptedValue ≠ [] ∧ (¬P.lastAcceptedID.isValid ∨ P.lastAcceptedID < prevAcceptedID)

instance (P : Proposer) (prevAcceptedID : ProposalID) (prevAcceptedValue : Str) :
    Decidable (P.HasValue prevAcceptedID prevAcceptedValue) :=
  inferInstanceAs (Decidable (_ ∨ _ ∧ _))

/-- When there is a value to send after a promise is counted. -/
theorem countPromise_proposedValue_ne_nil_iff {P : Proposer} {fromUID : Str} {p r : ProposalID}
    {w : Str} :
    ((P.observeProposal fromUID p).countPromise fromUID r w).proposedValue ≠ [] ↔
      P.HasValue r w := by
  rw [countPromise_proposedValue, observeProposal_lastAcceptedID, observeProposal_proposedValue]
  unfold HasValue
  by_cases htaken : (¬P.lastAcceptedID.isValid ∨ P.lastAcceptedID < r) ∧ w ≠ []
  · rw [if_pos htaken]
    exact iff_of_true htaken.2 (Or.inr htaken.symm)
  · rw [if_neg htaken]
    exact (or_iff_left fun h => htaken h.symm).symm

section Flags

variable (P : Proposer) (leader active : Bool)

/-- Observing an ID does not look at the flags. -/
theorem observeProposal_withFlags (fromUID : Str) (id : ProposalID) :
    (P.withFlags leader active).observeProposal fromUID id =
      (P.observeProposal fromUID id).withFlags leader active := by
  unfold observeProposal withFlags
  split <;> rfl

/-- Nor does counting a promise. -/
theorem countPromise_withFlags (fromUID : Str) (r : ProposalID) (w : Str) :
    (P.withFlags leader active).countPromise fromUID r w =
      (P.countPromise fromUID r w).withFlags leader active := by
  unfold countPromise withFlags
  simp only
  split <;> rfl

/-- Nor does the question whether it counts. -/
theorem counts_withFlags {fromUID : Str} {p : ProposalID} :
    (P.withFlags leader active).Counts fromUID p ↔ P.Counts fromUID p := by
  unfold Counts
  rw [observeProposal_withFlags]
  rfl

variable {P leader active}

/-- A promise does the same with other flags, if it completes no quorum for a value or the active
flag is the same. -/
theorem receivePromise_withFlags {fromUID : Str} {p r : ProposalID} {w : Str}
    (h : P.Elects fromUID p → P.HasValue r w → active = P.active) :
    (P.withFlags leader active).receivePromise fromUID p r w =
      ((P.receivePromise fromUID p r w).1.withFlags
          (if P.Elects fromUID p then true else leader) active,
        (P.receivePromise fromUID p r w).2) := by
  by_cases hcounts : P.Counts fromUID p
  · have hcounts' := (P.counts_withFlags leader active).mpr hcounts
    rcases lt_or_ge (insert fromUID P.promisesReceived).card P.quorumSize with hshort | hquorum
    · have helects : ¬P.Elects fromUID p := fun h => absurd h.2 (not_le.mpr hshort)
      rw [receivePromise_of_short hcounts' hshort, receivePromise_of_short hcounts hshort,
        if_neg helects, observeProposal_withFlags, countPromise_withFlags]
    · have helects : P.Elects fromUID p := ⟨hcounts, hquorum⟩
      rw [receivePromise_of_quorum hcounts' hquorum, receivePromise_of_quorum hcounts hquorum,
        if_pos helects, observeProposal_withFlags, countPromise_withFlags]
      refine Prod.ext rfl (congrArg (onLeadershipAcquired :: ·) ?_)
      by_cases hvalue :
          ((P.observeProposal fromUID p).countPromise fromUID r w).proposedValue ≠ []
      · rw [← h helects (countPromise_proposedValue_ne_nil_iff.mp hvalue)]
        rfl
      · rw [if_neg fun h => hvalue h.1, if_neg fun h => hvalue h.1]
  · have hcounts' := (P.counts_withFlags leader active).not.mpr hcounts
    have helects : ¬P.Elects fromUID p := fun h => hcounts h.1
    rw [receivePromise_of_not_counts hcounts', receivePromise_of_not_counts hcounts,
      if_neg helects, observeProposal_withFlags]

/-- A promise sets the leader flag or leaves it. -/
theorem receivePromise_leader (P : Proposer) (fromUID : Str) (p r : ProposalID) (w : Str) :
    (P.receivePromise fromUID p r w).1.leader =
      if P.Elects fromUID p then true else P.leader := by
  have hiff := P.leader_receivePromise_iff fromUID p r w
  by_cases helects : P.Elects fromUID p
  · rw [if_pos helects]
    exact hiff.mpr (Or.inr helects)
  · rw [if_neg helects, Bool.eq_iff_iff, hiff]
    exact or_iff_left helects

end Flags

end Proposer

namespace Acceptor

/-- The acceptor with this active flag. -/
def withActive (A : Acceptor) (active : Bool) : Acceptor := { A with active := active }

/-- The acceptor answers the request, now or later, if it is active. -/
def Answers (A : Acceptor) (fromUID : Str) (proposalID : ProposalID) : Prop :=
  (A.promisedID.isValid ∧ proposalID ≤ A.promisedID) ∨
    (A.pendingPromiseUID.isEmpty ∧ fromUID ≠ [])

instance (A : Acceptor) (fromUID : Str) (proposalID : ProposalID) :
    Decidable (A.Answers fromUID proposalID) :=
  inferInstanceAs (Decidable (_ ∨ _))

/-- A prepare request leaves the activity of the acceptor. -/
theorem receivePrepare_active (A : Acceptor) (now : UInt64) (fromUID : Str)
    (proposalID : ProposalID) : (A.receivePrepare now fromUID proposalID).1.active = A.active := by
  unfold receivePrepare
  simp only
  split_ifs <;> rfl

/-- A prepare request does the same with another active flag, if it is not answered. -/
theorem receivePrepare_withActive {A : Acceptor} {active : Bool} {fromUID : Str}
    {proposalID : ProposalID} (h : A.Answers fromUID proposalID → active = A.active)
    (now : UInt64) :
    (A.withActive active).receivePrepare now fromUID proposalID =
      ((A.receivePrepare now fromUID proposalID).1.withActive active,
        (A.receivePrepare now fromUID proposalID).2) := by
  unfold receivePrepare withActive
  by_cases hduplicate : A.promisedID.isValid ∧ proposalID = A.promisedID
  · rw [h (Or.inl ⟨hduplicate.1, hduplicate.2.le⟩)]
    simp only [if_pos hduplicate]
  · simp only [if_neg hduplicate]
    by_cases hlarger : ¬A.promisedID.isValid ∨ proposalID > A.promisedID
    · simp only [if_pos hlarger]
      by_cases hpending : A.pendingPromiseUID.isEmpty
      · simp only [if_pos hpending]
        by_cases hsender : fromUID = []
        · rw [List.isEmpty_iff.mp hpending, hsender, ite_self, ite_self]
        · rw [h (Or.inr ⟨hpending, hsender⟩)]
      · simp only [if_neg hpending]
    · rw [not_or, not_not, not_lt] at hlarger
      rw [h (Or.inl hlarger)]
      have hrefused : ¬(¬A.promisedID.isValid ∨ proposalID > A.promisedID) := by
        rw [not_or, not_not, not_lt]
        exact hlarger
      simp only [if_neg hrefused]

end Acceptor

namespace PaxosNode

/-- The flags of the node, as the constructors would leave them. -/
def flags (N : PaxosNode) : Unset :=
  ⟨N.proposer.leader, N.proposer.active, N.acceptor.active, N.learner.active⟩

/-- The node with these flags. -/
def withFlags (N : PaxosNode) (flags : Unset) : PaxosNode :=
  { N with
    proposer := N.proposer.withFlags flags.leader flags.proposerActive
    acceptor := N.acceptor.withActive flags.acceptorActive
    learner := { N.learner with active := flags.learnerActive } }

/-- Which of the flags that matter have been written. -/
structure Written where
  leader : Bool
  proposerActive : Bool
  acceptorActive : Bool

/-- The constructor writes the leader flag of a node that is told to be the leader. -/
def Written.new (nodeUID leaderUID : Str) : Written :=
  ⟨¬leaderUID.isEmpty ∧ nodeUID = leaderUID, false, false⟩

/-- The flags written after a call. -/
def Written.after (written : Written) (N : PaxosNode) (call : NodeCall) : Written :=
  if N.StartsBallot call then { written with leader := true, proposerActive := true }
  else
    match call with
    | .setActive _ => { written with proposerActive := true, acceptorActive := true }
    | .receivePromise _ fromUID proposalID _ _ =>
      { written with leader := written.leader ∨ N.proposer.Elects fromUID proposalID }
    | _ => written

/-- Where a flag decides what the call does, it has been written. -/
def Written.Decides (written : Written) (N : PaxosNode) : NodeCall → Prop
  | .prepare incrementProposalNumber => incrementProposalNumber ∨ written.proposerActive
  | .receiveHeartbeat _ uid id => N.Adopts id → uid ≠ N.proposer.proposerUID → written.leader
  | .pulse _ => written.leader
  | .receivePrepare _ fromUID proposalID =>
    N.acceptor.Answers fromUID proposalID → written.acceptorActive
  | .receivePromise _ fromUID p r w =>
    if N.proposer.Elects fromUID p then N.proposer.HasValue r w → written.proposerActive
    else N.leaderUID = [] → written.leader
  | .receiveAcceptNACK fromUID p id =>
    N.proposer.quorumSize ≤ (N.refusals fromUID p id).card → written.leader
  | .setActive _ | .setLeaderProposalID _ | .pollLiveness .. | .acquireLeadership _
  | .receivePrepareNACK .. => True

/-- The flags that have been written are the same. -/
structure Written.Agrees (written : Written) (flags flags' : Unset) : Prop where
  leader : written.leader → flags'.leader = flags.leader
  proposerActive : written.proposerActive → flags'.proposerActive = flags.proposerActive
  acceptorActive : written.acceptorActive → flags'.acceptorActive = flags.acceptorActive

/-- What two nodes did differs at most in flags that have not been written. -/
def Written.Same (written : Written) (after after' : PaxosNode × List MessengerCall) : Prop :=
  ∃ flags, written.Agrees after.1.flags flags ∧ after' = (after.1.withFlags flags, after.2)

/-- A new ballot writes the flags of the proposer. -/
def Written.ballot (written : Written) : Written :=
  { written with leader := true, proposerActive := true }

/-- The proposer of a node with other flags observes an ID alike. -/
theorem proposer_observeProposal (N : PaxosNode) (flags : Unset) (fromUID : Str)
    (id : ProposalID) :
    (N.withFlags flags).proposer.observeProposal fromUID id =
      (N.proposer.observeProposal fromUID id).withFlags flags.leader flags.proposerActive :=
  N.proposer.observeProposal_withFlags flags.leader flags.proposerActive fromUID id

/-- Which refusals have been noted does not depend on the flags. -/
theorem refusals_withFlags (N : PaxosNode) (flags : Unset) (fromUID : Str)
    (p id : ProposalID) :
    (N.withFlags flags).refusals fromUID p id = N.refusals fromUID p id := by
  unfold refusals
  rw [proposer_observeProposal]
  rfl

section Calls

variable {written : Written} {N : PaxosNode} {flags : Unset} (h : written.Agrees N.flags flags)

include h

/-- A new ballot writes both flags of the proposer. -/
theorem Written.Agrees.prepare : written.ballot.Same (N.prepare true)
    ((N.withFlags flags).prepare true) :=
  ⟨{ flags with leader := false, proposerActive := true }, ⟨fun _ => rfl, fun _ => rfl,
    h.acceptorActive⟩, rfl⟩

/-- Observing an ID neither reads nor writes a flag. -/
theorem Written.Agrees.observeProposal (uid : Str) (id : ProposalID) :
    written.Agrees { N with proposer := N.proposer.observeProposal uid id }.flags flags := by
  refine ⟨fun hw => ?_, fun hw => ?_, h.acceptorActive⟩
  · exact (h.leader hw).trans (N.proposer.observeProposal_leader uid id).symm
  · exact (h.proposerActive hw).trans (N.proposer.observeProposal_active uid id).symm

/-- A node with other flags that steps down and then observes an ID. -/
theorem Written.Agrees.stepDown (uid : Str) (id : ProposalID) :
    written.Agrees
      { N with proposer := (N.proposer.setLeader false).observeProposal uid id }.flags
      { flags with leader := false } := by
  have hdown : written.Agrees { N with proposer := N.proposer.setLeader false }.flags
      { flags with leader := false } := ⟨fun _ => rfl, h.proposerActive, h.acceptorActive⟩
  exact hdown.observeProposal uid id

/-- A heartbeat reads the leader flag only if it is adopted and names another node. -/
theorem Written.Agrees.receiveHeartbeat (now : UInt64) (uid : Str) (id : ProposalID)
    (hcall : N.Adopts id → uid ≠ N.proposer.proposerUID → written.leader) :
    written.Same (N.receiveHeartbeat now uid id)
      ((N.withFlags flags).receiveHeartbeat now uid id) := by
  by_cases hadopts : N.Adopts id
  · have hadopts' : (N.withFlags flags).Adopts id := hadopts
    rw [N.receiveHeartbeat_eq_of_adopts now uid id hadopts,
      (N.withFlags flags).receiveHeartbeat_eq_of_adopts now uid id hadopts']
    by_cases hdemotes : N.proposer.leader ∧ uid ≠ N.proposer.proposerUID
    · have hsame : flags.leader = N.proposer.leader := h.leader (hcall hadopts hdemotes.2)
      have hdemotes' : (N.withFlags flags).proposer.leader ∧
          uid ≠ (N.withFlags flags).proposer.proposerUID := ⟨hsame.trans hdemotes.1, hdemotes.2⟩
      have hproposer := (N.proposer.setLeader false).observeProposal_withFlags false
        flags.proposerActive uid id
      simp only [if_pos hdemotes, if_pos hdemotes']
      refine ⟨{ flags with leader := false }, h.stepDown uid id, ?_⟩
      simp only [withFlags, ← hproposer]
      rfl
    · have hkept : ¬((N.withFlags flags).proposer.leader ∧
          uid ≠ (N.withFlags flags).proposer.proposerUID) := by
        rintro ⟨hleader, huid⟩
        exact hdemotes ⟨(h.leader (hcall hadopts huid)).symm.trans hleader, huid⟩
      simp only [if_neg hdemotes, if_neg hkept]
      exact ⟨flags, ⟨h.leader, h.proposerActive, h.acceptorActive⟩, rfl⟩
  · have hadopts' : ¬(N.withFlags flags).Adopts id := hadopts
    rw [N.receiveHeartbeat_eq_of_not_adopts now uid id hadopts,
      (N.withFlags flags).receiveHeartbeat_eq_of_not_adopts now uid id hadopts']
    exact ⟨flags, ⟨h.leader, h.proposerActive, h.acceptorActive⟩, rfl⟩

/-- A pulse reads the leader flag only. -/
theorem Written.Agrees.pulse (now : UInt64) (hleader : flags.leader = N.proposer.leader) :
    written.Same (N.pulse now) ((N.withFlags flags).pulse now) := by
  unfold PaxosNode.pulse
  by_cases hleads : N.proposer.leader
  · have hleads' : (N.withFlags flags).proposer.leader := hleader.trans hleads
    obtain ⟨flags', hagrees, heq⟩ := h.receiveHeartbeat now N.proposer.proposerUID
      N.proposer.proposalID fun _ hself => absurd rfl hself
    have heq' : (N.withFlags flags).receiveHeartbeat now (N.withFlags flags).proposer.proposerUID
        (N.withFlags flags).proposer.proposalID = _ := heq
    simp only [if_pos hleads, if_pos hleads', heq']
    exact ⟨flags', hagrees, rfl⟩
  · have hleads' : ¬(N.withFlags flags).proposer.leader := by
      change ¬(flags.leader = true)
      rw [hleader]
      exact hleads
    rw [if_neg hleads, if_neg hleads']
    exact ⟨flags, h, rfl⟩

/-- A promise that elects sets both leader flags; any other one leaves both as they were. -/
theorem Written.Agrees.promise (fromUID : Str) (p r : ProposalID) (w : Str) :
    Written.Agrees { written with leader := written.leader ∨ N.proposer.Elects fromUID p }
      { N with proposer := (N.proposer.receivePromise fromUID p r w).1 }.flags
      { flags with leader := if N.proposer.Elects fromUID p then true else flags.leader } := by
  have hactive := N.proposer.receivePromise_active fromUID p r w
  have hleader := N.proposer.receivePromise_leader fromUID p r w
  refine ⟨fun hw => ?_, fun hw => (h.proposerActive hw).trans hactive.symm, h.acceptorActive⟩
  by_cases helects : N.proposer.Elects fromUID p
  · rw [if_pos helects] at hleader ⊢
    exact hleader.symm
  · rw [if_neg helects] at hleader ⊢
    have hwritten := (of_decide_eq_true hw).resolve_right helects
    exact (h.leader hwritten).trans hleader.symm

/-- A promise reads the leader flag of a node that acknowledges nobody, unless it sets it. -/
theorem Written.Agrees.receivePromise (now : UInt64) {fromUID : Str} {p r : ProposalID} {w : Str}
    (hcall : written.Decides N (.receivePromise now fromUID p r w)) :
    Written.Same { written with leader := written.leader ∨ N.proposer.Elects fromUID p }
      (N.receivePromise now fromUID p r w)
      ((N.withFlags flags).receivePromise now fromUID p r w) := by
  have hdecides : if N.proposer.Elects fromUID p then
      N.proposer.HasValue r w → written.proposerActive
    else N.leaderUID = [] → written.leader := hcall
  obtain ⟨flags', hflags'⟩ : ∃ flags' : Unset, flags' =
      { flags with leader := if N.proposer.Elects fromUID p then true else flags.leader } :=
    ⟨_, rfl⟩
  have hproposer : (N.withFlags flags).proposer.receivePromise fromUID p r w =
      ((N.proposer.receivePromise fromUID p r w).1.withFlags flags'.leader flags'.proposerActive,
        (N.proposer.receivePromise fromUID p r w).2) := by
    rw [hflags']
    refine Proposer.receivePromise_withFlags fun helects hvalue => ?_
    rw [if_pos helects] at hdecides
    exact h.proposerActive (hdecides hvalue)
  have hleader := N.proposer.receivePromise_leader fromUID p r w
  have hagrees := h.promise fromUID p r w
  rw [← hflags'] at hagrees
  generalize hP : N.proposer.receivePromise fromUID p r w = after at hagrees hleader hproposer
  obtain ⟨P, sent⟩ := after
  rw [N.receivePromise_eq now fromUID p r w hP,
    (N.withFlags flags).receivePromise_eq now fromUID p r w hproposer]
  by_cases hnobody : N.leaderUID = []
  · have hsame : flags'.leader = P.leader := by
      rw [hflags', hleader]
      by_cases helects : N.proposer.Elects fromUID p
      · rw [if_pos helects, if_pos helects]
      · rw [if_neg helects] at hdecides
        rw [if_neg helects, if_neg helects]
        exact h.leader (hdecides hnobody)
    by_cases hleads : P.leader
    · have hleads' : (N.withFlags flags).leaderUID = [] ∧
          (P.withFlags flags'.leader flags'.proposerActive).leader := ⟨hnobody, hsame.trans hleads⟩
      rw [if_pos ⟨hnobody, hleads⟩, if_pos hleads']
      have hself : Written.Agrees
          { written with leader := written.leader ∨ N.proposer.Elects fromUID p }
          (N.acknowledgeSelf P).flags flags' := hagrees
      obtain ⟨flags'', hafter, hpulse⟩ := hself.pulse now hsame
      refine ⟨flags'', hafter, ?_⟩
      subst hflags'
      have hpulse' : ((N.withFlags flags).acknowledgeSelf
          (P.withFlags _ flags.proposerActive)).pulse now = _ := hpulse
      rw [hpulse']
      rfl
    · have hleads' : ¬((N.withFlags flags).leaderUID = [] ∧
          (P.withFlags flags'.leader flags'.proposerActive).leader) :=
        fun hboth => hleads (hsame.symm.trans hboth.2)
      rw [if_neg fun hboth => hleads hboth.2, if_neg hleads']
      subst hflags'
      exact ⟨_, hagrees, rfl⟩
  · have hnobody' : ¬((N.withFlags flags).leaderUID = [] ∧
        (P.withFlags flags'.leader flags'.proposerActive).leader) :=
      fun hboth => hnobody hboth.1
    rw [if_neg fun hboth => hnobody hboth.1, if_neg hnobody']
    subst hflags'
    exact ⟨_, hagrees, rfl⟩

/-- A refused accept request reads it only if there is a quorum of refusals. -/
theorem Written.Agrees.receiveAcceptNACK {fromUID : Str} {p id : ProposalID}
    (hcall : N.proposer.quorumSize ≤ (N.refusals fromUID p id).card → written.leader) :
    written.Same (N.receiveAcceptNACK fromUID p id)
      ((N.withFlags flags).receiveAcceptNACK fromUID p id) := by
  have hstepsDown : (N.withFlags flags).StepsDown fromUID p id ↔ N.StepsDown fromUID p id := by
    unfold StepsDown
    rw [refusals_withFlags]
    refine and_congr_left fun hquorum => ?_
    have hsame : (N.withFlags flags).proposer.leader = N.proposer.leader :=
      h.leader (hcall hquorum)
    rw [hsame]
  rw [receiveAcceptNACK_eq, receiveAcceptNACK_eq, refusals_withFlags]
  by_cases hdown : N.StepsDown fromUID p id
  · rw [if_pos hdown, if_pos (hstepsDown.mpr hdown)]
    refine ⟨{ flags with leader := false }, (h.observeProposal fromUID id).stepDown fromUID p, ?_⟩
    have hlowered := ((N.proposer.observeProposal fromUID id).setLeader
      false).observeProposal_withFlags false flags.proposerActive fromUID p
    rw [proposer_observeProposal]
    simp only [withFlags, ← hlowered]
    rfl
  · rw [if_neg hdown, if_neg (mt hstepsDown.mp hdown), proposer_observeProposal]
    exact ⟨flags, h.observeProposal fromUID id, rfl⟩

/-- `acquireLeadership` reads no flag. -/
theorem Written.Agrees.acquireLeadership (now : UInt64) :
    (if N.isLeaderAlive now then written else written.ballot).Same (N.acquireLeadership now)
      ((N.withFlags flags).acquireLeadership now) := by
  unfold PaxosNode.acquireLeadership
  by_cases halive : N.isLeaderAlive now
  · have halive' : (N.withFlags flags).isLeaderAlive now := halive
    rw [if_pos halive, if_pos halive, if_pos halive']
    exact ⟨flags, ⟨h.leader, h.proposerActive, h.acceptorActive⟩, rfl⟩
  · have halive' : ¬(N.withFlags flags).isLeaderAlive now := halive
    have hacquiring : written.Agrees { N with acquiringLeadership := true }.flags flags := h
    rw [if_neg halive, if_neg halive, if_neg halive']
    exact hacquiring.prepare

/-- Nor does `pollLiveness`. -/
theorem Written.Agrees.pollLiveness (aliveNow expireNow acquireNow : UInt64) :
    (if N.StartsBallot (.pollLiveness aliveNow expireNow acquireNow) then written.ballot
      else written).Same (N.pollLiveness aliveNow expireNow acquireNow)
        ((N.withFlags flags).pollLiveness aliveNow expireNow acquireNow) := by
  unfold PaxosNode.pollLiveness
  by_cases hguard : ¬N.isLeaderAlive aliveNow ∧ N.isPrepareExpire expireNow
  · have hguard' : ¬(N.withFlags flags).isLeaderAlive aliveNow ∧
        (N.withFlags flags).isPrepareExpire expireNow := hguard
    rw [if_pos hguard, if_pos hguard']
    by_cases hacquiring : N.acquiringLeadership
    · have hacquiring' : (N.withFlags flags).acquiringLeadership := hacquiring
      have hstarts : N.StartsBallot (.pollLiveness aliveNow expireNow acquireNow) :=
        ⟨hguard.1, hguard.2, Or.inl hacquiring⟩
      rw [if_pos hacquiring, if_pos hacquiring', if_pos hstarts]
      exact h.prepare
    · have hacquiring' : ¬(N.withFlags flags).acquiringLeadership := hacquiring
      rw [if_neg hacquiring, if_neg hacquiring']
      have hacquire := h.acquireLeadership acquireNow
      by_cases halive : N.isLeaderAlive acquireNow
      · have hstarts : ¬N.StartsBallot (.pollLiveness aliveNow expireNow acquireNow) := by
          rintro ⟨-, -, hacquires | hdead⟩
          · exact hacquiring hacquires
          · exact hdead halive
        rw [if_neg hstarts]
        rwa [if_pos halive] at hacquire
      · have hstarts : N.StartsBallot (.pollLiveness aliveNow expireNow acquireNow) :=
          ⟨hguard.1, hguard.2, Or.inr halive⟩
        rw [if_pos hstarts]
        rwa [if_neg halive] at hacquire
  · have hguard' : ¬(¬(N.withFlags flags).isLeaderAlive aliveNow ∧
        (N.withFlags flags).isPrepareExpire expireNow) := hguard
    have hstarts : ¬N.StartsBallot (.pollLiveness aliveNow expireNow acquireNow) :=
      fun hstarts => hguard ⟨hstarts.1, hstarts.2.1⟩
    rw [if_neg hguard, if_neg hguard', if_neg hstarts]
    exact ⟨flags, h, rfl⟩

/-- Nor does a refused prepare request. -/
theorem Written.Agrees.receivePrepareNACK (fromUID : Str) (p id : ProposalID) :
    (if N.acquiringLeadership then written.ballot else written).Same
      (N.receivePrepareNACK fromUID p id)
      ((N.withFlags flags).receivePrepareNACK fromUID p id) := by
  have hagrees := h.observeProposal fromUID id
  rw [receivePrepareNACK_eq, receivePrepareNACK_eq, proposer_observeProposal]
  by_cases hacquiring : N.acquiringLeadership
  · have hacquiring' : (N.withFlags flags).acquiringLeadership := hacquiring
    rw [if_pos hacquiring, if_pos hacquiring, if_pos hacquiring']
    exact hagrees.prepare
  · have hacquiring' : ¬(N.withFlags flags).acquiringLeadership := hacquiring
    rw [if_neg hacquiring, if_neg hacquiring, if_neg hacquiring']
    exact ⟨flags, hagrees, rfl⟩

/-- A call does the same to a node with other flags, if the flags that decide have been written. -/
theorem Written.Agrees.step {call : NodeCall} (hcall : written.Decides N call) :
    (written.after N call).Same (machine.step N call) (machine.step (N.withFlags flags) call) := by
  cases call with
  | setActive active =>
    exact ⟨⟨flags.leader, active, active, active⟩, ⟨h.leader, fun _ => rfl, fun _ => rfl⟩, rfl⟩
  | setLeaderProposalID id =>
    exact ⟨flags, ⟨h.leader, h.proposerActive, h.acceptorActive⟩, rfl⟩
  | prepare increment =>
    cases increment with
    | true => exact h.prepare
    | false =>
      have hactive : (N.withFlags flags).proposer.active = N.proposer.active :=
        h.proposerActive (hcall.resolve_left Bool.false_ne_true)
      refine ⟨flags, ⟨h.leader, h.proposerActive, h.acceptorActive⟩, ?_⟩
      simp only [machine, PaxosNode.prepare, Proposer.prepare, Bool.false_eq_true, if_false,
        hactive]
      rfl
  | pollLiveness aliveNow expireNow acquireNow =>
    exact h.pollLiveness aliveNow expireNow acquireNow
  | receiveHeartbeat now uid id => exact h.receiveHeartbeat now uid id hcall
  | pulse now => exact h.pulse now (h.leader hcall)
  | acquireLeadership now =>
    have hsame := h.acquireLeadership now
    rw [← ite_not] at hsame
    exact hsame
  | receivePrepare now uid id =>
    have hdecides : N.acceptor.Answers uid id → flags.acceptorActive = N.acceptor.active :=
      fun hanswers => h.acceptorActive (hcall hanswers)
    have hacceptor : (N.withFlags flags).acceptor.receivePrepare now uid id = _ :=
      Acceptor.receivePrepare_withActive hdecides now
    refine ⟨flags, ⟨h.leader, h.proposerActive, fun hw => ?_⟩, ?_⟩
    · exact (h.acceptorActive hw).trans (N.acceptor.receivePrepare_active now uid id).symm
    · simp only [machine, PaxosNode.receivePrepare, hacceptor]
      rfl
  | receivePromise now u p r w => exact h.receivePromise now hcall
  | receivePrepareNACK u p id => exact h.receivePrepareNACK u p id
  | receiveAcceptNACK u p id => exact h.receiveAcceptNACK hcall

end Calls

end PaxosNode

/-! ### Everything that the owner of a node sees -/

/-- A public call of a node that changes it, or asks it for something. -/
inductive NodeRequest
  | call (call : NodeCall)
  | isLeader
  | getLeaderUID
  | getLeaderProposalID
  | getMyProposalID
  deriving DecidableEq

/-- A call on the messenger, or the result of a request. -/
inductive NodeObservation
  | messenger (call : MessengerCall)
  | isLeader (result : Bool)
  | getLeaderUID (result : Str)
  | getLeaderProposalID (result : ProposalID)
  | getMyProposalID (result : ProposalID)
  deriving DecidableEq

namespace PaxosNode

/-- `getLeaderUID`. -/
def getLeaderUID (N : PaxosNode) : Str := N.leaderUID

/-- `getLeaderProposalID`. -/
def getLeaderProposalID (N : PaxosNode) : ProposalID := N.leaderProposalID

/-- The node as its owner sees it. -/
def observed : Machine PaxosNode NodeRequest NodeObservation where
  step N
    | .call call => (machine.next N call, (machine.emits N call).map .messenger)
    | .isLeader => (N, [.isLeader N.isLeader])
    | .getLeaderUID => (N, [.getLeaderUID N.getLeaderUID])
    | .getLeaderProposalID => (N, [.getLeaderProposalID N.getLeaderProposalID])
    | .getMyProposalID => (N, [.getMyProposalID N.getMyProposalID])

/-- The flags written after a request. -/
def Written.next (written : Written) (N : PaxosNode) : NodeRequest → Written
  | .call call => written.after N call
  | .isLeader | .getLeaderUID | .getLeaderProposalID | .getMyProposalID => written

/-- Where a flag decides what the request does or returns, it has been written. -/
def Written.Allows (written : Written) (N : PaxosNode) : NodeRequest → Prop
  | .call call => written.Decides N call
  | .isLeader => written.leader
  | .getLeaderUID | .getLeaderProposalID | .getMyProposalID => True

/-- No request of the run depends on a flag that has not been written, if those of `written` have
been at its start. -/
def WritesFirst (N : PaxosNode) (written : Written) (requests : List NodeRequest) : Prop :=
  (observed.withGhost fun N request written => Written.next written N request).Admits
    (fun s request => s.2.Allows s.1 request) (N, written) requests

instance (written : Written) (N : PaxosNode) : DecidablePred (written.Decides N)
  | .prepare increment => inferInstanceAs (Decidable (increment = true ∨ _ = true))
  | .receiveHeartbeat .. => inferInstanceAs (Decidable (_ → _ → _ = true))
  | .pulse _ => inferInstanceAs (Decidable (_ = true))
  | .receivePrepare .. => inferInstanceAs (Decidable (_ → _ = true))
  | .receivePromise _ fromUID p r w =>
    inferInstanceAs (Decidable (if N.proposer.Elects fromUID p then
      N.proposer.HasValue r w → written.proposerActive
    else N.leaderUID = [] → written.leader))
  | .receiveAcceptNACK .. => inferInstanceAs (Decidable (_ → _ = true))
  | .setActive _ | .setLeaderProposalID _ | .pollLiveness .. | .acquireLeadership _
  | .receivePrepareNACK .. => isTrue trivial

instance (written : Written) (N : PaxosNode) : DecidablePred (written.Allows N)
  | .call call => inferInstanceAs (Decidable (written.Decides N call))
  | .isLeader => inferInstanceAs (Decidable (_ = true))
  | .getLeaderUID | .getLeaderProposalID | .getMyProposalID => isTrue trivial

instance (N : PaxosNode) (written : Written) : DecidablePred (N.WritesFirst written) :=
  fun requests => inferInstanceAs (Decidable (Machine.Admits _ _ _ requests))

/-- The owner sees the same, whatever the members hold at first that no constructor sets. -/
def IndependentOfUnset (start : Unset → PaxosNode) (requests : List NodeRequest) : Prop :=
  ∀ unset unset', observed.trace (start unset) requests = observed.trace (start unset') requests

/-- One request does the same to a node with other flags. -/
theorem Written.Agrees.request {written : Written} {N : PaxosNode} {flags : Unset}
    (h : written.Agrees N.flags flags) {request : NodeRequest}
    (hrequest : written.Allows N request) :
    observed.emits (N.withFlags flags) request = observed.emits N request ∧
      ∃ flags', (written.next N request).Agrees (observed.next N request).flags flags' ∧
        observed.next (N.withFlags flags) request = (observed.next N request).withFlags flags' := by
  cases request with
  | call call =>
    obtain ⟨flags', hagrees, heq⟩ := h.step hrequest
    have hsent : machine.emits (N.withFlags flags) call = machine.emits N call := by
      rw [Machine.emits, heq]
      rfl
    have hnext : machine.next (N.withFlags flags) call =
        (machine.next N call).withFlags flags' := by
      rw [Machine.next, heq]
      rfl
    exact ⟨congrArg (List.map NodeObservation.messenger) hsent, flags', hagrees, hnext⟩
  | isLeader =>
    have hleader : (N.withFlags flags).isLeader = N.isLeader := h.leader hrequest
    refine ⟨?_, flags, h, rfl⟩
    exact congrArg (fun result => [NodeObservation.isLeader result]) hleader
  | getLeaderUID | getLeaderProposalID | getMyProposalID => exact ⟨rfl, flags, h, rfl⟩

section New

variable (nodeUID : Str) (quorumSize heartbeatTimeout livenessWindow : Int) (leaderUID : Str)
  (acceptorNow now : UInt64) (unset unset' : Unset)

/-- Two new nodes differ at most in flags that their constructors have not written. -/
theorem new_withFlags :
    ∃ flags, (Written.new nodeUID leaderUID).Agrees
        (new nodeUID quorumSize heartbeatTimeout livenessWindow leaderUID acceptorNow now
          unset).flags flags ∧
      new nodeUID quorumSize heartbeatTimeout livenessWindow leaderUID acceptorNow now unset' =
        (new nodeUID quorumSize heartbeatTimeout livenessWindow leaderUID acceptorNow now
          unset).withFlags flags := by
  unfold new
  by_cases htold : ¬leaderUID.isEmpty ∧ nodeUID = leaderUID
  · simp only [if_pos htold]
    exact ⟨{ unset' with leader := true }, ⟨fun _ => rfl, nofun, nofun⟩, rfl⟩
  · simp only [if_neg htold]
    exact ⟨unset', ⟨fun hw => absurd (of_decide_eq_true hw) htold, nofun, nofun⟩, rfl⟩

end New

/-- **Unset members.** If a run of a new node writes each flag before something depends on it, the
owner sees the same whatever the unset members hold. -/
theorem independentOfUnset_of_writesFirst {nodeUID : Str}
    {quorumSize heartbeatTimeout livenessWindow : Int} {leaderUID : Str}
    {acceptorNow now : UInt64} (unset : Unset) {requests : List NodeRequest}
    (h : (new nodeUID quorumSize heartbeatTimeout livenessWindow leaderUID acceptorNow now
      unset).WritesFirst (.new nodeUID leaderUID) requests) :
    IndependentOfUnset
      (new nodeUID quorumSize heartbeatTimeout livenessWindow leaderUID acceptorNow now)
      requests := by
  have hsame : ∀ unset', observed.trace
      (new nodeUID quorumSize heartbeatTimeout livenessWindow leaderUID acceptorNow now unset')
        requests =
      observed.trace
        (new nodeUID quorumSize heartbeatTimeout livenessWindow leaderUID acceptorNow now unset)
        requests := by
    intro unset'
    refine (h.trace_eq
      (R := fun s N' => ∃ flags, s.2.Agrees s.1.flags flags ∧ N' = s.1.withFlags flags)
      (new_withFlags nodeUID quorumSize heartbeatTimeout livenessWindow leaderUID acceptorNow now
        unset unset') ?_).trans (Machine.withGhost_trace _ _)
    rintro s N' request ⟨flags, hagrees, rfl⟩ hallowed
    exact hagrees.request hallowed
  intro unset₁ unset₂
  rw [hsame unset₁, hsame unset₂]

/-- A node that is made active and elected. -/
theorem independentOfUnset_elected :
    IndependentOfUnset (new [65] 2 100000 50000 [] 0 0)
      [.call (.setActive true), .call (.receivePrepare 1 [66] ⟨1, [66]⟩), .call (.prepare true),
        .isLeader, .call (.receivePromise 2 [66] ⟨1, [65]⟩ .empty []),
        .call (.receivePromise 3 [67] ⟨1, [65]⟩ .empty [120]), .isLeader, .getLeaderUID,
        .call (.pulse 4)] :=
  independentOfUnset_of_writesFirst ⟨false, false, false, false⟩ (by decide)

/-- A new node sends a heartbeat if its leader flag happens to be set. -/
theorem pulse_depends_on_unset :
    ¬IndependentOfUnset (new [65] 2 100000 50000 [] 0 0) [.call (.pulse 1)] := by
  intro h
  have hsame := h ⟨true, false, false, false⟩ ⟨false, false, false, false⟩
  have hsent : [NodeObservation.messenger (onLeadershipChange [] [65]),
      .messenger (sendHeartbeat [65] ⟨0, [65]⟩)] = [] := hsame
  cases hsent

end PaxosNode

end CppPaxos
