import CppPaxos.AcceptorInvariant
import CppPaxos.Cluster
import CppPaxos.Library.Voting
import CppPaxos.ProposerBallots

/-!
# Agreement

An accepted pair is a vote of its acceptor, and the promised ID is the floor of its
further votes. The cluster then carries a voting record, and every accept request is a
safe proposal of that record, provided that a proposer never counts promises for an
earlier ID towards a later one and a leader keeps the value it has sent. Both fail in
the code, and each failure breaks agreement.
-/

namespace CppPaxos

open Machines MessengerCall

variable {κ ι : Type*}

/-- The record of the votes of the acceptors, with those of the present states added. -/
def noteVotes (R : Voting.Record ι ProposalID Str) (acceptors : ι → Acceptor) :
    Voting.Record ι ProposalID Str where
  voted i b v := R.voted i b v ∨ (acceptors i).acceptedPair = some (b, v)
  floor i := (acceptors i).promisedID

/-- An accepted pair that a promise reports is no pair at all, or has been proposed. -/
def Justified (proposed : ProposalID → Str → Prop) (r : ProposalID) (w : Str) : Prop :=
  (r = .empty ∧ w = []) ∨ proposed r w

/-- What is known of all accept requests sent so far. -/
structure ProposalFacts (quorumSize : ℕ) (R : Voting.Record ι ProposalID Str)
    (proposed : ProposalID → Str → Prop) : Prop where
  valid : ∀ b v, proposed b v → b.isValid
  value_ne_nil : ∀ b v, proposed b v → v ≠ []
  unique : ∀ b v v', proposed b v → proposed b v' → v = v'
  safe : ∀ b v, proposed b v → R.SafeAt quorumSize b v
  of_voted : ∀ i b v, R.voted i b v → proposed b v

/-- What is known of one acceptor and the messages it has sent. -/
structure AcceptorFacts (R : Voting.Record ι ProposalID Str) (proposed : ProposalID → Str → Prop)
    (i : ι) (A : Acceptor) (answers : List MessengerCall) : Prop where
  invariant : A.Invariant
  floor : R.floor i = A.promisedID
  voted_of_accepted : ∀ b v, A.acceptedPair = some (b, v) → R.voted i b v
  voted_le : ∀ b v, R.voted i b v → b ≤ A.acceptedID
  voted_proposed : ∀ b v, R.voted i b v → proposed b v
  promise : ∀ u p r w, sendPromise u p r w ∈ answers → R.Reports i p r ∧ Justified proposed r w

/-- What is known of one proposer and the messages it has sent. -/
structure ProposerFacts [Fintype ι] (S : Setup κ ι) (R : Voting.Record ι ProposalID Str)
    (proposed : ProposalID → Str → Prop) (k : κ) (P : Proposer) (stale : Bool)
    (requests : List MessengerCall) : Prop where
  uid : P.proposalID.uid = S.proposerUID k
  quorumSize : P.quorumSize = S.quorumSize
  accepts_sent : P.AcceptsSent requests
  prepare_uid : ∀ p, sendPrepare p ∈ requests → p.uid = S.proposerUID k
  accept_uid : ∀ p v, sendAccept p v ∈ requests → p.uid = S.proposerUID k
  accept_safe : ∀ p v, sendAccept p v ∈ requests → R.SafeAt S.quorumSize p v
  /-- The promises held, unless stale, are reports that the value held takes into account. -/
  held : stale = false → ∀ u ∈ P.promisesReceived, ∃ i, S.acceptorUID i = u ∧
    R.Reports i P.proposalID P.lastAcceptedID
  adopted : P.lastAcceptedID = .empty ∨ proposed P.lastAcceptedID P.proposedValue
  leader : P.leader → S.quorumSize ≤ P.promisesReceived.card

section Acceptors

variable {R R' : Voting.Record ι ProposalID Str} {proposed proposed' : ProposalID → Str → Prop}
  {i : ι} {A A' : Acceptor} {answers : List MessengerCall}

/-- The record grows as voting records do. -/
theorem extends_noteVotes {acceptors acceptors' : ι → Acceptor}
    (hfloor : ∀ i, R.floor i = (acceptors i).promisedID)
    (hvoted : ∀ i b v, (acceptors i).acceptedPair = some (b, v) → R.voted i b v)
    (hevolves : ∀ i, (acceptors i).Evolves (acceptors' i)) :
    R.Extends (noteVotes R acceptors') := by
  refine ⟨fun i b v h => Or.inl h, fun i => ?_, fun i b v h => ?_⟩
  · rw [hfloor]
    exact (hevolves i).promisedID_le
  · rcases h with hold | hnew
    · exact Or.inl hold
    · obtain ⟨hvalid, hid, hvalue⟩ := Acceptor.acceptedPair_eq_some.mp hnew
      rcases (hevolves i).accepted_eq_or_ge with ⟨hsame, hsame'⟩ | hge
      · refine Or.inl (hvoted i b v (Acceptor.acceptedPair_eq_some.mpr ?_))
        rw [← hsame, ← hsame']
        exact ⟨hvalid, hid, hvalue⟩
      · rw [hfloor, ← hid]
        exact Or.inr hge

/-- Another party's step leaves the facts of an acceptor true. -/
theorem AcceptorFacts.keep (h : AcceptorFacts R proposed i A answers) (hR : R.Extends R')
    (hvoted : ∀ b v, R'.voted i b v ↔ R.voted i b v ∨ A.acceptedPair = some (b, v))
    (hfloor : R'.floor i = A.promisedID) (hproposed : ∀ b v, proposed b v → proposed' b v) :
    AcceptorFacts R' proposed' i A answers := by
  have hback : ∀ b v, R'.voted i b v → R.voted i b v := by
    intro b v hv
    rcases (hvoted b v).mp hv with hold | hnow
    · exact hold
    · exact h.voted_of_accepted b v hnow
  refine ⟨h.invariant, hfloor, fun b v hv => (hvoted b v).mpr (Or.inr hv),
    fun b v hv => h.voted_le b v (hback b v hv),
    fun b v hv => hproposed b v (h.voted_proposed b v (hback b v hv)), ?_⟩
  intro u p r w hsent
  obtain ⟨hreports, hjustified⟩ := h.promise u p r w hsent
  exact ⟨hreports.extend hR, hjustified.imp_right (hproposed r w)⟩

/-- A step of an acceptor keeps its facts, if an accept request it handles has been proposed. -/
theorem AcceptorFacts.step (h : AcceptorFacts R proposed i A answers) (hR : R.Extends R')
    {call : AcceptorCall} {sent : List MessengerCall} (hstep : A.Step call A' sent)
    (hvoted : ∀ b v, R'.voted i b v ↔ R.voted i b v ∨ A'.acceptedPair = some (b, v))
    (hfloor : R'.floor i = A'.promisedID)
    (hrequest : ∀ u p v, call = .receiveAcceptRequest u p v → proposed p v) :
    AcceptorFacts R' proposed i A' (answers ++ sent) := by
  have hI := hstep.invariant h.invariant
  have hle : ∀ b v, R'.voted i b v → b ≤ A'.acceptedID := by
    intro b v hv
    rcases (hvoted b v).mp hv with hold | hnew
    · exact (h.voted_le b v hold).trans (hstep.acceptedID_le h.invariant)
    · exact (Acceptor.acceptedPair_eq_some.mp hnew).2.1.ge
  have hproposed : ∀ b v, R'.voted i b v → proposed b v := by
    intro b v hv
    rcases (hvoted b v).mp hv with hold | hnew
    · exact h.voted_proposed b v hold
    · obtain ⟨hvalid, hid, hvalue⟩ := Acceptor.acceptedPair_eq_some.mp hnew
      rcases hstep.accepted_eq_or with ⟨hsame, hsame'⟩ | ⟨u, p, v', hcall, -, -, -, hp, hv'⟩
      · refine h.voted_proposed b v (h.voted_of_accepted b v (Acceptor.acceptedPair_eq_some.mpr ?_))
        rw [← hsame, ← hsame']
        exact ⟨hvalid, hid, hvalue⟩
      · rw [← hid, ← hvalue, hp, hv']
        exact hrequest u p v' hcall
  refine ⟨hI, hfloor, fun b v hv => (hvoted b v).mpr (Or.inr hv), hle, hproposed, ?_⟩
  intro u p r w hsent
  rcases List.mem_append.mp hsent with hold | hnew
  · obtain ⟨hreports, hjustified⟩ := h.promise u p r w hold
    exact ⟨hreports.extend hR, hjustified⟩
  · obtain ⟨-, hp, hr, hw, -, -, -⟩ := hstep.of_sendPromise_mem h.invariant hnew
    refine ⟨⟨?_, fun b' w' hv _ => ?_⟩, ?_⟩
    · rw [hp, hfloor]
    · rw [hr]
      exact hle b' w' hv
    · rcases hI.accepted with hvalid | ⟨hempty, hnothing⟩
      · refine Or.inr (hproposed r w ((hvoted r w).mpr (Or.inr ?_)))
        exact Acceptor.acceptedPair_eq_some.mpr ⟨hvalid, hr.symm, hw.symm⟩
      · exact Or.inl ⟨by rw [hr, hempty], by rw [hw, hnothing]⟩

end Acceptors

section Proposers

variable [Fintype ι] {S : Setup κ ι} {R R' : Voting.Record ι ProposalID Str}
  {proposed proposed' : ProposalID → Str → Prop} {k : κ} {P : Proposer} {stale : Bool}
  {requests : List MessengerCall}

/-- Another party's step leaves the facts of a proposer true. -/
theorem ProposerFacts.keep (h : ProposerFacts S R proposed k P stale requests)
    (hR : R.Extends R') (hproposed : ∀ b v, proposed b v → proposed' b v) :
    ProposerFacts S R' proposed' k P stale requests := by
  refine ⟨h.uid, h.quorumSize, h.accepts_sent, h.prepare_uid, h.accept_uid,
    fun p v hsent => (h.accept_safe p v hsent).extend hR, fun hstale u hu => ?_,
    h.adopted.imp_right (hproposed _ _), h.leader⟩
  obtain ⟨i, hi, hreports⟩ := h.held hstale u hu
  exact ⟨i, hi, hreports.extend hR⟩

/-- **A leader's value is safe.** If a quorum of the promises held are reports for `p` that take
`m` into account, and the value `v` was proposed at `m` or `m` is no ballot, then `v` is safe
at `p`. -/
theorem safeAt_of_promises [DecidableEq ι] {promises : Finset Str} {p m : ProposalID} {v : Str}
    (hfacts : ProposalFacts S.quorumSize R proposed)
    (hquorum : S.quorumSize ≤ promises.card)
    (hheld : ∀ u ∈ promises, ∃ i, S.acceptorUID i = u ∧ R.Reports i p m)
    (hadopted : m = .empty ∨ proposed m v) : R.SafeAt S.quorumSize p v := by
  -- the acceptors behind the UIDs
  let Q : Finset ι := Finset.univ.filter fun i => S.acceptorUID i ∈ promises
  have hQ : S.quorumSize ≤ Q.card :=
    hquorum.trans (Voting.card_le_card_filter_name S.acceptorUID
      fun u hu => (hheld u hu).imp fun _ hi => hi.1)
  have hreports : ∀ i ∈ Q, R.Reports i p m := by
    intro i hi
    obtain ⟨j, hj, hreports⟩ := hheld (S.acceptorUID i) (by simpa [Q] using hi)
    rwa [← S.acceptorUID_injective hj]
  rcases hadopted with rfl | hproposed
  · apply Voting.Record.safeAt_of_no_votes hQ fun i hi => (hreports i hi).1
    intro i hi b w hvoted
    by_contra hlt
    have hle : b ≤ .empty := (hreports i hi).2 b w hvoted (not_le.mp hlt)
    have hvalid := hfacts.valid b w (hfacts.of_voted i b w hvoted)
    exact absurd (ProposalID.empty_lt_of_isValid hvalid) hle.not_gt
  · apply Voting.Record.safeAt_of_reports hQ hreports (hfacts.safe m v hproposed)
    intro i _ w hvoted
    exact hfacts.unique m w v (hfacts.of_voted i m w hvoted) hproposed

/-- A step of a proposer keeps its facts, if the promise it handles has been sent. -/
theorem ProposerFacts.step [DecidableEq ι] (h : ProposerFacts S R proposed k P stale requests)
    (hfacts : ProposalFacts S.quorumSize R proposed) {call : ProposerCall}
    (hregular : call.Regular) (hwrap : P.NoWrap call) (hfresh : Proposer.UsesFresh (P, stale) call)
    (hkeeps : P.KeepsValue call)
    (hpromise : ∀ u p r w, call = .receivePromise u p r w →
      ∃ i, S.acceptorUID i = u ∧ R.Reports i p r ∧ Justified proposed r w)
    (hproposed : ∀ b v, proposed b v → proposed' b v) :
    ProposerFacts S R proposed' k (Proposer.machine.next P call) (P.staleAfter call stale)
      (requests ++ Proposer.machine.emits P call) := by
  have huid : (Proposer.machine.next P call).proposalID.uid = S.proposerUID k := by
    rw [Proposer.next_proposalID_uid]
    exact h.uid
  have hset : call ≠ .setLeader true := by
    rintro rfl
    exact hregular
  have hadopted : (Proposer.machine.next P call).lastAcceptedID = .empty ∨
      proposed (Proposer.machine.next P call).lastAcceptedID
        (Proposer.machine.next P call).proposedValue := by
    rcases P.adopts_cases call with
      ⟨hlast, hvalue⟩ | ⟨hnothing, hlast⟩ | ⟨u, p, r, w, rfl, -, -, hlast, hvalue⟩
    · rw [hlast, hvalue]
      exact h.adopted
    · rw [hlast]
      refine Or.inl (h.adopted.resolve_right fun hsent => ?_)
      exact absurd hnothing (hfacts.value_ne_nil _ _ hsent)
    · obtain ⟨i, -, -, ⟨hempty, -⟩ | hsent⟩ := hpromise u p r w rfl
      · rw [hlast]
        exact Or.inl hempty
      · rw [hlast, hvalue, if_pos (hfacts.value_ne_nil r w hsent)]
        exact Or.inr hsent
  have hmono : P.lastAcceptedID ≤ (Proposer.machine.next P call).lastAcceptedID := by
    rcases P.adopts_cases call with
      ⟨hlast, -⟩ | ⟨-, hlast⟩ | ⟨u, p, r, w, -, -, hlarger, hlast, -⟩
    · exact hlast.ge
    · exact hlast.ge
    · rw [hlast]
      rcases h.adopted with hempty | hsent
      · rw [hempty]
        exact ProposalID.empty_le r
      · exact (hlarger.resolve_left (not_not.mpr (hfacts.valid _ _ hsent))).le
  have hheld : P.staleAfter call stale = false →
      ∀ u ∈ (Proposer.machine.next P call).promisesReceived, ∃ i, S.acceptorUID i = u ∧
        R.Reports i (Proposer.machine.next P call).proposalID
          (Proposer.machine.next P call).lastAcceptedID := by
    intro hstale u hu
    rcases Proposer.fresh_promise_cases hstale hu with
      ⟨hmem, hbefore, hid⟩ | ⟨p, r, w, rfl, hcounts, hid⟩
    · obtain ⟨i, hi, hreports⟩ := h.held hbefore u hmem
      rw [hid]
      exact ⟨i, hi, hreports.mono hmono⟩
    · obtain ⟨i, hi, hreports, -⟩ := hpromise u p r w rfl
      rw [← hid]
      exact ⟨i, hi, hreports.mono (Proposer.le_lastAcceptedID_of_counts hcounts r w)⟩
  have hleader : (Proposer.machine.next P call).leader →
      S.quorumSize ≤ (Proposer.machine.next P call).promisesReceived.card := by
    intro hleads
    rcases Proposer.leader_next_cases hset hleads with
      ⟨hbefore, hsub⟩ | ⟨u, p, r, w, -, -, hquorum⟩
    · exact (h.leader hbefore).trans (Finset.card_le_card hsub)
    · rwa [← h.quorumSize]
  refine ⟨huid, ?_, h.accepts_sent.next hregular hwrap hkeeps, fun p hsent => ?_,
    fun p v hsent => ?_, fun p v hsent => ?_, hheld, hadopted.imp_right (hproposed _ _),
    hleader⟩
  · rw [Proposer.next_quorumSize]
    exact h.quorumSize
  · rcases List.mem_append.mp hsent with hold | hnew
    · exact h.prepare_uid p hold
    · rw [Proposer.of_sendPrepare_mem hnew, huid]
  · rcases List.mem_append.mp hsent with hold | hnew
    · exact h.accept_uid p v hold
    · rw [(Proposer.of_sendAccept_mem hnew).1, huid]
  · rcases List.mem_append.mp hsent with hold | hnew
    · exact h.accept_safe p v hold
    · obtain ⟨hp, hv, hleads, -⟩ := Proposer.of_sendAccept_mem hnew
      rw [hp, hv]
      exact safeAt_of_promises hfacts (hleader hleads) (hheld (hfresh.of_sendAccept_mem hnew))
        hadopted

/-- The accept requests of different proposers have different IDs, so what is known of each
proposer adds up. -/
theorem proposalFacts_of_proposers {proposers : κ → Proposer} {stale : κ → Bool}
    {requests : κ → List MessengerCall}
    (h : ∀ k, ProposerFacts S R proposed k (proposers k) (stale k) (requests k))
    (hvoted : ∀ i b v, R.voted i b v → ∃ k, sendAccept b v ∈ requests k) :
    ProposalFacts S.quorumSize R fun b v => ∃ k, sendAccept b v ∈ requests k := by
  refine ⟨?_, ?_, ?_, ?_, hvoted⟩
  · rintro b v ⟨k, hsent⟩
    have huid := (h k).accept_uid b v hsent
    simpa [ProposalID.isValid, huid] using S.proposerUID_ne_nil k
  · rintro b v ⟨k, hsent⟩
    exact (h k).accepts_sent.value_ne_nil b v hsent
  · rintro b v v' ⟨k, hsent⟩ ⟨k', hsent'⟩
    have huid := (h k).accept_uid b v hsent
    have huid' := (h k').accept_uid b v' hsent'
    obtain rfl := S.proposerUID_injective (huid.symm.trans huid')
    exact (h k).accepts_sent.unique b v v' hsent hsent'
  · rintro b v ⟨k, hsent⟩
    exact (h k).accept_safe b v hsent

end Proposers

/-! ### The cluster -/

namespace Cluster

variable [DecidableEq κ]

/-- The history variables of the proposers: which of them hold promises for an earlier ID. -/
def staleAfter (C : Cluster κ ι) (act : ClusterAction κ ι) (stale : κ → Bool) : κ → Bool :=
  match act with
  | .proposer k call => Function.update stale k ((C.proposers k).staleAfter call (stale k))
  | .acceptor _ _ => stale

/-- No proposer counts a promise or sends an accept request on top of promises for an earlier ID,
and no leader takes over another value than the one it has. -/
def KeepsBallots (X : Cluster κ ι × (κ → Bool)) : ClusterAction κ ι → Prop
  | .proposer k call =>
    Proposer.UsesFresh (X.1.proposers k, X.2 k) call ∧ (X.1.proposers k).KeepsValue call
  | .acceptor _ _ => True

instance (X : Cluster κ ι × (κ → Bool)) : DecidablePred (KeepsBallots X)
  | .proposer _ _ => inferInstanceAs (Decidable (_ ∧ _))
  | .acceptor _ _ => isTrue trivial

/-- Some proposer has sent the accept request. -/
def Proposed (C : Cluster κ ι) (b : ProposalID) (v : Str) : Prop :=
  ∃ k, sendAccept b v ∈ C.requests k

/-- The cluster with the history variables of its proposers. -/
def trackedMachine [DecidableEq ι] :
    Machine (Cluster κ ι × (κ → Bool)) (ClusterAction κ ι) MessengerCall :=
  machine.withGhost staleAfter

/-- One step of the cluster, with what is tracked of its proposers. -/
theorem trackedMachine_next [DecidableEq ι] (X : Cluster κ ι × (κ → Bool))
    (act : ClusterAction κ ι) :
    trackedMachine.next X act = (machine.next X.1 act, X.1.staleAfter act X.2) := rfl

end Cluster

namespace Setup

variable [Fintype ι] (S : Setup κ ι)

/-- What is known of all parties. -/
structure Facts (R : Voting.Record ι ProposalID Str) (X : Cluster κ ι × (κ → Bool)) : Prop where
  acceptor : ∀ i, AcceptorFacts R X.1.Proposed i (X.1.acceptors i) (X.1.answers i)
  proposer : ∀ k, ProposerFacts S R X.1.Proposed k (X.1.proposers k) (X.2 k) (X.1.requests k)

variable {S} {R : Voting.Record ι ProposalID Str} {C : Cluster κ ι} {stale : κ → Bool}

/-- The facts say where the values of the accept requests come from. -/
theorem Facts.proposals (h : S.Facts R (C, stale)) :
    ProposalFacts S.quorumSize R C.Proposed :=
  proposalFacts_of_proposers h.proposer fun i => (h.acceptor i).voted_proposed

/-- Noting the votes of acceptors that have evolved extends the record. -/
theorem Facts.extends_noteVotes (h : S.Facts R (C, stale)) {acceptors : ι → Acceptor}
    (hevolves : ∀ i, (C.acceptors i).Evolves (acceptors i)) : R.Extends (noteVotes R acceptors) :=
  CppPaxos.extends_noteVotes (fun i => (h.acceptor i).floor)
    (fun i => (h.acceptor i).voted_of_accepted) hevolves

/-- The calls enabled on a proposer are regular. -/
theorem ProposerEnabled.regular {k : κ} {call : ProposerCall} (h : S.ProposerEnabled C k call) :
    call.Regular := by
  cases call with
  | setProposal => exact h
  | setLeader => exact absurd h not_false
  | _ => exact trivial

/-- The requests delivered to an acceptor carry valid IDs. -/
theorem Facts.validID (h : S.Facts R (C, stale)) {i : ι} {call : AcceptorCall}
    (henabled : S.Enabled C (.acceptor i call)) : call.ValidID := by
  cases call with
  | receivePrepare now u p =>
    obtain ⟨k, -, hsent⟩ := henabled
    have huid := (h.proposer k).prepare_uid p hsent
    simpa [AcceptorCall.ValidID, ProposalID.isValid, huid] using S.proposerUID_ne_nil k
  | receiveAcceptRequest u p v =>
    obtain ⟨k, -, hsent⟩ := henabled
    exact h.proposals.valid p v ⟨k, hsent⟩
  | persisted => exact trivial
  | setActive => exact absurd henabled not_false

section Run

variable (S) [DecidableEq κ] [DecidableEq ι]

/-- The voting record of a run: all accepted pairs ever held, and the promised IDs now. -/
def record (acts : List (ClusterAction κ ι)) : Voting.Record ι ProposalID Str where
  voted i b v :=
    ∃ C, Cluster.machine.Visits S.start acts C ∧ (C.acceptors i).acceptedPair = some (b, v)
  floor i := ((Cluster.machine.run S.start acts).acceptors i).promisedID

/-- One more action adds the accepted pairs after it to the record. -/
theorem record_concat (acts : List (ClusterAction κ ι)) (act : ClusterAction κ ι) :
    S.record (acts ++ [act]) = noteVotes (S.record acts)
      (Cluster.machine.next (Cluster.machine.run S.start acts) act).acceptors := by
  ext i
  · simp only [record, noteVotes, Machine.visits_concat, or_and_right, exists_or, exists_eq_left']
  · simp only [record, noteVotes, Machine.run_concat]

variable {S}

/-- A step of a proposer keeps the facts. -/
theorem Facts.proposer_step (h : S.Facts R (C, stale)) {k : κ} {call : ProposerCall}
    (henabled : S.Enabled C (.proposer k call)) (hwrap : C.NoWrap (.proposer k call))
    (hkeeps : Cluster.KeepsBallots (C, stale) (.proposer k call)) :
    S.Facts (noteVotes R (Cluster.machine.next C (.proposer k call)).acceptors)
      (Cluster.trackedMachine.next (C, stale) (.proposer k call)) := by
  have hR := h.extends_noteVotes fun i => Acceptor.Evolves.refl (C.acceptors i)
  have hproposed : ∀ b v, C.Proposed b v →
      (Cluster.machine.next C (.proposer k call)).Proposed b v := by
    rintro b v ⟨j, hsent⟩
    refine ⟨j, ?_⟩
    rw [Cluster.next_proposer]
    by_cases hself : j = k
    · subst hself
      simp [hsent]
    · simpa [Function.update_of_ne hself] using hsent
  have hpromise : ∀ u p r w, call = .receivePromise u p r w →
      ∃ i, S.acceptorUID i = u ∧ R.Reports i p r ∧ Justified C.Proposed r w := by
    rintro u p r w rfl
    obtain ⟨i, hi, hsent⟩ := henabled
    exact ⟨i, hi, (h.acceptor i).promise _ p r w hsent⟩
  rw [Cluster.trackedMachine_next]
  refine ⟨fun i => (h.acceptor i).keep hR (fun b v => Iff.rfl) rfl hproposed, fun j => ?_⟩
  by_cases hself : j = k
  · subst hself
    have hstep := ((h.proposer j).step h.proposals henabled.regular hwrap hkeeps.1 hkeeps.2
      hpromise hproposed).keep hR fun _ _ hb => hb
    simpa [Cluster.next_proposer, Cluster.staleAfter] using hstep
  · have hkeep := (h.proposer j).keep hR hproposed
    simpa [Cluster.next_proposer, Cluster.staleAfter, Function.update_of_ne hself] using hkeep

/-- A step of an acceptor keeps the facts. -/
theorem Facts.acceptor_step (h : S.Facts R (C, stale)) {i : ι} {call : AcceptorCall}
    (henabled : S.Enabled C (.acceptor i call)) :
    S.Facts (noteVotes R (Cluster.machine.next C (.acceptor i call)).acceptors)
      (Cluster.trackedMachine.next (C, stale) (.acceptor i call)) := by
  have hstep := (h.acceptor i).invariant.step (h.validID henabled)
  have hself : (Cluster.machine.next C (.acceptor i call)).acceptors i =
      Acceptor.machine.next (C.acceptors i) call := by
    simp [Cluster.next_acceptor]
  have hother : ∀ j, j ≠ i →
      (Cluster.machine.next C (.acceptor i call)).acceptors j = C.acceptors j := by
    intro j hj
    simp [Cluster.next_acceptor, Function.update_of_ne hj]
  have hR : R.Extends (noteVotes R (Cluster.machine.next C (.acceptor i call)).acceptors) := by
    refine h.extends_noteVotes fun j => ?_
    by_cases hj : j = i
    · subst hj
      rw [hself]
      exact hstep.evolves (h.acceptor j).invariant
    · rw [hother j hj]
      exact Acceptor.Evolves.refl _
  have hrequest : ∀ u p v, call = .receiveAcceptRequest u p v → C.Proposed p v := by
    rintro u p v rfl
    obtain ⟨k, -, hsent⟩ := henabled
    exact ⟨k, hsent⟩
  have hsame : (Cluster.machine.next C (.acceptor i call)).Proposed = C.Proposed := rfl
  rw [Cluster.trackedMachine_next]
  refine ⟨fun j => ?_, fun k => (h.proposer k).keep hR fun _ _ hb => hb⟩
  by_cases hj : j = i
  · subst hj
    have hfacts := (h.acceptor j).step hR hstep (fun b v => by rw [← hself]; exact Iff.rfl)
      (by rw [← hself]; rfl) hrequest
    rw [hsame]
    simpa [Cluster.next_acceptor] using hfacts
  · have hfacts := (h.acceptor j).keep hR (fun b v => by rw [← hother j hj]; exact Iff.rfl)
      (by rw [← hother j hj]; rfl) fun _ _ hb => hb
    rw [hsame]
    simpa [Cluster.next_acceptor, Function.update_of_ne hj] using hfacts

/-- The facts hold at the start. -/
theorem facts_start : S.Facts (S.record []) (S.start, fun _ => false) := by
  have hnothing : ∀ i b v, ¬(S.record []).voted i b v := by
    rintro i b v ⟨C, hvisits, hpair⟩
    rw [← Machine.visits_nil.mp hvisits] at hpair
    simp [start, Acceptor.new, Acceptor.acceptedPair] at hpair
  refine ⟨fun i => ⟨Acceptor.invariant_new _ _ _ _, rfl, ?_, ?_, ?_, ?_⟩, fun k => ?_⟩
  · intro b v hpair
    simp [start, Acceptor.new, Acceptor.acceptedPair] at hpair
  · exact fun b v hv => absurd hv (hnothing i b v)
  · exact fun b v hv => absurd hv (hnothing i b v)
  · intro u p r w hsent
    simp [start] at hsent
  · refine ⟨rfl, rfl, ⟨?_, ?_, ?_, ?_⟩, ?_, ?_, ?_, ?_, Or.inl rfl, ?_⟩ <;>
      simp [start, Proposer.new]

/-- **Agreement.** It holds in every run in which no proposer counts promises or sends accept
requests on top of promises for an earlier ID, and no leader takes over another value. -/
theorem agreement {acts : List (ClusterAction κ ι)}
    (hrun : Cluster.trackedMachine.Admits
      (fun X act => S.Enabled X.1 act ∧ X.1.NoWrap act ∧ Cluster.KeepsBallots X act)
      (S.start, fun _ => false) acts) : S.Agreement acts := by
  have hfacts : S.Facts (S.record acts)
      (Cluster.trackedMachine.run (S.start, fun _ => false) acts) := by
    refine hrun.induction (I := fun pre X => S.Facts (S.record pre) X) facts_start ?_
    intro pre act hI ⟨henabled, hwrap, hkeeps⟩
    have hrun : (Cluster.trackedMachine.run (S.start, fun _ => false) pre).1 =
        Cluster.machine.run S.start pre := Machine.withGhost_run_fst _ _
    rw [record_concat, ← hrun]
    cases act with
    | proposer k call => exact hI.proposer_step henabled hwrap hkeeps
    | acceptor i call => exact hI.acceptor_step henabled
  have hproposals := hfacts.proposals
  intro p v p' v' hheld hheld'
  refine Voting.Record.chosen_unique (R := S.record acts) S.majority ?_ ?_ hheld hheld'
  · intro i j b w w' hvoted hvoted'
    exact hproposals.unique b w w' (hproposals.of_voted i b w hvoted)
      (hproposals.of_voted j b w' hvoted')
  · intro i b w hvoted
    exact hproposals.safe b w (hproposals.of_voted i b w hvoted)

end Run

/-! ### Two runs -/

/-- Two proposers, B and Z, and three acceptors. -/
def twoOnThree : Setup (Fin 2) (Fin 3) where
  proposerUID k := if k = 0 then [66] else [90]
  acceptorUID i := [49 + UInt8.ofNat i]
  quorumSize := 2
  livenessWindow _ := 0
  startedAt _ := 0
  proposerUID_injective := by decide
  proposerUID_ne_nil := by decide
  acceptorUID_injective := by decide
  majority := by decide

/-- Acceptor `i` handles a prepare request for `p` and persists its promise. -/
def promises (i : Fin 3) (p : ProposalID) : List (ClusterAction (Fin 2) (Fin 3)) :=
  [.acceptor i (.receivePrepare 0 p.uid p), .acceptor i .persisted]

/-- Acceptor `i` handles an accept request for `(p, v)` and persists its permit. -/
def permits (i : Fin 3) (p : ProposalID) (v : Str) : List (ClusterAction (Fin 2) (Fin 3)) :=
  [.acceptor i (.receiveAcceptRequest p.uid p v), .acceptor i .persisted]

/-- Z is elected at (1, Z) and has its value chosen; B is elected at (2, B) and takes it over. -/
def takenOver : List (ClusterAction (Fin 2) (Fin 3)) :=
  [.proposer 1 (.setProposal [120]), .proposer 1 (.prepare true)] ++
    promises 0 ⟨1, [90]⟩ ++ promises 1 ⟨1, [90]⟩ ++
  [.proposer 1 (.receivePromise [49] ⟨1, [90]⟩ .empty []),
    .proposer 1 (.receivePromise [50] ⟨1, [90]⟩ .empty [])] ++
    permits 0 ⟨1, [90]⟩ [120] ++ permits 1 ⟨1, [90]⟩ [120] ++
  [.proposer 0 (.setProposal [121]), .proposer 0 (.prepare true), .proposer 0 (.prepare true)] ++
    promises 1 ⟨2, [66]⟩ ++ promises 2 ⟨2, [66]⟩ ++
  [.proposer 0 (.receivePromise [50] ⟨2, [66]⟩ ⟨1, [90]⟩ [120]),
    .proposer 0 (.receivePromise [51] ⟨2, [66]⟩ .empty [])] ++
    permits 1 ⟨2, [66]⟩ [120] ++ permits 2 ⟨2, [66]⟩ [120]

set_option maxRecDepth 2000 in
/-- The second leader takes over the value of the first one. -/
theorem agreement_takenOver :
    twoOnThree.HeldByQuorum takenOver ⟨1, [90]⟩ [120] ∧
      twoOnThree.HeldByQuorum takenOver ⟨2, [66]⟩ [120] ∧ twoOnThree.Agreement takenOver :=
  ⟨heldByQuorum_at twoOnThree (takenOver.take_prefix 12) {0, 1} (by decide) (by decide),
    heldByQuorum_at twoOnThree List.prefix_rfl {1, 2} (by decide) (by decide),
    agreement (by decide)⟩

/-- Z is elected at (1, Z), then B at (2, B), whose value is chosen. The refusal of the accept
request of Z raises its number to (2, Z), which no acceptor has promised, and leaves it a leader.
Z sends its value again, now with (2, Z), and that is chosen too. -/
def raisedLeader : List (ClusterAction (Fin 2) (Fin 3)) :=
  [.proposer 1 (.setProposal [120]), .proposer 1 (.prepare true)] ++
    promises 0 ⟨1, [90]⟩ ++ promises 1 ⟨1, [90]⟩ ++
  [.proposer 1 (.receivePromise [49] ⟨1, [90]⟩ .empty []),
    .proposer 1 (.receivePromise [50] ⟨1, [90]⟩ .empty []),
    .proposer 0 (.setProposal [121]), .proposer 0 (.prepare true), .proposer 0 (.prepare true)] ++
    promises 0 ⟨2, [66]⟩ ++ promises 1 ⟨2, [66]⟩ ++
  [.proposer 0 (.receivePromise [49] ⟨2, [66]⟩ .empty []),
    .proposer 0 (.receivePromise [50] ⟨2, [66]⟩ .empty [])] ++
    permits 0 ⟨2, [66]⟩ [121] ++ permits 1 ⟨2, [66]⟩ [121] ++
  [.acceptor 0 (.receiveAcceptRequest [90] ⟨1, [90]⟩ [120]),
    .proposer 1 (.receiveAcceptNACK [49] ⟨1, [90]⟩ ⟨2, [66]⟩), .proposer 1 .resendAccept] ++
    permits 0 ⟨2, [90]⟩ [120] ++ permits 1 ⟨2, [90]⟩ [120]

set_option maxRecDepth 2000 in
/-- The leader raises its ID while it leads, and two values are held by quorums. -/
theorem disagreement_raisedLeader :
    Cluster.machine.Admits (fun C act => twoOnThree.Enabled C act ∧ C.NoWrap act)
      twoOnThree.start raisedLeader ∧ ¬twoOnThree.Agreement raisedLeader := by
  refine ⟨by decide, fun hagreement => ?_⟩
  have hfirst : twoOnThree.HeldByQuorum raisedLeader ⟨2, [66]⟩ [121] :=
    heldByQuorum_at twoOnThree (raisedLeader.take_prefix 21) {0, 1} (by decide) (by decide)
  have hsecond : twoOnThree.HeldByQuorum raisedLeader ⟨2, [90]⟩ [120] :=
    heldByQuorum_at twoOnThree List.prefix_rfl {0, 1} (by decide) (by decide)
  have hsame : ([121] : Str) = [120] := hagreement _ _ _ _ hfirst hsecond
  exact absurd hsame (by decide)

end Setup

end CppPaxos
