import CppPaxos.ProposerSteps
import Mathlib.Data.List.Dedup
import Mathlib.Data.Finset.Dedup

/-!
# Ballots of one proposer

Two properties of the accept requests of a proposer, over every sequence of calls:
one value per proposal ID, and a quorum of promises for that very ID. Both hold in
the runs in which two branches of the code are not reached. The first is a promise
that a sitting leader counts and that replaces its value; the second is an observed
ID that raises the number while promises for the old number are held.
-/

namespace CppPaxos

open Machines MessengerCall

/-- The calls that the owner and the network make on a running proposer: the leader flag is not
set from outside and no empty value is proposed. -/
def ProposerCall.Regular : ProposerCall → Prop
  | .setProposal value => value ≠ []
  | .setLeader _ => False
  | _ => True

instance : DecidablePred ProposerCall.Regular
  | .setProposal value => inferInstanceAs (Decidable (value ≠ []))
  | .setLeader _ => isFalse not_false
  | .prepare _ | .receivePromise .. | .receivePrepareNACK .. | .receiveAcceptNACK ..
  | .observeProposal .. | .resendAccept | .setActive _ => isTrue trivial

/-- The accepted pairs that the promises of a run report. -/
def reports (calls : List ProposerCall) : List (ProposalID × Str) :=
  calls.filterMap fun
    | .receivePromise _ _ prevAcceptedID prevAcceptedValue =>
      some (prevAcceptedID, prevAcceptedValue)
    | _ => none

/-- Reports of one accepted ID agree on the value, and a valid ID comes with a value. -/
def ConsistentReports (calls : List ProposerCall) : Prop :=
  (∀ x ∈ reports calls, ∀ y ∈ reports calls, x.1 = y.1 → x.2 = y.2) ∧
    ∀ x ∈ reports calls, x.1.isValid → x.2 ≠ []

instance (calls : List ProposerCall) : Decidable (ConsistentReports calls) :=
  inferInstanceAs (Decidable (_ ∧ _))

/-- The acceptors from which a promise for exactly `p` was received. -/
def promisers (calls : List ProposerCall) (p : ProposalID) : Finset Str :=
  (calls.filterMap fun
    | .receivePromise fromUID proposalID _ _ => if proposalID = p then some fromUID else none
    | _ => none).toFinset

/-- Who has promised an ID. -/
theorem mem_promisers {calls : List ProposerCall} {p : ProposalID} {u : Str} :
    u ∈ promisers calls p ↔ ∃ r w, .receivePromise u p r w ∈ calls := by
  simp only [promisers, List.mem_toFinset, List.mem_filterMap]
  constructor
  · rintro ⟨call, hcall, hu⟩
    cases call with
    | receivePromise u' p' r w =>
      simp only [Option.ite_none_right_eq_some, Option.some.injEq] at hu
      obtain ⟨rfl, rfl⟩ := hu
      exact ⟨r, w, hcall⟩
    | _ => simp at hu
  · rintro ⟨r, w, hcall⟩
    exact ⟨_, hcall, by simp⟩

/-- Promises are not taken back. -/
theorem promisers_subset_append (calls more : List ProposerCall) (p : ProposalID) :
    promisers calls p ⊆ promisers (calls ++ more) p := by
  intro u hu
  obtain ⟨r, w, hcall⟩ := mem_promisers.mp hu
  exact mem_promisers.mpr ⟨r, w, List.mem_append_left _ hcall⟩

namespace Proposer

/-! ### One value per proposal ID -/

/-- The accept requests of the run carry one value for each proposal ID. -/
def SingleValued (P : Proposer) (calls : List ProposerCall) : Prop :=
  ∀ p v v', sendAccept p v ∈ machine.trace P calls → sendAccept p v' ∈ machine.trace P calls →
    v = v'

/-- A promise that a leader with a value counts does not replace the value. -/
def KeepsValue (P : Proposer) : ProposerCall → Prop
  | .receivePromise fromUID proposalID prevAcceptedID prevAcceptedValue =>
    P.leader → P.proposedValue ≠ [] → P.Counts fromUID proposalID →
      ¬P.lastAcceptedID.isValid ∨ P.lastAcceptedID < prevAcceptedID →
        prevAcceptedValue = [] ∨ prevAcceptedValue = P.proposedValue
  | _ => True

instance (P : Proposer) : DecidablePred P.KeepsValue
  | .receivePromise .. => inferInstanceAs (Decidable (_ → _ → _ → _ → _))
  | .prepare _ | .setProposal _ | .receivePrepareNACK .. | .receiveAcceptNACK ..
  | .observeProposal .. | .resendAccept | .setLeader _ | .setActive _ => isTrue trivial

/-- A leader that has a value keeps both as long as it keeps its proposal ID. -/
theorem leader_keeps_value {P : Proposer} {call : ProposerCall} (hregular : call.Regular)
    (hwrap : P.NoWrap call) (hkeeps : P.KeepsValue call) (hleader : P.leader)
    (hvalue : P.proposedValue ≠ [])
    (hsame : (machine.next P call).proposalID = P.proposalID) :
    (machine.next P call).leader ∧ (machine.next P call).proposedValue = P.proposedValue := by
  constructor
  · have hprepare : call ≠ .prepare true := by
      rintro rfl
      exact absurd hsame (ProposalID.lt_incrementNumber (hwrap rfl)).ne'
    have hset : call ≠ .setLeader false := by
      rintro rfl
      exact hregular
    exact leader_next_of_leader hleader hprepare hset
  · rcases P.adopts_cases call with
      ⟨-, hstays⟩ | ⟨hempty, -⟩ | ⟨u, p, r, w, rfl, hcounts, hlarger, -, hadopted⟩
    · exact hstays
    · exact absurd hempty hvalue
    · rw [hadopted]
      split_ifs with hw
      · exact (hkeeps hleader hvalue hcounts hlarger).resolve_left hw
      · rfl

/-- A regular call sends no accept request with an empty value. -/
theorem value_ne_nil_of_sendAccept_mem {P : Proposer} {call : ProposerCall}
    (hregular : call.Regular) {p : ProposalID} {v : Str}
    (hsent : sendAccept p v ∈ machine.emits P call) : v ≠ [] := by
  rcases (sendAccept_mem_cases hsent).2 with
    ⟨u, r, w, -, -, hv⟩ | ⟨rfl, -, -⟩ | ⟨-, -, hvalue, rfl⟩
  · exact hv
  · exact hregular
  · exact hvalue

/-- What the accept requests sent so far say about the proposer. -/
structure AcceptsSent (P : Proposer) (sent : List MessengerCall) : Prop where
  /-- They are not above the proposal ID. -/
  le_proposalID : ∀ p v, sendAccept p v ∈ sent → p ≤ P.proposalID
  /-- Those for the current proposal ID were sent by the leader that still is, with its value. -/
  current : ∀ v, sendAccept P.proposalID v ∈ sent → P.leader ∧ P.proposedValue = v
  value_ne_nil : ∀ p v, sendAccept p v ∈ sent → v ≠ []
  unique : ∀ p v v', sendAccept p v ∈ sent → sendAccept p v' ∈ sent → v = v'

/-- One call keeps what the accept requests say. -/
theorem AcceptsSent.next {P : Proposer} {sent : List MessengerCall} (h : P.AcceptsSent sent)
    {call : ProposerCall} (hregular : call.Regular) (hwrap : P.NoWrap call)
    (hkeeps : P.KeepsValue call) :
    (machine.next P call).AcceptsSent (sent ++ machine.emits P call) := by
  have hle := le_next_proposalID hwrap
  have hold : ∀ v, sendAccept (machine.next P call).proposalID v ∈ sent →
      (machine.next P call).leader ∧ (machine.next P call).proposedValue = v := by
    intro v hsent
    have hsame : (machine.next P call).proposalID = P.proposalID :=
      le_antisymm (h.le_proposalID _ v hsent) hle
    rw [hsame] at hsent
    obtain ⟨hleader, hv⟩ := h.current v hsent
    have hvalue : P.proposedValue ≠ [] := by
      rw [hv]
      exact h.value_ne_nil _ v hsent
    obtain ⟨hleader', hv'⟩ := leader_keeps_value hregular hwrap hkeeps hleader hvalue hsame
    exact ⟨hleader', by rw [hv', hv]⟩
  have hcurrent : ∀ v,
      sendAccept (machine.next P call).proposalID v ∈ sent ++ machine.emits P call →
      (machine.next P call).leader ∧ (machine.next P call).proposedValue = v := by
    intro v hsent
    rcases List.mem_append.mp hsent with hsent | hsent
    · exact hold v hsent
    · obtain ⟨-, hv, hleader, -⟩ := of_sendAccept_mem hsent
      exact ⟨hleader, hv.symm⟩
  refine ⟨?_, hcurrent, ?_, ?_⟩
  · intro p v hsent
    rcases List.mem_append.mp hsent with hsent | hsent
    · exact (h.le_proposalID p v hsent).trans hle
    · rw [(of_sendAccept_mem hsent).1]
  · intro p v hsent
    rcases List.mem_append.mp hsent with hsent | hsent
    · exact h.value_ne_nil p v hsent
    · exact value_ne_nil_of_sendAccept_mem hregular hsent
  · intro p v v' hsent hsent'
    by_cases hp : p = (machine.next P call).proposalID
    · rw [hp] at hsent hsent'
      rw [← (hcurrent v hsent).2, (hcurrent v' hsent').2]
    · have hbefore : ∀ u, sendAccept p u ∈ sent ++ machine.emits P call →
          sendAccept p u ∈ sent := by
        intro u hu
        rcases List.mem_append.mp hu with hu | hu
        · exact hu
        · exact absurd (of_sendAccept_mem hu).1 hp
      exact h.unique p v v' (hbefore v hsent) (hbefore v' hsent')

/-- **One value per proposal ID.** It holds in every run in which the number does not wrap
around and no promise counted by a leader replaces the value the leader has. -/
theorem sendAccept_singleValued {P : Proposer} {calls : List ProposerCall}
    (hrun : machine.Admits
      (fun P call => call.Regular ∧ P.NoWrap call ∧ P.KeepsValue call) P calls) :
    P.SingleValued calls := by
  have hsent : (machine.run P calls).AcceptsSent (machine.trace P calls) := by
    refine hrun.induction (I := fun pre P' => P'.AcceptsSent (machine.trace P pre))
      ⟨by simp, by simp, by simp, by simp⟩ ?_
    intro pre call hI ⟨hregular, hwrap, hkeeps⟩
    rw [Machine.trace_concat]
    exact hI.next hregular hwrap hkeeps
  exact hsent.unique

/-- A leader elected by two promises, with two acceptors that have accepted nothing. -/
def electedByTwo : List ProposerCall :=
  [.setProposal [120], .prepare true, .receivePromise [49] ⟨1, [97]⟩ .empty [],
    .receivePromise [50] ⟨1, [97]⟩ .empty []]

/-- A leader sends its value twice. -/
theorem sendAccept_singleValued_electedByTwo :
    (new [97] 2 false true).SingleValued (electedByTwo ++ [.resendAccept]) :=
  sendAccept_singleValued (by decide)

/-- After the election a third promise arrives, from an acceptor that has accepted another value
in an earlier ballot. The leader takes that value over and sends it with the same ID. -/
theorem second_value_after_late_promise :
    let calls := electedByTwo ++ [.receivePromise [51] ⟨1, [97]⟩ ⟨0, [98]⟩ [121]]
    (∀ call ∈ calls, call.Regular) ∧ ConsistentReports calls ∧
      ¬(new [97] 2 false true).SingleValued calls := by
  refine ⟨by decide, by decide, fun h => ?_⟩
  have hsame : ([120] : Str) = [121] := h ⟨1, [97]⟩ [120] [121] (by decide) (by decide)
  exact absurd hsame (by decide)

/-! ### A quorum of promises for that very ID -/

/-- Leadership and accept requests are backed by a quorum of promises: in every state with the
leader flag for the proposal ID of that state, and at every accept request for its ID. -/
def QuorumBacked (P : Proposer) (calls : List ProposerCall) : Prop :=
  (∀ pre, pre <+: calls → (machine.run P pre).leader →
    (machine.run P pre).quorumSize ≤ (promisers pre (machine.run P pre).proposalID).card) ∧
  ∀ pre call, pre ++ [call] <+: calls → ∀ p v,
    sendAccept p v ∈ machine.emits (machine.run P pre) call →
      (machine.run P pre).quorumSize ≤ (promisers (pre ++ [call]) p).card

/-- A history variable: the promises held were given for an earlier proposal ID. It is raised
by an observed ID that changes the proposal ID while promises are held, and cleared together
with them by `prepare(true)`. -/
def staleAfter (P : Proposer) (call : ProposerCall) (stale : Bool) : Bool :=
  if call = .prepare true then false
  else stale || call.observed.any fun id => P.promisesReceived.Nonempty ∧ P.Raises id

/-- The proposer with the history variable. -/
def trackedMachine : Machine (Proposer × Bool) ProposerCall MessengerCall :=
  machine.withGhost staleAfter

/-- A promise is counted only while no promise for an earlier ID is held. -/
def CountsFresh (S : Proposer × Bool) : ProposerCall → Prop
  | .receivePromise fromUID proposalID prevAcceptedID prevAcceptedValue =>
    S.1.Counts fromUID proposalID →
      S.1.staleAfter (.receivePromise fromUID proposalID prevAcceptedID prevAcceptedValue) S.2 =
        false
  | _ => True

instance (S : Proposer × Bool) : DecidablePred (CountsFresh S)
  | .receivePromise .. => inferInstanceAs (Decidable (_ → _))
  | .prepare _ | .setProposal _ | .receivePrepareNACK .. | .receiveAcceptNACK ..
  | .observeProposal .. | .resendAccept | .setLeader _ | .setActive _ => isTrue trivial

/-- A promise is counted, and an accept request is sent, only while no promise for an earlier ID
is held. -/
def UsesFresh (S : Proposer × Bool) : ProposerCall → Prop
  | .setProposal _ => S.1.leader → S.1.proposedValue = [] → S.2 = false
  | .resendAccept => S.1.leader → S.1.proposedValue ≠ [] → S.2 = false
  | call => CountsFresh S call

instance (S : Proposer × Bool) : DecidablePred (UsesFresh S)
  | .setProposal _ | .resendAccept => inferInstanceAs (Decidable (_ → _ → _))
  | .receivePromise .. => inferInstanceAs (Decidable (CountsFresh S (.receivePromise ..)))
  | .prepare _ | .receivePrepareNACK .. | .receiveAcceptNACK .. | .observeProposal ..
  | .setLeader _ | .setActive _ => isTrue trivial

/-- Under this condition the promises held when an accept request is sent are current. -/
theorem UsesFresh.of_sendAccept_mem {P : Proposer} {stale : Bool} {call : ProposerCall}
    (h : UsesFresh (P, stale) call) {p : ProposalID} {v : Str}
    (hsent : sendAccept p v ∈ machine.emits P call) : P.staleAfter call stale = false := by
  rcases (sendAccept_mem_cases hsent).2 with
    ⟨u, r, w, rfl, hcounts, -⟩ | ⟨rfl, hleader, hempty⟩ | ⟨rfl, hleader, hvalue, -⟩
  · exact h hcounts
  · simpa [staleAfter, ProposerCall.observed] using h hleader hempty
  · simpa [staleAfter, ProposerCall.observed] using h hleader hvalue

/-- No observed ID changes the proposal ID of a leader. -/
def KeepsLeaderID (P : Proposer) (call : ProposerCall) : Prop :=
  P.leader → ∀ id ∈ call.observed, ¬P.Raises id

instance (P : Proposer) (call : ProposerCall) : Decidable (P.KeepsLeaderID call) :=
  inferInstanceAs (Decidable (_ → _))

/-- The promises held are for the current proposal ID unless marked stale, and those of a leader
are current and a quorum. -/
structure BallotInvariant (calls : List ProposerCall) (S : Proposer × Bool) : Prop where
  held : S.2 = false → S.1.promisesReceived ⊆ promisers calls S.1.proposalID
  leads : S.1.leader → S.2 = false ∧ S.1.quorumSize ≤ S.1.promisesReceived.card

/-- After a call that counts no promise on top of stale ones, each promise held that is not stale
was held before under the same proposal ID, or has just been counted for it. -/
theorem fresh_promise_cases {P : Proposer} {stale : Bool} {call : ProposerCall}
    (hstale : P.staleAfter call stale = false) {u : Str}
    (hu : u ∈ (machine.next P call).promisesReceived) :
    (u ∈ P.promisesReceived ∧ stale = false ∧
      (machine.next P call).proposalID = P.proposalID) ∨
      ∃ p r w, call = .receivePromise u p r w ∧ P.Counts u p ∧
        p = (machine.next P call).proposalID := by
  rcases promisesReceived_next_cases hu with ⟨hmem, hcall, hid⟩ | hcounted
  · rw [staleAfter, if_neg hcall, Bool.or_eq_false_iff] at hstale
    rcases hid with hsame | ⟨id, hobserved, hraises⟩
    · exact Or.inl ⟨hmem, hstale.1, hsame⟩
    · have hnonempty : P.promisesReceived.Nonempty := ⟨u, hmem⟩
      have hraised := hstale.2
      simp [hobserved, hnonempty, hraises] at hraised
  · exact Or.inr hcounted

/-- One call keeps the promises of a leader current and a quorum. -/
theorem BallotInvariant.next {calls : List ProposerCall} {S : Proposer × Bool}
    (h : BallotInvariant calls S) {call : ProposerCall} (hset : call ≠ .setLeader true)
    (hkeeps : S.1.KeepsLeaderID call) (hfresh : CountsFresh S call) :
    BallotInvariant (calls ++ [call]) (trackedMachine.next S call) := by
  simp only [trackedMachine, Machine.withGhost_next]
  refine ⟨fun hstale u hu => ?_, fun hleader => ?_⟩
  · rcases fresh_promise_cases hstale hu with ⟨hmem, hfresh, hid⟩ | ⟨p, r, w, rfl, -, hid⟩
    · rw [hid]
      exact promisers_subset_append _ _ _ (h.held hfresh hmem)
    · rw [← hid]
      exact mem_promisers.mpr ⟨r, w, by simp⟩
  · rw [next_quorumSize]
    rcases leader_next_cases hset hleader with ⟨hbefore, hsub⟩ | ⟨u, p, r, w, rfl, hcounts, hquorum⟩
    · obtain ⟨hstale, hquorum⟩ := h.leads hbefore
      refine ⟨?_, hquorum.trans (Finset.card_le_card hsub)⟩
      have hraises : ¬∃ id ∈ call.observed, S.1.promisesReceived.Nonempty ∧ S.1.Raises id := by
        rintro ⟨id, hid, -, hraises⟩
        exact hkeeps hbefore id hid hraises
      unfold staleAfter
      split
      · rfl
      · rw [hstale, Bool.false_or, Bool.eq_false_iff, ne_eq, Option.any_eq_true]
        simpa using hraises
    · exact ⟨hfresh hcounts, hquorum⟩

/-- **A quorum of promises for that very ID.** It holds in every run in which no observed ID
changes the proposal ID of a leader and no promise is counted on top of promises for an earlier
ID. -/
theorem leader_and_accept_quorumBacked {uid : Str} {quorumSize : ℕ} {active : Bool}
    {calls : List ProposerCall}
    (hrun : trackedMachine.Admits
      (fun S call => call ≠ .setLeader true ∧ S.1.KeepsLeaderID call ∧ CountsFresh S call)
      (new uid quorumSize false active, false) calls) :
    (new uid quorumSize false active).QuorumBacked calls := by
  have hleads : ∀ pre, pre <+: calls →
      (machine.run (new uid quorumSize false active) pre).leader →
      (machine.run (new uid quorumSize false active) pre).quorumSize ≤
        (promisers pre (machine.run (new uid quorumSize false active) pre).proposalID).card := by
    intro pre hpre hleader
    have hinv := (hrun.of_prefix hpre).induction (I := BallotInvariant)
      ⟨fun _ => Finset.empty_subset _, fun h => absurd h (by simp [new])⟩
      fun _ _ hI ⟨hset, hkeeps, hfresh⟩ => hI.next hset hkeeps hfresh
    have hfst : (trackedMachine.run (new uid quorumSize false active, false) pre).1 =
        machine.run (new uid quorumSize false active) pre := Machine.withGhost_run_fst _ _
    rw [← hfst] at hleader ⊢
    obtain ⟨hstale, hquorum⟩ := hinv.leads hleader
    exact hquorum.trans (Finset.card_le_card (hinv.held hstale))
  refine ⟨hleads, ?_⟩
  intro pre call hpre p v hsent
  obtain ⟨hp, -, hleader, -⟩ := of_sendAccept_mem hsent
  have hafter := hleads (pre ++ [call]) hpre (by rwa [Machine.run_concat])
  rw [Machine.run_concat, next_quorumSize] at hafter
  rwa [hp]

/-- A leader sends its value again and hears of the refusal of an earlier ID. -/
theorem leader_and_accept_quorumBacked_electedByTwo :
    (new [97] 2 false true).QuorumBacked
      (electedByTwo ++ [.resendAccept, .receivePrepareNACK [51] ⟨0, [97]⟩ ⟨0, [98]⟩]) :=
  leader_and_accept_quorumBacked (by decide)

/-- A leader at (1, a) gets a NACK with the promised ID (5, b): its ID becomes (5, a), for which
no acceptor has promised anything, and it stays the leader. -/
theorem leader_without_promises_after_nack :
    let calls := electedByTwo ++ [.receivePrepareNACK [51] ⟨1, [97]⟩ ⟨5, [98]⟩]
    (∀ call ∈ calls, call ≠ .setLeader true) ∧
      ¬(new [97] 2 false true).QuorumBacked calls := by
  refine ⟨by decide, fun h => ?_⟩
  have hquorum := h.1 _ List.prefix_rfl (by decide)
  exact absurd hquorum (by decide)

end Proposer

end CppPaxos
