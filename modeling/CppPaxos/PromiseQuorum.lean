import CppPaxos.AcceptorInvariant
import CppPaxos.Library.Voting

/-!
# A majority of promises reveals what may have been chosen

Any number of acceptors run side by side on arbitrary requests. A promise for `p`
shows the accepted pair of the moment it is sent, and no ID below `p` is accepted
after it. An acceptor that held a lower ID at some moment therefore shows that ID
or a later one, and two majorities share an acceptor.
-/

namespace CppPaxos

namespace Acceptor

open Machines MessengerCall

variable {A : Acceptor} {calls : List AcceptorCall}

/-- A promise for `p` reports every lower ID that its sender holds at any moment of the run,
earlier or later than the promise, or something between that ID and `p`. -/
theorem ValidRun.promise_reports (h : A.ValidRun calls) (hA : A.Invariant) {p q r : ProposalID}
    {toUID w : Str} (hqp : q < p) {t : Acceptor} (hvisits : machine.Visits A calls t)
    (hheld : t.acceptedID = q) (hsent : sendPromise toUID p r w ∈ machine.trace A calls) :
    q ≤ r ∧ r ≤ p := by
  obtain ⟨pre, call, hpre, hemits⟩ := Machine.mem_trace_iff.mp hsent
  obtain ⟨hI, hstep⟩ := ValidRun.step h hA hpre
  obtain ⟨-, hp, hr, -, hpromised, haccepted, -⟩ := hstep.of_sendPromise_mem hI hemits
  have hbound : r ≤ p := by
    rw [hp, hr]
    exact (hstep.invariant hI).acceptedID_le
  refine ⟨?_, hbound⟩
  obtain ⟨moment, hmoment, rfl⟩ := hvisits
  have hprefix : pre <+: calls := (List.prefix_append _ _).trans hpre
  rcases List.prefix_or_prefix_of_prefix hmoment hprefix with hbefore | hafter
  · -- the acceptor held `q` before the promise
    have hevolves := ValidRun.evolves (Machine.Admits.of_prefix h hprefix) hA hbefore
    rw [← hheld, hr, haccepted]
    exact hevolves.acceptedID_le
  · -- it held `q` after the promise, so it had accepted `q` already
    have hevolves := ValidRun.evolves (Machine.Admits.of_prefix h hmoment) hA hafter
    rcases hevolves.accepted_eq_or_ge with ⟨hsame, -⟩ | hge
    · rw [← hheld, hsame, hr, haccepted]
    · have hle : p ≤ q := by rw [hp, hpromised, ← hheld]; exact hge
      exact absurd hqp hle.not_gt

/-- Newly constructed acceptors, one for each index. -/
def newFleet {ι : Type*} (uid : ι → Str) (livenessWindow now : ι → UInt64) (active : ι → Bool) :
    ι → Acceptor :=
  fun i => new (uid i) (livenessWindow i) (now i) (active i)

/-- **A quorum of promises reveals whatever may have been chosen.** Let new acceptors handle
any requests with valid IDs, in any interleaving with persistence and activation. If a majority
held the accepted ID `q` at some moment each, and a majority sent a promise for `p` above `q`,
then one of these promises reports an accepted ID from `q` to `p`, as do all the promises for `p`
of its sender. -/
theorem promise_quorum_reveals {ι : Type*} [Fintype ι] [DecidableEq ι] (uid : ι → Str)
    (livenessWindow now : ι → UInt64) (active : ι → Bool) (calls : List (ι × AcceptorCall))
    (hvalid : ∀ call ∈ calls, call.2.ValidID) {p q : ProposalID} (hqp : q < p)
    (holders promisers : Finset ι) (hholders : Fintype.card ι < 2 * holders.card)
    (hpromisers : Fintype.card ι < 2 * promisers.card)
    (hheld : ∀ i ∈ holders, ∃ t, (machine.fleet ι).Visits
      (newFleet uid livenessWindow now active) calls t ∧ (t i).acceptedID = q)
    (hpromised : ∀ i ∈ promisers, ∃ toUID r w, (i, sendPromise toUID p r w) ∈
      (machine.fleet ι).trace (newFleet uid livenessWindow now active) calls) :
    ∃ i ∈ promisers,
      (∃ toUID r w, (i, sendPromise toUID p r w) ∈
        (machine.fleet ι).trace (newFleet uid livenessWindow now active) calls ∧ q ≤ r ∧ r ≤ p) ∧
      ∀ toUID r w, (i, sendPromise toUID p r w) ∈
        (machine.fleet ι).trace (newFleet uid livenessWindow now active) calls →
          q ≤ r ∧ r ≤ p := by
  obtain ⟨i, hi, hi'⟩ := Voting.exists_mem_of_card_lt (S := holders) (T := promisers) (by omega)
  obtain ⟨toUID, r, w, hsent⟩ := hpromised i hi'
  obtain ⟨t, ⟨pre, hpre, rfl⟩, hq⟩ := hheld i hi
  have hown : ∀ call ∈ Machine.actionsOf i calls, call.ValidID :=
    fun call hcall => hvalid (i, call) (Machine.mem_actionsOf.mp hcall)
  have hrun : (newFleet uid livenessWindow now active i).ValidRun (Machine.actionsOf i calls) :=
    Machine.admits_const_iff.mpr hown
  rw [Machine.fleet_run_apply] at hq
  have hreports : ∀ toUID r w, (i, sendPromise toUID p r w) ∈
      (machine.fleet ι).trace (newFleet uid livenessWindow now active) calls → q ≤ r ∧ r ≤ p :=
    fun toUID r w hsent => hrun.promise_reports (invariant_new _ _ _ _) hqp
      ⟨_, Machine.actionsOf_isPrefix i hpre, rfl⟩ hq (Machine.mem_fleet_trace.mp hsent)
  exact ⟨i, hi', ⟨toUID, r, w, hsent, hreports toUID r w hsent⟩, hreports⟩

/-- Five acceptors: the first three accept a value, the last three promise a later ID. -/
def acceptThenPromise : List (Fin 5 × AcceptorCall) :=
  [0, 1, 2].map (·, .receiveAcceptRequest [97] ⟨1, [97]⟩ [120]) ++
    [2, 3, 4].map (·, .receivePrepare 5 [98] ⟨2, [98]⟩) ++ [2, 3, 4].map (·, .persisted)

/-- The third acceptor is in both majorities. -/
theorem promise_quorum_reveals_acceptThenPromise :
    ∃ i ∈ ({2, 3, 4} : Finset (Fin 5)),
      (∃ toUID r w, (i, sendPromise toUID ⟨2, [98]⟩ r w) ∈
        (machine.fleet (Fin 5)).trace (newFleet (fun _ => [97]) (fun _ => 0) (fun _ => 0)
          (fun _ => true)) acceptThenPromise ∧ ⟨1, [97]⟩ ≤ r ∧ r ≤ ⟨2, [98]⟩) ∧
      ∀ toUID r w, (i, sendPromise toUID ⟨2, [98]⟩ r w) ∈
        (machine.fleet (Fin 5)).trace (newFleet (fun _ => [97]) (fun _ => 0) (fun _ => 0)
          (fun _ => true)) acceptThenPromise → ⟨1, [97]⟩ ≤ r ∧ r ≤ ⟨2, [98]⟩ := by
  refine promise_quorum_reveals (fun _ => [97]) (fun _ => 0) (fun _ => 0) (fun _ => true)
    acceptThenPromise (by decide) (by decide) {0, 1, 2} {2, 3, 4} (by decide) (by decide) ?_ ?_
  · intro i hi
    refine ⟨_, ⟨acceptThenPromise, List.prefix_rfl, rfl⟩, ?_⟩
    revert i
    decide
  · intro i hi
    rcases Finset.mem_insert.mp hi with rfl | hi
    · exact ⟨[98], ⟨1, [97]⟩, [120], by decide⟩
    · refine ⟨[98], .empty, [], ?_⟩
      revert i
      decide

end Acceptor

end CppPaxos
