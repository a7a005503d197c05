import CppPaxos.CrashAgreement
import Mathlib.Data.Finset.Lattice.Fold

/-!
# A decision stays possible

Whatever has happened, one proposer and a quorum of acceptors are enough to decide:
the proposer prepares a number above all others, the acceptors promise, persist and
permit, and no other party needs to act. The runs of one proposer and of one acceptor
come first, and are then put together.
-/

namespace CppPaxos

open Machines MessengerCall

namespace Proposer

/-- The call runs into none of the flaws of a proposer. -/
def AvoidsFlaws (T : Proposer × Bool) (call : ProposerCall) : Prop :=
  T.1.NoWrap call ∧ UsesFresh T call ∧ T.1.KeepsValue call

/-- The proposer collects promises for `p`, holds none for another ID, and leads exactly if those
it holds are a quorum. -/
structure Collects (T : Proposer × Bool) (p : ProposalID) : Prop where
  proposalID : T.1.proposalID = p
  active : T.1.active
  leader_iff : T.1.leader ↔ T.1.quorumSize ≤ T.1.promisesReceived.card
  fresh : T.2 = false

/-- One step of the proposer, with what is tracked of it. -/
theorem trackedMachine_next (T : Proposer × Bool) (call : ProposerCall) :
    trackedMachine.next T call = (machine.next T.1 call, T.1.staleAfter call T.2) := rfl

/-- Tracking does not change the run. -/
theorem trackedMachine_run_fst (T : Proposer × Bool) (calls : List ProposerCall) :
    (trackedMachine.run T calls).1 = machine.run T.1 calls :=
  Machine.withGhost_run_fst T calls

/-- The quorum size stays. -/
theorem trackedMachine_run_quorumSize (T : Proposer × Bool) (calls : List ProposerCall) :
    (trackedMachine.run T calls).1.quorumSize = T.1.quorumSize := by
  induction calls generalizing T with
  | nil => rfl
  | cons call calls ih => rw [Machine.run_cons, ih, trackedMachine_next, next_quorumSize]

/-! ### Preparing -/

/-- Below the largest number, `prepare` raises the number by one. -/
theorem number_prepare {T : Proposer × Bool}
    (hroom : T.1.proposalID.number.toNat + 1 < UInt32.size) :
    AvoidsFlaws T (.prepare true) ∧
      (trackedMachine.next T (.prepare true)).1.proposalID.number.toNat =
        T.1.proposalID.number.toNat + 1 := by
  refine ⟨⟨fun _ hmax => ?_, trivial, trivial⟩, ?_⟩
  · rw [hmax] at hroom
    simp [UInt32.size] at hroom
  · rw [trackedMachine_next]
    simp only [Machine.next, machine, prepare, if_true, ProposalID.incrementNumber,
      UInt32.toNat_add, UInt32.toNat_one]
    simp only [UInt32.size] at hroom
    omega

/-- After `prepare` no promise is held, and the request with the new ID has been sent. -/
theorem collects_prepare {T : Proposer × Bool} (hquorum : 0 < T.1.quorumSize) :
    Collects (trackedMachine.next T (.prepare true))
        (trackedMachine.next T (.prepare true)).1.proposalID ∧
      (trackedMachine.next T (.prepare true)).1.promisesReceived = ∅ ∧
      sendPrepare (trackedMachine.next T (.prepare true)).1.proposalID ∈
        machine.emits T.1 (.prepare true) := by
  rw [trackedMachine_next]
  refine ⟨⟨rfl, rfl, ?_, by simp [staleAfter]⟩, rfl, ?_⟩
  · simp [Machine.next, machine, prepare, hquorum.ne']
  · simp [Machine.emits, Machine.next, machine, prepare]

/-- `n` calls of `prepare` raise the number by `n`, as far as there is room. -/
theorem number_run_prepares {T : Proposer × Bool} {n : ℕ}
    (hroom : T.1.proposalID.number.toNat + n < UInt32.size) :
    trackedMachine.Admits AvoidsFlaws T (List.replicate n (.prepare true)) ∧
      (trackedMachine.run T (List.replicate n (.prepare true))).1.proposalID.number.toNat =
        T.1.proposalID.number.toNat + n := by
  induction n with
  | zero => exact ⟨trivial, rfl⟩
  | succ n ih =>
    obtain ⟨hadmits, hnumber⟩ := ih (by omega)
    obtain ⟨havoids, hone⟩ := number_prepare (T := trackedMachine.run T
      (List.replicate n (.prepare true))) (by omega)
    rw [List.replicate_succ', Machine.admits_concat, Machine.run_concat, hone, hnumber]
    exact ⟨⟨hadmits, havoids⟩, by omega⟩

/-- A proposer that has room prepares a fresh ID with the number `N + 1`. -/
theorem run_prepares {T : Proposer × Bool} {N : ℕ} (hquorum : 0 < T.1.quorumSize)
    (hbelow : T.1.proposalID.number.toNat ≤ N) (hroom : N + 1 < UInt32.size) :
    ∃ n, trackedMachine.Admits AvoidsFlaws T (List.replicate n (.prepare true)) ∧
      ∃ p, p.number.toNat = N + 1 ∧
        Collects (trackedMachine.run T (List.replicate n (.prepare true))) p ∧
        (trackedMachine.run T (List.replicate n (.prepare true))).1.promisesReceived = ∅ ∧
        sendPrepare p ∈ machine.trace T.1 (List.replicate n (.prepare true)) := by
  obtain ⟨n, rfl⟩ := Nat.exists_eq_add_of_le hbelow
  obtain ⟨hadmits, hnumber⟩ := number_run_prepares (T := T) (n := n) (by omega)
  obtain ⟨havoids, hlast⟩ := number_prepare
    (T := trackedMachine.run T (List.replicate n (.prepare true))) (by omega)
  have hsize : 0 < (trackedMachine.run T (List.replicate n (.prepare true))).1.quorumSize := by
    rwa [trackedMachine_run_quorumSize]
  obtain ⟨hcollects, hnone, hsent⟩ := collects_prepare hsize
  rw [← hnumber] at hroom ⊢
  refine ⟨n + 1, ?_, _, hlast, ?_⟩
  · rw [List.replicate_succ', Machine.admits_concat]
    exact ⟨hadmits, havoids⟩
  · rw [List.replicate_succ', Machine.run_concat, Machine.trace_concat]
    refine ⟨hcollects, hnone, List.mem_append_right _ ?_⟩
    rwa [← trackedMachine_run_fst]

/-! ### Collecting promises and proposing -/

variable {T : Proposer × Bool} {p : ProposalID}

/-- One more promise for `p`, as long as the quorum is not exceeded. -/
theorem Collects.promise (h : Collects T p) {u : Str} (hnew : u ∉ T.1.promisesReceived)
    (hshort : T.1.promisesReceived.card < T.1.quorumSize) (r : ProposalID) (w : Str) :
    AvoidsFlaws T (.receivePromise u p r w) ∧
      Collects (trackedMachine.next T (.receivePromise u p r w)) p ∧
      (trackedMachine.next T (.receivePromise u p r w)).1.promisesReceived =
        insert u T.1.promisesReceived := by
  have hsame : T.1.observeProposal u p = T.1 := by
    apply observeProposal_of_not_raises
    rintro ⟨hlt, -⟩
    rw [h.proposalID] at hlt
    exact lt_irrefl p hlt
  have hcounts : T.1.Counts u p := ⟨by rw [hsame, h.proposalID], hnew⟩
  have hfresh : T.1.staleAfter (.receivePromise u p r w) T.2 = false := by
    simp [staleAfter, h.fresh, ProposerCall.observed, Raises, h.proposalID]
  have hnext : (trackedMachine.next T (.receivePromise u p r w)).1 =
      { T.1.countPromise u r w with
        leader := T.1.leader ||
          decide (T.1.quorumSize ≤ (insert u T.1.promisesReceived).card) } := by
    rw [trackedMachine_next, next_receivePromise_of_counts hcounts, hsame]
  have hfollower : ¬T.1.leader := by
    rw [h.leader_iff]
    omega
  refine ⟨⟨fun hcall => by simp at hcall, fun _ => hfresh, fun hleader => absurd hleader hfollower⟩,
    ⟨?_, ?_, ?_, hfresh⟩, ?_⟩
  · simp [hnext, h.proposalID]
  · simp [hnext, h.active]
  · simp [hnext, hfollower]
  · simp [hnext]

/-- The promises of distinct acceptors, as many as are missing to a quorum. -/
theorem Collects.run_promises (h : Collects T p) (promises : List (Str × ProposalID × Str))
    (hnew : ∀ x ∈ promises, x.1 ∉ T.1.promisesReceived) (hnodup : (promises.map Prod.fst).Nodup)
    (hcard : T.1.promisesReceived.card + promises.length ≤ T.1.quorumSize) :
    let calls := promises.map fun x => ProposerCall.receivePromise x.1 p x.2.1 x.2.2
    trackedMachine.Admits AvoidsFlaws T calls ∧ Collects (trackedMachine.run T calls) p ∧
      (trackedMachine.run T calls).1.quorumSize = T.1.quorumSize ∧
      (trackedMachine.run T calls).1.promisesReceived.card =
        T.1.promisesReceived.card + promises.length := by
  induction promises generalizing T with
  | nil => exact ⟨trivial, h, rfl, rfl⟩
  | cons x promises ih =>
    obtain ⟨hx, hnew⟩ := List.forall_mem_cons.mp hnew
    obtain ⟨hxs, hnodup⟩ := List.nodup_cons.mp hnodup
    rw [List.length_cons] at hcard
    obtain ⟨havoids, hcollects, hinsert⟩ := h.promise hx (by omega) x.2.1 x.2.2
    have hsize : (trackedMachine.next T (.receivePromise x.1 p x.2.1 x.2.2)).1.quorumSize =
        T.1.quorumSize := next_quorumSize _ _
    have hone : (trackedMachine.next T (.receivePromise x.1 p x.2.1
        x.2.2)).1.promisesReceived.card = T.1.promisesReceived.card + 1 := by
      rw [hinsert, Finset.card_insert_of_notMem hx]
    obtain ⟨hadmits, hcollects', hsize', hcard'⟩ := ih hcollects
      (fun y hy => by
        rw [hinsert, Finset.mem_insert, not_or]
        exact ⟨fun heq => hxs (heq ▸ List.mem_map_of_mem hy), hnew y hy⟩)
      hnodup (by omega)
    refine ⟨⟨havoids, hadmits⟩, hcollects', hsize'.trans hsize, ?_⟩
    rw [List.length_cons]
    exact hcard'.trans (by omega)

/-- A leader that is given a value sends an accept request for the value it has then. -/
theorem Collects.offers (h : Collects T p)
    (hquorum : T.1.quorumSize ≤ T.1.promisesReceived.card) (value : Str) :
    trackedMachine.Admits AvoidsFlaws T [.setProposal value, .resendAccept] ∧
      ∃ v, sendAccept p v ∈ machine.trace T.1 [.setProposal value, .resendAccept] := by
  have hleader := h.leader_iff.mpr hquorum
  by_cases hnothing : T.1.proposedValue = []
  · refine ⟨⟨⟨fun hcall => by simp at hcall, fun _ _ => h.fresh, trivial⟩,
      ⟨fun hcall => by simp at hcall, fun _ _ => ?_, trivial⟩, trivial⟩, value, ?_⟩
    · simp [trackedMachine_next, staleAfter, ProposerCall.observed, h.fresh]
    · simp [Machine.emits, machine, setProposal, hnothing, hleader, h.active, h.proposalID]
  · refine ⟨⟨⟨fun hcall => by simp at hcall, fun _ _ => h.fresh, trivial⟩,
      ⟨fun hcall => by simp at hcall, fun _ _ => ?_, trivial⟩, trivial⟩, T.1.proposedValue, ?_⟩
    · simp [trackedMachine_next, staleAfter, ProposerCall.observed, h.fresh]
    · simp [Machine.emits, Machine.next, machine, setProposal, resendAccept, hnothing, hleader,
        h.active, h.proposalID]

end Proposer

namespace Acceptor

/-- The acceptor is active and no answer waits for persistence. -/
structure Settled (A : Acceptor) : Prop where
  active : A.active
  pendingPromiseUID : A.pendingPromiseUID = []
  pendingAcceptUID : A.pendingAcceptUID = []

end Acceptor

namespace Host

/-- Persisting settles an acceptor and leaves its IDs as they are. -/
theorem run_settle (H : Host) :
    machine.Admits AnswersFromDisk H [.call (.setActive true), .call .persisted] ∧
      (machine.run H [.call (.setActive true), .call .persisted]).acceptor.Settled ∧
      (machine.run H [.call (.setActive true), .call .persisted]).acceptor.promisedID =
        H.acceptor.promisedID := by
  refine ⟨⟨trivial, trivial, trivial⟩, ?_⟩
  have hone : machine.next H (.call (.setActive true)) =
      { H with acceptor := H.acceptor.setActive true } := rfl
  rw [Machine.run_cons, Machine.run_cons, Machine.run_nil, hone]
  by_cases hpending : (H.acceptor.setActive true).persistenceRequired
  · simp only [Machine.next, machine, hpending, not_true_eq_false, and_false, if_false, if_true]
    exact ⟨⟨rfl, rfl, rfl⟩, rfl⟩
  · simp only [Machine.next, machine, hpending]
    simp only [Acceptor.persistenceRequired, Acceptor.setActive, Bool.or_eq_true,
      Bool.not_eq_true', not_or, Bool.not_eq_false, List.isEmpty_iff] at hpending
    exact ⟨⟨rfl, hpending.2, hpending.1⟩, rfl⟩

variable {H : Host}

/-- A call of `persisted` while an answer waits. -/
theorem step_persisted (hpending : H.acceptor.persistenceRequired) :
    machine.step H (.call .persisted) =
      (⟨H.acceptor.persisted.1, H.acceptor.durableCopy⟩, H.acceptor.persisted.2) := by
  simp only [machine, hpending, not_true_eq_false, and_false, if_false, if_true]
  rfl

/-- A settled acceptor that gets a prepare request above its promise, and persists it, sends a
promise to the proposer. -/
theorem run_promise (hsettled : H.acceptor.Settled) (hI : H.acceptor.Invariant) {u : Str}
    (hu : u ≠ []) {p : ProposalID} (hlt : H.acceptor.promisedID < p) :
    let acts : List HostAction := [.call (.receivePrepare 0 u p), .call .persisted]
    machine.Admits AnswersFromDisk H acts ∧ (machine.run H acts).acceptor.Settled ∧
      (machine.run H acts).acceptor.promisedID = p ∧
      (machine.run H acts).acceptor.acceptedID < p ∧
      sendPromise u p H.acceptor.acceptedID H.acceptor.acceptedValue ∈ machine.trace H acts := by
  have hprepare : machine.next H (.call (.receivePrepare 0 u p)) =
      { H with acceptor := { H.acceptor with
          lastPrepareTimestamp := 0, promisedID := p, pendingPromiseUID := u } } := by
    simp [Machine.next, machine, Acceptor.machine, Acceptor.receivePrepare, hlt, hlt.ne',
      hsettled.active, hsettled.pendingPromiseUID]
  have hpersisted := step_persisted
    (H := machine.next H (.call (.receivePrepare 0 u p))) (by
      rw [hprepare]
      simp [Acceptor.persistenceRequired, hu])
  intro acts
  refine ⟨⟨fun _ hdup => absurd hdup.2 hlt.ne', trivial, trivial⟩, ?_⟩
  simp only [acts, Machine.run_cons, Machine.run_nil, Machine.trace_cons, Machine.trace_nil,
    Machine.next, Machine.emits] at hprepare hpersisted ⊢
  rw [hpersisted, hprepare]
  refine ⟨⟨hsettled.active, rfl, rfl⟩, rfl, hI.acceptedID_le.trans_lt hlt, ?_⟩
  simp [Acceptor.persisted, hsettled.active, hu]

/-- A settled acceptor that gets an accept request with the ID it has promised, above its accepted
ID, and persists it, sends a permit to the proposer. -/
theorem run_permit (hsettled : H.acceptor.Settled) {u : Str} (hu : u ≠ []) {p : ProposalID}
    (v : Str) (hp : H.acceptor.promisedID = p) (hlt : H.acceptor.acceptedID < p) :
    let acts : List HostAction := [.call (.receiveAcceptRequest u p v), .call .persisted]
    machine.Admits AnswersFromDisk H acts ∧ sendPermit u p v ∈ machine.trace H acts := by
  have haccept : machine.next H (.call (.receiveAcceptRequest u p v)) =
      { H with acceptor := { H.acceptor with
          promisedID := p, acceptedID := p, acceptedValue := v, pendingAcceptUID := u } } := by
    simp [Machine.next, machine, Acceptor.machine, Acceptor.receiveAcceptRequest, hlt.ne', hp,
      hsettled.active, hsettled.pendingAcceptUID]
  have hpersisted := step_persisted
    (H := machine.next H (.call (.receiveAcceptRequest u p v))) (by
      rw [haccept]
      simp [Acceptor.persistenceRequired, hu])
  intro acts
  refine ⟨⟨fun _ hdup => absurd hdup.2.1 hlt.ne', trivial, trivial⟩, ?_⟩
  simp only [acts, Machine.trace_cons, Machine.trace_nil, Machine.next, Machine.emits]
    at haccept hpersisted ⊢
  rw [hpersisted, haccept]
  simp [Acceptor.persisted, hsettled.active, hu]

end Host

/-! ### The cluster -/

/-- The action is one of proposer `k` or of an acceptor of `Q`. -/
def DurableAction.By {κ ι ν : Type*} (k : κ) (Q : Finset ι) : DurableAction κ ι ν → Prop
  | .proposer j _ => j = k
  | .host i _ => i ∈ Q
  | .learner _ _ => False

/-- The largest number in use leaves room if each of the numbers does. -/
theorem exists_number_bound {ι : Type*} {Q : Finset ι} {n : ℕ} {numbers : ι → ℕ}
    (hn : n + 1 < UInt32.size) (hnumbers : ∀ i ∈ Q, numbers i + 1 < UInt32.size) :
    ∃ N, N + 1 < UInt32.size ∧ n ≤ N ∧ ∀ i ∈ Q, numbers i ≤ N := by
  refine ⟨max n (Q.sup numbers), ?_, le_max_left _ _,
    fun i hi => (Finset.le_sup hi).trans (le_max_right _ _)⟩
  have hsup : Q.sup numbers < UInt32.size - 1 := by
    rw [Finset.sup_lt_iff (by simp [UInt32.size])]
    intro i hi
    have hlt := hnumbers i hi
    omega
  omega

namespace DurableCluster

variable {κ ι ν : Type*} [DecidableEq κ] [DecidableEq ι] [DecidableEq ν]

/-- The cluster after proposer `k` has taken the calls. -/
def afterProposer (C : DurableCluster κ ι ν) (k : κ) (calls : List ProposerCall) :
    DurableCluster κ ι ν :=
  { C with
    proposers := Function.update C.proposers k (Proposer.machine.run (C.proposers k) calls)
    requests := Function.update C.requests k
      (C.requests k ++ Proposer.machine.trace (C.proposers k) calls) }

/-- The cluster after acceptor `i` has taken the actions. -/
def afterHost (C : DurableCluster κ ι ν) (i : ι) (acts : List HostAction) :
    DurableCluster κ ι ν :=
  { C with
    hosts := Function.update C.hosts i (Host.machine.run (C.hosts i) acts)
    answers := Function.update C.answers i
      (C.answers i ++ Host.machine.trace (C.hosts i) acts) }

/-- One more call of the proposer. -/
theorem next_afterProposer (C : DurableCluster κ ι ν) (k : κ) (calls : List ProposerCall)
    (call : ProposerCall) :
    machine.next (C.afterProposer k calls) (.proposer k call) =
      C.afterProposer k (calls ++ [call]) := by
  simp [next_proposer, afterProposer]

/-- One more action of the host. -/
theorem next_afterHost (C : DurableCluster κ ι ν) (i : ι) (acts : List HostAction)
    (act : HostAction) :
    machine.next (C.afterHost i acts) (.host i act) = C.afterHost i (acts ++ [act]) := by
  simp [next_host, afterHost]

end DurableCluster

section Cluster

variable {κ ι ν : Type*} [Fintype ι] [DecidableEq κ] [DecidableEq ι] [DecidableEq ν]
  {S : Setup κ ι} {k : κ} {Q : Finset ι} {C : DurableCluster κ ι ν} {stale : κ → Bool}

/-- What may happen while only proposer `k` and the acceptors of `Q` act. -/
def Setup.EnabledBy (S : Setup κ ι) (k : κ) (Q : Finset ι) (X : DurableCluster κ ι ν × (κ → Bool))
    (act : DurableAction κ ι ν) : Prop :=
  (S.DurableEnabled X.1 act ∧ DurableCluster.AvoidsFlaws X act) ∧ act.By k Q

/-- A run of one proposer is a run of the cluster. -/
theorem Setup.reaches_afterProposer {calls : List ProposerCall}
    (havoids : Proposer.trackedMachine.Admits Proposer.AvoidsFlaws (C.proposers k, stale k) calls)
    (henabled : ∀ call ∈ calls, S.DurableProposerEnabled C k call) :
    DurableCluster.trackedMachine.Reaches (S.EnabledBy k Q) (C, stale)
      (C.afterProposer k calls, Function.update stale k
        (Proposer.trackedMachine.run (C.proposers k, stale k) calls).2) := by
  have hrun := havoids.and (Machine.admits_const_iff.mpr henabled)
  refine hrun.induction (I := fun pre T => DurableCluster.trackedMachine.Reaches (S.EnabledBy k Q)
    (C, stale) (C.afterProposer k pre, Function.update stale k T.2)) ?_ ?_
  · simp [DurableCluster.afterProposer, Machine.Reaches.refl]
  · intro pre call hreaches ⟨havoids, henabled⟩
    have hself : (C.afterProposer k pre).proposers k =
        (Proposer.trackedMachine.run (C.proposers k, stale k) pre).1 := by
      simp [DurableCluster.afterProposer, Proposer.trackedMachine]
    have hstep := hreaches.next (a := .proposer k call) ⟨⟨by cases call <;> exact henabled, by
      simpa [DurableCluster.AvoidsFlaws, Proposer.AvoidsFlaws, hself] using havoids⟩, rfl⟩
    rw [DurableCluster.trackedMachine_next, DurableCluster.next_afterProposer] at hstep
    simpa [DurableCluster.staleAfter, hself, Proposer.trackedMachine_next] using hstep

/-- A run of one acceptor is a run of the cluster. -/
theorem Setup.reaches_afterHost {i : ι} (hi : i ∈ Q) {acts : List HostAction}
    (hdisk : Host.machine.Admits Host.AnswersFromDisk (C.hosts i) acts)
    (henabled : ∀ act ∈ acts, S.HostEnabled C act) :
    DurableCluster.trackedMachine.Reaches (S.EnabledBy k Q) (C, stale)
      (C.afterHost i acts, stale) := by
  have hrun := hdisk.and (Machine.admits_const_iff.mpr henabled)
  refine hrun.induction (I := fun pre _ => DurableCluster.trackedMachine.Reaches (S.EnabledBy k Q)
    (C, stale) (C.afterHost i pre, stale)) ?_ ?_
  · simp [DurableCluster.afterHost, Machine.Reaches.refl]
  · intro pre act hreaches ⟨hdisk, henabled⟩
    have hself : (C.afterHost i pre).hosts i = Host.machine.run (C.hosts i) pre := by
      simp [DurableCluster.afterHost]
    have hstep := hreaches.next (a := .host i act) ⟨⟨henabled.of_eq rfl, by
      simpa [DurableCluster.AvoidsFlaws, hself] using hdisk⟩, hi⟩
    rwa [DurableCluster.trackedMachine_next, DurableCluster.next_afterHost] at hstep

/-- The facts hold of whatever can be reached. -/
theorem DurableFacts.of_reaches {R : Voting.Record ι ProposalID Str}
    {X Y : DurableCluster κ ι ν × (κ → Bool)} (h : DurableFacts S R X)
    (hreaches : DurableCluster.trackedMachine.Reaches (S.EnabledBy k Q) X Y) :
    ∃ R', DurableFacts S R' Y :=
  hreaches.invariant (I := fun Y => ∃ R', DurableFacts S R' Y) ⟨R, h⟩
    fun _ _ ⟨_, h⟩ ⟨⟨henabled, havoids⟩, _⟩ => h.next henabled havoids

/-- What each acceptor of `Q` can do by itself, they can all do, one after the other. -/
theorem Setup.reaches_hosts (todo : Host → Prop) (done : Host → List MessengerCall → Prop)
    {R : Voting.Record ι ProposalID Str} (h : DurableFacts S R (C, stale))
    (htodo : ∀ i ∈ Q, todo (C.hosts i))
    (hdo : ∀ H, H.Invariant → todo H → ∃ acts, Host.machine.Admits Host.AnswersFromDisk H acts ∧
      (∀ act ∈ acts, S.HostEnabled C act) ∧
      ∀ answers, done (Host.machine.run H acts) (answers ++ Host.machine.trace H acts)) :
    ∃ C', DurableCluster.trackedMachine.Reaches (S.EnabledBy k Q) (C, stale) (C', stale) ∧
      C'.proposers = C.proposers ∧ C'.requests = C.requests ∧
      ∀ i ∈ Q, done (C'.hosts i) (C'.answers i) := by
  let I : DurableCluster κ ι ν × (κ → Bool) → Prop := fun X => (∃ R, DurableFacts S R X) ∧
    X.1.proposers = C.proposers ∧ X.1.requests = C.requests ∧ X.2 = stale
  have hone : ∀ i ∈ Q, ∀ X, I X → todo (X.1.hosts i) →
      ∃ Y, DurableCluster.trackedMachine.Reaches (S.EnabledBy k Q) X Y ∧ I Y ∧
        done (Y.1.hosts i) (Y.1.answers i) ∧ ∀ j, j ≠ i →
          (todo (X.1.hosts j) → todo (Y.1.hosts j)) ∧
          (done (X.1.hosts j) (X.1.answers j) → done (Y.1.hosts j) (Y.1.answers j)) := by
    rintro i hi ⟨C', stale'⟩ ⟨⟨R', h'⟩, hproposers, hrequests, rfl⟩ hstart
    obtain ⟨acts, hdisk, henabled, hends⟩ := hdo _ (h'.host i).invariant hstart
    have hreaches : DurableCluster.trackedMachine.Reaches (S.EnabledBy k Q) (C', stale')
        (C'.afterHost i acts, stale') := by
      exact Setup.reaches_afterHost hi hdisk fun act hact => (henabled act hact).of_eq hrequests
    refine ⟨_, hreaches, ⟨h'.of_reaches hreaches, hproposers, hrequests, rfl⟩, ?_,
      fun j hj => ?_⟩
    · simpa [DurableCluster.afterHost] using hends (C'.answers i)
    · simp [DurableCluster.afterHost, Function.update_of_ne hj]
  obtain ⟨⟨C', stale'⟩, hreaches, ⟨-, hproposers, hrequests, rfl⟩, hdone⟩ :=
    Machine.Reaches.forall_mem I (fun i X => todo (X.1.hosts i))
      (fun i X => done (X.1.hosts i) (X.1.answers i)) (s := (C, stale)) ⟨⟨R, h⟩, rfl, rfl, rfl⟩
      htodo hone
  exact ⟨C', hreaches, hproposers, hrequests, hdone⟩

/-- The acceptors of `Q` settle, and their promised IDs stay below a number. -/
theorem Setup.reaches_settled {R : Voting.Record ι ProposalID Str}
    (h : DurableFacts S R (C, stale)) {N : ℕ}
    (hbelow : ∀ i ∈ Q, (C.hosts i).acceptor.promisedID.number.toNat ≤ N) :
    ∃ C', DurableCluster.trackedMachine.Reaches (S.EnabledBy k Q) (C, stale) (C', stale) ∧
      C'.proposers = C.proposers ∧ C'.requests = C.requests ∧
      ∀ i ∈ Q, (C'.hosts i).acceptor.Settled ∧
        (C'.hosts i).acceptor.promisedID.number.toNat ≤ N := by
  refine reaches_hosts (fun H => H.acceptor.promisedID.number.toNat ≤ N)
    (fun H _ => H.acceptor.Settled ∧ H.acceptor.promisedID.number.toNat ≤ N) h hbelow
    fun H _ hH => ?_
  obtain ⟨hdisk, hsettled, hid⟩ := H.run_settle
  refine ⟨_, hdisk, by simp [HostEnabled], fun _ => ⟨hsettled, ?_⟩⟩
  rw [hid]
  exact hH

/-- A proposer that has room prepares an ID with the number `N + 1`. -/
theorem Setup.reaches_prepared {R : Voting.Record ι ProposalID Str}
    (h : DurableFacts S R (C, stale)) {N : ℕ}
    (hbelow : (C.proposers k).proposalID.number.toNat ≤ N) (hroom : N + 1 < UInt32.size) :
    ∃ C' p, DurableCluster.trackedMachine.Reaches (S.EnabledBy k Q) (C, stale)
        (C', Function.update stale k false) ∧ C'.hosts = C.hosts ∧ C'.answers = C.answers ∧
      p.number.toNat = N + 1 ∧ Proposer.Collects (C'.proposers k, false) p ∧
      (C'.proposers k).promisesReceived = ∅ ∧
      (C'.proposers k).quorumSize = S.quorumSize ∧ sendPrepare p ∈ C'.requests k := by
  have hsize : (C.proposers k).quorumSize = S.quorumSize := (h.proposer k).quorumSize
  obtain ⟨n, hadmits, p, hnumber, hcollects, hnone, hsent⟩ :=
    Proposer.run_prepares (T := (C.proposers k, stale k)) (hsize ▸ S.quorumSize_pos) hbelow hroom
  have hreaches := reaches_afterProposer (S := S) (Q := Q) hadmits fun call hcall => by
    rw [List.eq_of_mem_replicate hcall]
    trivial
  rw [hcollects.fresh] at hreaches
  have hself : (C.afterProposer k (List.replicate n (.prepare true))).proposers k =
      (Proposer.trackedMachine.run (C.proposers k, stale k)
        (List.replicate n (.prepare true))).1 := by
    simp [DurableCluster.afterProposer, Proposer.trackedMachine_run_fst]
  have hpair : ((C.afterProposer k (List.replicate n (.prepare true))).proposers k, false) =
      Proposer.trackedMachine.run (C.proposers k, stale k) (List.replicate n (.prepare true)) :=
    Prod.ext hself hcollects.fresh.symm
  obtain ⟨R', h'⟩ := h.of_reaches hreaches
  refine ⟨_, p, hreaches, rfl, rfl, hnumber, ?_, ?_, (h'.proposer k).quorumSize, ?_⟩
  · rw [hpair]
    exact hcollects
  · rw [hself]
    exact hnone
  · simp [DurableCluster.afterProposer, hsent]

/-- Settled acceptors all promise an ID above their promises. -/
theorem Setup.reaches_promised {R : Voting.Record ι ProposalID Str}
    (h : DurableFacts S R (C, stale)) {p : ProposalID} (hsent : sendPrepare p ∈ C.requests k)
    (hsettled : ∀ i ∈ Q, (C.hosts i).acceptor.Settled ∧ (C.hosts i).acceptor.promisedID < p) :
    ∃ C', DurableCluster.trackedMachine.Reaches (S.EnabledBy k Q) (C, stale) (C', stale) ∧
      C'.proposers = C.proposers ∧ C'.requests = C.requests ∧
      ∀ i ∈ Q, ((C'.hosts i).acceptor.Settled ∧ (C'.hosts i).acceptor.promisedID = p ∧
        (C'.hosts i).acceptor.acceptedID < p) ∧
        ∃ r w, sendPromise (S.proposerUID k) p r w ∈ C'.answers i := by
  refine reaches_hosts (fun H => H.acceptor.Settled ∧ H.acceptor.promisedID < p)
    (fun H answers => (H.acceptor.Settled ∧ H.acceptor.promisedID = p ∧ H.acceptor.acceptedID < p) ∧
      ∃ r w, sendPromise (S.proposerUID k) p r w ∈ answers) h hsettled
    fun H hI ⟨hsettled, hlt⟩ => ?_
  obtain ⟨hdisk, hsettled', hpromised, haccepted, hmem⟩ :=
    Host.run_promise hsettled hI.acceptor (S.proposerUID_ne_nil k) hlt
  refine ⟨_, hdisk, ?_, fun answers => ⟨⟨hsettled', hpromised, haccepted⟩, _, _,
    List.mem_append_right _ hmem⟩⟩
  simp only [List.forall_mem_cons, HostEnabled, List.not_mem_nil, false_implies, implies_true,
    and_true]
  exact ⟨k, rfl, hsent⟩

/-- A proposer that holds no promises yet gets those of a quorum and sends an accept request. -/
theorem Setup.reaches_offered {p : ProposalID} (stale : κ → Bool)
    (hcollects : Proposer.Collects (C.proposers k, stale k) p)
    (hnone : (C.proposers k).promisesReceived = ∅) (hsize : (C.proposers k).quorumSize = Q.card)
    (hpromised : ∀ i ∈ Q, ∃ r w, sendPromise (S.proposerUID k) p r w ∈ C.answers i) :
    ∃ C' stale' v, DurableCluster.trackedMachine.Reaches (S.EnabledBy k Q) (C, stale) (C', stale') ∧
      C'.hosts = C.hosts ∧ sendAccept p v ∈ C'.requests k := by
  have hnonempty : Nonempty ProposalID := ⟨.empty⟩
  choose! r w hsent using hpromised
  let promises := Q.toList.map fun i => (S.acceptorUID i, r i, w i)
  let calls := promises.map fun x => ProposerCall.receivePromise x.1 p x.2.1 x.2.2
  have hnodup : (promises.map Prod.fst).Nodup := by
    rw [List.map_map]
    exact Q.nodup_toList.map S.acceptorUID_injective
  have hlength : promises.length = Q.card := by simp [promises]
  obtain ⟨hadmits, hcollects', hsize', hcard⟩ := hcollects.run_promises promises
    (by simp [hnone]) hnodup (by simp [hnone, hlength, hsize])
  obtain ⟨hoffers, v, hoffered⟩ := hcollects'.offers (by
    rw [hsize', hcard, hlength]
    simp [hsize]) [0]
  have hall := Machine.admits_append _ |>.mpr ⟨hadmits, hoffers⟩
  have hreaches := reaches_afterProposer (S := S) (Q := Q) hall fun call hcall => by
    rcases List.mem_append.mp hcall with hpromise | hlast
    · obtain ⟨x, hx, rfl⟩ := List.mem_map.mp hpromise
      obtain ⟨i, hi, rfl⟩ := List.mem_map.mp hx
      exact ⟨i, rfl, hsent i (Finset.mem_toList.mp hi)⟩
    · rcases List.mem_pair.mp hlast with rfl | rfl
      · exact List.cons_ne_nil _ _
      · trivial
  refine ⟨_, _, v, hreaches, rfl, ?_⟩
  simp only [DurableCluster.afterProposer, Function.update_self, Machine.trace_append]
  rw [← Proposer.trackedMachine_run_fst (C.proposers k, stale k)]
  exact List.mem_append_right _ (List.mem_append_right _ hoffered)

/-- Acceptors that have promised an ID all permit an accept request with it. -/
theorem Setup.reaches_permitted {R : Voting.Record ι ProposalID Str}
    (h : DurableFacts S R (C, stale)) {p : ProposalID} {v : Str}
    (hsent : sendAccept p v ∈ C.requests k)
    (hpromised : ∀ i ∈ Q, (C.hosts i).acceptor.Settled ∧ (C.hosts i).acceptor.promisedID = p ∧
      (C.hosts i).acceptor.acceptedID < p) :
    ∃ C', DurableCluster.trackedMachine.Reaches (S.EnabledBy k Q) (C, stale) (C', stale) ∧
      ∀ i ∈ Q, C'.Permitted i p v := by
  obtain ⟨C', hreaches, -, -, hpermitted⟩ := reaches_hosts
    (fun H => H.acceptor.Settled ∧ H.acceptor.promisedID = p ∧ H.acceptor.acceptedID < p)
    (fun _ answers => ∃ toUID, sendPermit toUID p v ∈ answers) h hpromised
    fun H _ ⟨hsettled, hp, hlt⟩ => by
      obtain ⟨hdisk, hmem⟩ := Host.run_permit hsettled (S.proposerUID_ne_nil k) v hp hlt
      refine ⟨_, hdisk, ?_, fun answers => ⟨_, List.mem_append_right _ hmem⟩⟩
      simp only [List.forall_mem_cons, HostEnabled, List.not_mem_nil, false_implies, implies_true,
        and_true]
      exact ⟨k, rfl, hsent⟩
  exact ⟨C', hreaches, hpermitted⟩

/-- A quorum of acceptors and a proposer with room below the largest number reach a decision. -/
theorem Setup.reaches_decided {R : Voting.Record ι ProposalID Str}
    (h : DurableFacts S R (C, stale)) (hQ : Q.card = S.quorumSize) {N : ℕ}
    (hroom : N + 1 < UInt32.size) (hbelow : (C.proposers k).proposalID.number.toNat ≤ N)
    (hbelow' : ∀ i ∈ Q, (C.hosts i).acceptor.promisedID.number.toNat ≤ N) :
    ∃ Y, DurableCluster.trackedMachine.Reaches (S.EnabledBy k Q) (C, stale) Y ∧
      ∃ p v, S.Decided Y.1 p v := by
  obtain ⟨C₁, hreaches₁, hproposers₁, -, hsettled⟩ := reaches_settled h hbelow'
  obtain ⟨R₁, h₁⟩ := h.of_reaches hreaches₁
  rw [← hproposers₁] at hbelow
  obtain ⟨C₂, p, hreaches₂, hhosts₂, -, hnumber, hcollects, hnone, hsize, hprepare⟩ :=
    reaches_prepared h₁ hbelow hroom
  obtain ⟨R₂, h₂⟩ := h₁.of_reaches hreaches₂
  have hlt : ∀ i ∈ Q, (C₂.hosts i).acceptor.Settled ∧ (C₂.hosts i).acceptor.promisedID < p := by
    intro i hi
    rw [hhosts₂]
    obtain ⟨hsettled, hle⟩ := hsettled i hi
    exact ⟨hsettled, ProposalID.lt_iff.mpr (Or.inl (by omega))⟩
  obtain ⟨C₃, hreaches₃, hproposers₃, -, hpromised⟩ := reaches_promised h₂ hprepare hlt
  obtain ⟨C₄, stale₄, v, hreaches₄, hhosts₄, haccept⟩ := reaches_offered
    (Function.update stale k false)
    (by rw [hproposers₃, Function.update_self]; exact hcollects) (by rw [hproposers₃, hnone])
    (by rw [hproposers₃, hsize, hQ]) fun i hi => (hpromised i hi).2
  have hreaches := ((hreaches₁.trans hreaches₂).trans hreaches₃).trans hreaches₄
  obtain ⟨R₄, h₄⟩ := h.of_reaches hreaches
  obtain ⟨C₅, hreaches₅, hpermitted⟩ := reaches_permitted h₄ haccept fun i hi => by
    rw [hhosts₄]
    exact (hpromised i hi).1
  exact ⟨_, hreaches.trans hreaches₅, p, v, Q, hQ.ge, hpermitted⟩

/-- **A decision stays possible.** After every sound run, any one proposer and any quorum of
acceptors can decide by themselves, again by a sound run, as long as their numbers leave room: no
other party has to act. -/
theorem Setup.decision_stays_possible {acts : List (DurableAction κ ι ν)} (hrun : S.SoundRun acts)
    (k : κ) {Q : Finset ι} (hQ : S.quorumSize ≤ Q.card)
    (hroom : let C := DurableCluster.machine.run S.durableStart acts
      (C.proposers k).proposalID.number.toNat + 1 < UInt32.size ∧
        ∀ i ∈ Q, (C.hosts i).acceptor.promisedID.number.toNat + 1 < UInt32.size) :
    ∃ more, S.SoundRun (acts ++ more) ∧ (∀ act ∈ more, act.By k Q) ∧
      ∃ p v, S.Decided (DurableCluster.machine.run S.durableStart (acts ++ more)) p v := by
  obtain ⟨Q', hsub, hcard⟩ := Finset.exists_subset_card_eq hQ
  obtain ⟨R, h⟩ := DurableFacts.exists_of_soundRun hrun
  have hrun_fst := DurableCluster.trackedMachine_run_fst (S.durableStart, fun _ => false) acts
  rw [← hrun_fst] at hroom
  obtain ⟨hk, hi⟩ := hroom
  generalize hX : DurableCluster.trackedMachine.run (S.durableStart, fun _ => false) acts = X
    at h hk hi
  obtain ⟨C, stale⟩ := X
  obtain ⟨N, hN, hbelow, hbelow'⟩ := exists_number_bound hk fun i hi' => hi i (hsub hi')
  obtain ⟨Y, ⟨more, hmore, rfl⟩, hdecided⟩ := Setup.reaches_decided h hcard hN hbelow hbelow'
  refine ⟨more, ?_, ?_, ?_⟩
  · refine Machine.admits_append _ |>.mpr ⟨hrun, ?_⟩
    rw [hX]
    exact hmore.mono fun _ _ henabled => henabled.1
  · have hby := hmore.mono fun _ _ henabled => henabled.2
    intro act hact
    have hby' := Machine.admits_const_iff.mp hby act hact
    cases act with
    | host i act => exact hsub hby'
    | _ => exact hby'
  · rw [← DurableCluster.trackedMachine_run_fst (S.durableStart, fun _ => false),
      Machine.run_append, hX]
    exact hdecided

/-- Proposer `z` is elected by acceptors `i` and `j`. The former permits its value, and the latter
crashes right after it has recorded the accept request. -/
def Setup.crashInBallot (z : Fin 2) (i j : Fin 3) (p : ProposalID) :
    List (DurableAction (Fin 2) (Fin 3) Bool) :=
  [.proposer z (.setProposal [120]), .proposer z (.prepare true)] ++
    hostPromises i p ++ hostPromises j p ++
    hearsPromise z i p .empty [] ++ hearsPromise z j p .empty [] ++ hostPermits i p [120] ++
  [.host j (.call (.receiveAcceptRequest p.uid p [120])), .host j (.crash false 9 true)]

/-- Nothing is decided when the acceptor crashes. Then the other proposer can go on with it and the
acceptor that has not been asked yet. -/
theorem Setup.decision_stays_possible_crashInBallot :
    (∀ p v, ¬twoOnThree.Decided (DurableCluster.machine.run twoOnThree.durableStart
        (crashInBallot 1 0 1 ⟨1, [90]⟩)) p v) ∧
      ∃ more, twoOnThree.SoundRun (crashInBallot 1 0 1 ⟨1, [90]⟩ ++ more) ∧
        (∀ act ∈ more, act.By 0 {1, 2}) ∧ ∃ p v, twoOnThree.Decided
          (DurableCluster.machine.run twoOnThree.durableStart
            (crashInBallot 1 0 1 ⟨1, [90]⟩ ++ more)) p v := by
  refine ⟨?_, decision_stays_possible (by decide) 0 (by decide) (by decide)⟩
  rintro p v ⟨Q, hQ, hpermitted⟩
  -- only acceptor 0 has sent a permit, and it is no quorum
  have hsilent : ∀ i ≠ 0, (DurableCluster.machine.run twoOnThree.durableStart
      (crashInBallot 1 0 1 ⟨1, [90]⟩)).answers i ⊆ [sendPromise [90] ⟨1, [90]⟩ .empty []] := by
    decide
  have hsub : Q ⊆ {0} := by
    intro i hi
    obtain ⟨toUID, hsent⟩ := hpermitted i hi
    by_contra hne
    have hpromise := hsilent i (by simpa using hne) hsent
    simp at hpromise
  have hcard : 2 ≤ ({0} : Finset (Fin 3)).card := hQ.trans (Finset.card_le_card hsub)
  simp at hcard

end Cluster

end CppPaxos
