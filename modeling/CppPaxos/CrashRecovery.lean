import CppPaxos.AcceptorInvariant

/-!
# An acceptor that crashes and recovers

The owner of an acceptor keeps a durable copy of the promised ID and the accepted
pair. It rewrites the copy right before each call of `persisted`, and after a crash
hands it to `recover` of a fresh acceptor. The deferred answers are covered by the
copy; the answers to duplicates, sent at once, are covered only if what they repeat
was on disk already.
-/

namespace CppPaxos

open Machines MessengerCall

/-- The members of an acceptor that survive a crash. -/
structure DurableCopy where
  promisedID : ProposalID
  acceptedID : ProposalID
  acceptedValue : Str
  deriving DecidableEq, Repr

/-- The three members, as they are now. -/
def Acceptor.durableCopy (A : Acceptor) : DurableCopy :=
  ⟨A.promisedID, A.acceptedID, A.acceptedValue⟩

/-- A fresh acceptor, with the same constructor arguments, that recovers from a copy. -/
def Acceptor.restart (A : Acceptor) (disk : DurableCopy) (now : UInt64) (active : Bool) :
    Acceptor :=
  (new A.acceptorUID A.livenessWindow now active).recover disk.promisedID disk.acceptedID
    disk.acceptedValue

/-- An acceptor together with the durable copy its owner keeps. -/
structure Host where
  acceptor : Acceptor
  disk : DurableCopy
  deriving DecidableEq, Repr

/-- What happens to an acceptor and its durable copy. -/
inductive HostAction
  /-- The owner calls the acceptor. -/
  | call (request : AcceptorCall)
  /-- A crash and the recovery after it. It may fall between the rewriting of the copy and the
  call of `persisted`; `now` and `active` are for the constructor of the next incarnation. -/
  | crash (copyRewritten : Bool) (now : UInt64) (active : Bool)
  deriving DecidableEq, Repr

/-- The requests carry valid proposal IDs. -/
def HostAction.ValidID : HostAction → Prop
  | .call request => request.ValidID
  | .crash _ _ _ => True

instance : DecidablePred HostAction.ValidID
  | .call request => inferInstanceAs (Decidable request.ValidID)
  | .crash _ _ _ => isTrue trivial

namespace Host

/-- A new acceptor; the durable copy is still the triple of the constructor. -/
def new (acceptorUID : Str) (livenessWindow now : UInt64) (active : Bool) : Host where
  acceptor := .new acceptorUID livenessWindow now active
  disk := ⟨.empty, .empty, []⟩

/-- The owner calls `persisted` only if persistence is required, and rewrites the copy first. -/
def machine : Machine Host HostAction MessengerCall where
  step H
    | .call request =>
      if request = .persisted ∧ ¬H.acceptor.persistenceRequired then (H, [])
      else
        ({ acceptor := Acceptor.machine.next H.acceptor request
           disk := if request = .persisted then H.acceptor.durableCopy else H.disk },
          Acceptor.machine.emits H.acceptor request)
    | .crash copyRewritten now active =>
      let disk := if copyRewritten ∧ H.acceptor.persistenceRequired then H.acceptor.durableCopy
        else H.disk
      ({ acceptor := H.acceptor.restart disk now active, disk := disk }, [])

/-- After a promise for `p`, no incarnation records an accept request below `p`. -/
def PromisesKept (H : Host) (acts : List HostAction) : Prop :=
  ∀ pre act later fromUID p' v', pre ++ [act] <+: later →
    later ++ [.call (.receiveAcceptRequest fromUID p' v')] <+: acts →
    (machine.run H later).acceptor.Records p' v' →
    ∀ toUID p r w, sendPromise toUID p r w ∈ machine.emits (machine.run H pre) act → p ≤ p'

/-- After a permit for `p`, the accepted ID of every incarnation is at least `p`. -/
def PermitsKept (H : Host) (acts : List HostAction) : Prop :=
  ∀ pre act later, pre ++ [act] <+: later → later <+: acts →
    ∀ toUID p v, sendPermit toUID p v ∈ machine.emits (machine.run H pre) act →
      p ≤ (machine.run H later).acceptor.acceptedID

/-- A duplicate request, which an active acceptor answers at once, repeats an ID that the
durable copy holds. -/
def AnswersFromDisk (H : Host) : HostAction → Prop
  | .call (.receivePrepare _ _ p) =>
    H.acceptor.active → H.acceptor.promisedID.isValid ∧ p = H.acceptor.promisedID →
      H.disk.promisedID = p
  | .call (.receiveAcceptRequest _ p v) =>
    H.acceptor.active →
      H.acceptor.acceptedID.isValid ∧ p = H.acceptor.acceptedID ∧ H.acceptor.acceptedValue = v →
      H.disk.acceptedID = p
  | _ => True

instance (H : Host) : DecidablePred H.AnswersFromDisk
  | .call (.receivePrepare _ _ p) => inferInstanceAs (Decidable (_ → _ → H.disk.promisedID = p))
  | .call (.receiveAcceptRequest _ p _) =>
    inferInstanceAs (Decidable (_ → _ → H.disk.acceptedID = p))
  | .call .persisted => isTrue trivial
  | .call (.setActive _) => isTrue trivial
  | .crash _ _ _ => isTrue trivial

/-- The durable copy lags behind the acceptor, and recovering from it gives a sound acceptor. -/
structure Invariant (H : Host) : Prop where
  acceptor : H.acceptor.Invariant
  restart : ∀ now active, (H.acceptor.restart H.disk now active).Invariant
  promisedID_le : H.disk.promisedID ≤ H.acceptor.promisedID
  acceptedID_le : H.disk.acceptedID ≤ H.acceptor.acceptedID

/-- Everything sent so far is covered by the acceptor and by its durable copy. -/
structure Covers (H : Host) (sent : List MessengerCall) : Prop where
  promise : ∀ toUID p r w, sendPromise toUID p r w ∈ sent → p ≤ H.disk.promisedID
  permit : ∀ toUID p v, sendPermit toUID p v ∈ sent → p ≤ H.disk.acceptedID

/-- A new host satisfies it. -/
theorem invariant_new (acceptorUID : Str) (livenessWindow now : UInt64) (active : Bool) :
    (new acceptorUID livenessWindow now active).Invariant where
  acceptor := Acceptor.invariant_new acceptorUID livenessWindow now active
  restart now active := Acceptor.invariant_new acceptorUID livenessWindow now active
  promisedID_le := le_rfl
  acceptedID_le := le_rfl

/-- Recovering an acceptor from its own triple loses the pending answers and nothing else. -/
theorem restart_durableCopy_invariant {A : Acceptor} (hA : A.Invariant) (now : UInt64)
    (active : Bool) : (A.restart A.durableCopy now active).Invariant where
  promised := hA.promised
  accepted := hA.accepted
  acceptedID_le := hA.acceptedID_le
  pendingPromise h := absurd rfl h
  pendingAccept h := absurd rfl h

/-- A restart depends on the constructor arguments of the acceptor only. -/
theorem restart_next (A : Acceptor) (request : AcceptorCall) (disk : DurableCopy) (now : UInt64)
    (active : Bool) :
    (Acceptor.machine.next A request).restart disk now active = A.restart disk now active := by
  cases request with
  | receivePrepare now' fromUID p =>
    simp only [Machine.next, Acceptor.machine, Acceptor.receivePrepare]
    split_ifs <;> rfl
  | receiveAcceptRequest fromUID p v =>
    simp only [Machine.next, Acceptor.machine, Acceptor.receiveAcceptRequest]
    split_ifs <;> rfl
  | persisted => rfl
  | setActive active' => rfl

/-- The durable copy after an action is the old one or the triple before the action. -/
theorem next_disk (H : Host) (act : HostAction) :
    (machine.next H act).disk = H.disk ∨ (machine.next H act).disk = H.acceptor.durableCopy := by
  cases act with
  | call request =>
    simp only [Machine.next, machine]
    split_ifs
    · exact Or.inl rfl
    · exact Or.inr rfl
    · exact Or.inl rfl
  | crash copyRewritten now active =>
    simp only [Machine.next, machine]
    split_ifs
    · exact Or.inr rfl
    · exact Or.inl rfl

/-- The durable copy only moves up. -/
theorem Invariant.disk_le_next {H : Host} (hH : H.Invariant) (act : HostAction) :
    H.disk.promisedID ≤ (machine.next H act).disk.promisedID ∧
      H.disk.acceptedID ≤ (machine.next H act).disk.acceptedID := by
  rcases next_disk H act with h | h
  · rw [h]
    exact ⟨le_rfl, le_rfl⟩
  · rw [h]
    exact ⟨hH.promisedID_le, hH.acceptedID_le⟩

/-- Every action with a valid ID keeps the invariant. -/
theorem Invariant.next {H : Host} (hH : H.Invariant) {act : HostAction} (hact : act.ValidID) :
    (machine.next H act).Invariant := by
  cases act with
  | call request =>
    have hstep := hH.acceptor.step hact
    have hrestart : ∀ disk now active, (H.acceptor.restart disk now active).Invariant →
        ((Acceptor.machine.next H.acceptor request).restart disk now active).Invariant := by
      intro disk now active h
      rwa [restart_next]
    simp only [Machine.next, machine]
    split_ifs with hskip hpersisted
    · exact hH
    · refine ⟨hstep.invariant hH.acceptor, fun now active => ?_, hstep.promisedID_le,
        hstep.acceptedID_le hH.acceptor⟩
      exact hrestart _ now active (restart_durableCopy_invariant hH.acceptor now active)
    · exact ⟨hstep.invariant hH.acceptor, fun now active => hrestart _ now active
        (hH.restart now active), hH.promisedID_le.trans hstep.promisedID_le,
        hH.acceptedID_le.trans (hstep.acceptedID_le hH.acceptor)⟩
  | crash copyRewritten now active =>
    have hcrash : ∀ disk : DurableCopy,
        (∀ now active, (H.acceptor.restart disk now active).Invariant) →
        Invariant { acceptor := H.acceptor.restart disk now active, disk := disk } :=
      fun disk h => ⟨h now active, fun now' active' => h now' active', le_rfl, le_rfl⟩
    simp only [Machine.next, machine]
    split_ifs
    · exact hcrash _ (restart_durableCopy_invariant hH.acceptor)
    · exact hcrash _ hH.restart

/-- A call of the acceptor, without the guard of the owner. -/
theorem call_cases (H : Host) (request : AcceptorCall) :
    machine.emits H (.call request) = [] ∨
      machine.emits H (.call request) = Acceptor.machine.emits H.acceptor request ∧
        (machine.next H (.call request)).disk =
          if request = .persisted then H.acceptor.durableCopy else H.disk := by
  by_cases hskip : request = .persisted ∧ ¬H.acceptor.persistenceRequired
  · exact Or.inl (by simp only [Machine.emits, machine, if_pos hskip])
  · refine Or.inr ⟨?_, ?_⟩
    · simp only [Machine.emits, machine, if_neg hskip]
    · simp only [Machine.next, machine, if_neg hskip]

/-- Under the condition, what one action sends is on disk after it. -/
theorem Invariant.covers_emits {H : Host} (hH : H.Invariant) {act : HostAction}
    (hact : act.ValidID) (hdisk : H.AnswersFromDisk act) :
    (machine.next H act).Covers (machine.emits H act) := by
  cases act with
  | crash copyRewritten now active =>
    exact ⟨by simp [machine, Machine.emits], by simp [machine, Machine.emits]⟩
  | call request =>
    rcases call_cases H request with hnone | ⟨hemits, hnext⟩
    · rw [hnone]
      exact ⟨by simp, by simp⟩
    · rw [hemits]
      have hvalid : request.ValidID := hact
      have hstep := hH.acceptor.step hvalid
      constructor
      · intro toUID p r w hsent
        have hpromise := hstep.of_sendPromise_mem hH.acceptor hsent
        have hp : p = H.acceptor.promisedID := hpromise.promisedID.trans hpromise.promisedID_eq
        rw [hnext]
        rcases hpromise.source with rfl | ⟨now, rfl, hactive⟩
        · -- the deferred promise: the copy is the triple of this very state
          rw [if_pos rfl]
          exact hp.le
        · -- the immediate promise: the copy is old, and the condition speaks about it
          rw [if_neg AcceptorCall.noConfusion]
          exact (hdisk hactive ⟨hp ▸ hpromise.isValid, hp⟩).ge
      · intro toUID p v hsent
        have hpermit := hstep.of_sendPermit_mem hH.acceptor hsent
        have hp : p = H.acceptor.acceptedID := hpermit.acceptedID.trans hpermit.acceptedID_eq
        have hv : v = H.acceptor.acceptedValue :=
          hpermit.acceptedValue.trans hpermit.acceptedValue_eq
        rw [hnext]
        rcases hpermit.source with rfl | ⟨rfl, hactive⟩
        · rw [if_pos rfl]
          exact hp.le
        · rw [if_neg AcceptorCall.noConfusion]
          exact (hdisk hactive ⟨hp ▸ hpermit.isValid, hp, hv.symm⟩).ge

/-- **What was answered is durable.** In a run whose duplicates are answered from disk, the
durable copy covers every promise and every permit sent so far. -/
theorem run_covers {H : Host} (hH : H.Invariant) {acts : List HostAction}
    (hrun : machine.Admits (fun H act => act.ValidID ∧ H.AnswersFromDisk act) H acts) :
    (machine.run H acts).Invariant ∧ (machine.run H acts).Covers (machine.trace H acts) := by
  refine hrun.induction (I := fun pre H' => H'.Invariant ∧ H'.Covers (machine.trace H pre))
    ⟨hH, by simp, by simp⟩ ?_
  intro pre act ⟨hI, hcovers⟩ ⟨hvalid, hdisk⟩
  obtain ⟨hpromised, haccepted⟩ := hI.disk_le_next act
  have hemits := hI.covers_emits hvalid hdisk
  refine ⟨hI.next hvalid, ?_, ?_⟩
  · intro toUID p r w hsent
    rw [Machine.trace_concat, List.mem_append] at hsent
    rcases hsent with hold | hnew
    · exact (hcovers.promise toUID p r w hold).trans hpromised
    · exact hemits.promise toUID p r w hnew
  · intro toUID p v hsent
    rw [Machine.trace_concat, List.mem_append] at hsent
    rcases hsent with hold | hnew
    · exact (hcovers.permit toUID p v hold).trans haccepted
    · exact hemits.permit toUID p v hnew

/-- **Crash durability.** In every run in which an active acceptor answers a duplicate request
only while the durable copy holds the ID that the answer repeats, no incarnation records an
accept request below an ID promised before, and no incarnation holds an accepted ID below one
permitted before. -/
theorem crash_durable (acceptorUID : Str) (livenessWindow now : UInt64) (active : Bool)
    (acts : List HostAction)
    (hrun : machine.Admits (fun H act => act.ValidID ∧ H.AnswersFromDisk act)
      (new acceptorUID livenessWindow now active) acts) :
    (new acceptorUID livenessWindow now active).PromisesKept acts ∧
      (new acceptorUID livenessWindow now active).PermitsKept acts := by
  have hnew := invariant_new acceptorUID livenessWindow now active
  constructor
  · intro pre act later fromUID p' v' hpre hlater hrecords toUID p r w hsent
    have hlater' : later <+: acts := (List.prefix_append _ _).trans hlater
    obtain ⟨hI, hcovers⟩ := run_covers hnew (hrun.of_prefix hlater')
    have htrace := Machine.mem_trace_iff.mpr ⟨pre, act, hpre, hsent⟩
    have hp' : p'.isValid := (hrun.allowed_of_prefix hlater).1
    calc p ≤ (machine.run _ later).disk.promisedID := hcovers.promise toUID p r w htrace
      _ ≤ (machine.run _ later).acceptor.promisedID := hI.promisedID_le
      _ ≤ p' := hI.acceptor.promisedID_le_of_records hp' hrecords
  · intro pre act later hpre hlater toUID p v hsent
    obtain ⟨hI, hcovers⟩ := run_covers hnew (hrun.of_prefix hlater)
    have htrace := Machine.mem_trace_iff.mpr ⟨pre, act, hpre, hsent⟩
    exact (hcovers.permit toUID p v htrace).trans hI.acceptedID_le

/-- A promise is persisted, repeated to a duplicate request, and survives a crash. -/
def persistedThenDuplicate : List HostAction :=
  [.call (.receivePrepare 1 [98] ⟨2, [98]⟩), .call .persisted,
    .call (.receivePrepare 2 [98] ⟨2, [98]⟩), .crash false 3 true,
    .call (.receiveAcceptRequest [99] ⟨1, [99]⟩ [120])]

/-- A duplicate request is answered from the disk. -/
theorem crash_durable_persistedThenDuplicate :
    (new [97] 0 0 true).PromisesKept persistedThenDuplicate ∧
      (new [97] 0 0 true).PermitsKept persistedThenDuplicate :=
  crash_durable [97] 0 0 true persistedThenDuplicate (by decide)

/-- A duplicate prepare request is answered before the promise is on disk. After the crash the
acceptor knows nothing of the promise and records an accept request with a lower ID. -/
def duplicateThenCrash : List HostAction :=
  [.call (.receivePrepare 1 [98] ⟨2, [98]⟩), .call (.receivePrepare 2 [98] ⟨2, [98]⟩),
    .crash false 3 true, .call (.receiveAcceptRequest [99] ⟨1, [99]⟩ [120])]

/-- A duplicate is answered before the disk has been written, and the crash forgets it. -/
theorem promise_lost_duplicateThenCrash :
    (∀ act ∈ duplicateThenCrash, act.ValidID) ∧
      ¬(new [97] 0 0 true).PromisesKept duplicateThenCrash := by
  refine ⟨by decide, fun hkept => ?_⟩
  have hle : (⟨2, [98]⟩ : ProposalID) ≤ ⟨1, [99]⟩ :=
    hkept (duplicateThenCrash.take 1) (.call (.receivePrepare 2 [98] ⟨2, [98]⟩))
      (duplicateThenCrash.take 3) [99] ⟨1, [99]⟩ [120] (List.prefix_append _ _) List.prefix_rfl
      (by decide) [98] ⟨2, [98]⟩ .empty [] (by decide)
  exact absurd hle (by decide)

end Host

end CppPaxos
