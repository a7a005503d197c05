import CppPaxos.Cluster
import CppPaxos.Learner

/-!
# Values come from clients

A value goes from a client to a proposer, from there to acceptors, back to other
proposers with the promises of later ballots, and to learners. Over any number of
ballots none of the parties makes one up.
-/

namespace CppPaxos

open Machines MessengerCall

/-- The value that a message or a notification carries. -/
def MessengerCall.value : MessengerCall → Option Str
  | .sendPromise _ _ _ value | .sendAccept _ value | .sendPermit _ _ value
  | .onResolution _ value => some value
  | _ => none

/-- The value that a call hands to a proposer. -/
def ProposerCall.value : ProposerCall → Option Str
  | .setProposal value | .receivePromise _ _ _ value => some value
  | _ => none

/-- The value that a call hands to an acceptor. -/
def AcceptorCall.value : AcceptorCall → Option Str
  | .receiveAcceptRequest _ _ value => some value
  | _ => none

/-! ### What one party does with values -/

/-- A proposer keeps its value or takes over the one it is given. -/
theorem Proposer.proposedValue_next (P : Proposer) (call : ProposerCall) :
    (machine.next P call).proposedValue = P.proposedValue ∨
      (machine.next P call).proposedValue ∈ call.value := by
  cases call with
  | prepare increment => cases increment <;> exact Or.inl rfl
  | setProposal v =>
    simp only [Machine.next, machine, setProposal]
    split
    · exact Or.inr rfl
    · exact Or.inl rfl
  | receivePromise u p r w =>
    by_cases hcounts : P.Counts u p
    · rw [next_receivePromise_of_counts hcounts]
      simp only [countPromise_proposedValue, observeProposal_proposedValue]
      split_ifs
      · exact Or.inr rfl
      · exact Or.inl rfl
    · rw [next_receivePromise_of_not_counts hcounts]
      exact Or.inl (by simp)
  | receivePrepareNACK u p id | receiveAcceptNACK u p id | observeProposal u id =>
    exact Or.inl (P.observeProposal_proposedValue u id)
  | resendAccept | setActive | setLeader => exact Or.inl rfl

/-- A proposer sends requests, and it notifies its owner when it becomes a leader. -/
theorem Proposer.emits_cases {P : Proposer} {call : ProposerCall} {m : MessengerCall}
    (hm : m ∈ machine.emits P call) :
    (∃ p, m = sendPrepare p) ∨ (∃ p v, m = sendAccept p v) ∨ m = onLeadershipAcquired := by
  cases call with
  | prepare increment =>
    simp only [Machine.emits, machine, prepare, List.mem_ite_nil_right, List.mem_singleton] at hm
    exact Or.inl ⟨_, hm.2⟩
  | setProposal v =>
    simp only [Machine.emits, machine, setProposal] at hm
    split_ifs at hm
    · exact Or.inr (Or.inl ⟨_, _, List.mem_singleton.mp hm⟩)
    · simp at hm
    · simp at hm
  | receivePromise u p r w =>
    simp only [Machine.emits, machine] at hm
    rcases P.receivePromise_cases u p r w with ⟨-, heq⟩ | ⟨-, -, heq⟩ | ⟨-, -, heq⟩
    · simp [heq] at hm
    · simp [heq] at hm
    · rw [heq, List.mem_cons] at hm
      rcases hm with hm | hm
      · exact Or.inr (Or.inr hm)
      · rw [List.mem_ite_nil_right, List.mem_singleton] at hm
        exact Or.inr (Or.inl ⟨_, _, hm.2⟩)
  | resendAccept =>
    simp only [Machine.emits, machine, resendAccept, List.mem_ite_nil_right,
      List.mem_singleton] at hm
    exact Or.inr (Or.inl ⟨_, _, hm.2⟩)
  | receivePrepareNACK | receiveAcceptNACK | observeProposal | setLeader | setActive =>
    simp [Machine.emits, machine] at hm

/-- A proposer sends the value that it has after the call. -/
theorem Proposer.of_value_mem {P : Proposer} {call : ProposerCall} {m : MessengerCall}
    (hm : m ∈ machine.emits P call) {v : Str} (hv : v ∈ m.value) :
    v = (machine.next P call).proposedValue := by
  rw [Option.mem_def] at hv
  rcases emits_cases hm with ⟨p, rfl⟩ | ⟨p, v', rfl⟩ | rfl
  · cases hv
  · cases hv
    exact (of_sendAccept_mem hm).2.1
  · cases hv

/-- An acceptor keeps its value or takes over the one it is given. -/
theorem Acceptor.acceptedValue_next (A : Acceptor) (call : AcceptorCall) :
    (machine.next A call).acceptedValue = A.acceptedValue ∨
      (machine.next A call).acceptedValue ∈ call.value := by
  cases call with
  | receivePrepare now u p =>
    simp only [Machine.next, machine, receivePrepare]
    split_ifs <;> exact Or.inl rfl
  | receiveAcceptRequest u p v =>
    have hpair := A.receiveAcceptRequest_accepted u p v
    by_cases hrecords : A.Records p v
    · rw [if_pos hrecords, Prod.mk.injEq] at hpair
      exact Or.inr (congrArg some hpair.2.symm)
    · rw [if_neg hrecords, Prod.mk.injEq] at hpair
      exact Or.inl hpair.2
  | persisted | setActive => exact Or.inl rfl

/-- What an acceptor sends, it sends while active: its accepted pair in a promise, a permit for its
accepted value, or a refusal. -/
theorem Acceptor.emits_cases {A : Acceptor} {call : AcceptorCall} {m : MessengerCall}
    (hm : m ∈ machine.emits A call) :
    A.active ∧ ((∃ u p, m = sendPromise u p A.acceptedID A.acceptedValue) ∨
      (∃ u p, m = sendPermit u p A.acceptedValue) ∨
      (∃ u p id, m = sendPrepareNACK u p id) ∨ ∃ u p id, m = sendAcceptNACK u p id) := by
  cases call with
  | receivePrepare now u p =>
    simp only [Machine.emits, machine, receivePrepare] at hm
    split_ifs at hm with _ hactive <;>
      simp only [List.mem_singleton, List.not_mem_nil] at hm
    · exact ⟨hactive, Or.inl ⟨_, _, hm⟩⟩
    · rename_i hactive
      exact ⟨hactive, Or.inr (Or.inr (Or.inl ⟨_, _, _, hm⟩))⟩
  | receiveAcceptRequest u p w =>
    simp only [Machine.emits, machine, receiveAcceptRequest] at hm
    split_ifs at hm with hsame hactive <;>
      simp only [List.mem_singleton, List.not_mem_nil] at hm
    · rw [← hsame.2.2] at hm
      exact ⟨hactive, Or.inr (Or.inl ⟨_, _, hm⟩)⟩
    · rename_i hactive
      exact ⟨hactive, Or.inr (Or.inr (Or.inr ⟨_, _, _, hm⟩))⟩
  | persisted =>
    simp only [Machine.emits, machine, persisted, List.mem_ite_nil_right, List.mem_append,
      List.mem_singleton] at hm
    obtain ⟨hactive, ⟨-, hm⟩ | ⟨-, hm⟩⟩ := hm
    · exact ⟨hactive, Or.inl ⟨_, _, hm⟩⟩
    · exact ⟨hactive, Or.inr (Or.inl ⟨_, _, hm⟩)⟩
  | setActive => simp [Machine.emits, machine] at hm

/-- An acceptor sends the value that it has accepted. -/
theorem Acceptor.of_value_mem {A : Acceptor} {call : AcceptorCall} {m : MessengerCall}
    (hm : m ∈ machine.emits A call) {v : Str} (hv : v ∈ m.value) : v = A.acceptedValue := by
  rw [Option.mem_def] at hv
  rcases (emits_cases hm).2 with ⟨u, p, rfl⟩ | ⟨u, p, rfl⟩ | ⟨u, p, id, rfl⟩ | ⟨u, p, id, rfl⟩
  · exact (Option.some.inj hv).symm
  · exact (Option.some.inj hv).symm
  · cases hv
  · cases hv

/-- A learner keeps its final value or takes over the one that is reported. -/
theorem Learner.finalValue_next (L : Learner) (r : Report) :
    (machine.next L r).finalValue = L.finalValue ∨
      (machine.next L r).finalValue = r.acceptedValue := by
  rw [next_eq]
  rcases L.receiveAccepted_cases r with
    ⟨-, heq⟩ | ⟨-, -, heq⟩ | ⟨e, -, -, -, heq⟩ | ⟨e, -, -, -, heq⟩
  · exact Or.inl (by rw [heq])
  · exact Or.inl (by rw [heq]; rfl)
  · exact Or.inr (by rw [heq]; rfl)
  · exact Or.inl (by rw [heq]; rfl)

/-! ### All parties together -/

/-- The arguments of the constructors of all parties, and the contents of what these leave unset. -/
structure Parties (κ ι ν : Type*) where
  proposerUID : κ → Str
  quorumSize : κ → ℕ
  leader : κ → Bool
  proposerActive : κ → Bool
  acceptorUID : ι → Str
  livenessWindow : ι → UInt64
  /-- The reading of the clock by the constructor of each acceptor. -/
  startedAt : ι → UInt64
  acceptorActive : ι → Bool
  learnerQuorumSize : ν → Int
  learnerActive : ν → Bool

/-- Proposers and acceptors with the messages they have ever sent, and learners. -/
structure World (κ ι ν : Type*) where
  cluster : Cluster κ ι
  learners : ν → Learner

/-- A call of a member function of one of the parties. -/
inductive WorldAction (κ ι ν : Type*)
  | proposer (k : κ) (call : ProposerCall)
  | acceptor (i : ι) (call : AcceptorCall)
  | learner (n : ν) (r : Report)

namespace World

variable {κ ι ν : Type*}

/-- Every value that the messages carry is one of `C`. -/
def CarriesOnly (C : Str → Prop) (sent : List MessengerCall) : Prop :=
  ∀ m ∈ sent, ∀ v ∈ m.value, C v

/-- Every value in the world, held or sent, is one of `C`. -/
structure HoldsOnly (C : Str → Prop) (W : World κ ι ν) : Prop where
  proposed : ∀ k, C (W.cluster.proposers k).proposedValue
  accepted : ∀ i, C (W.cluster.acceptors i).acceptedValue
  requests : ∀ k, CarriesOnly C (W.cluster.requests k)
  answers : ∀ i, CarriesOnly C (W.cluster.answers i)
  final : ∀ n, C (W.learners n).finalValue

/-- More values may be held. -/
theorem HoldsOnly.mono {C C' : Str → Prop} {W : World κ ι ν} (h : W.HoldsOnly C)
    (hsub : ∀ v, C v → C' v) : W.HoldsOnly C' :=
  ⟨fun k => hsub _ (h.proposed k), fun i => hsub _ (h.accepted i),
    fun k m hm v hv => hsub v (h.requests k m hm v hv),
    fun i m hm v hv => hsub v (h.answers i m hm v hv), fun n => hsub _ (h.final n)⟩

variable [DecidableEq κ] [DecidableEq ι] [DecidableEq ν]

/-- The world as a machine. -/
def machine : Machine (World κ ι ν) (WorldAction κ ι ν) MessengerCall where
  step W
    | .proposer k call =>
      let (cluster, sent) := Cluster.machine.step W.cluster (.proposer k call)
      ({ W with cluster := cluster }, sent)
    | .acceptor i call =>
      let (cluster, sent) := Cluster.machine.step W.cluster (.acceptor i call)
      ({ W with cluster := cluster }, sent)
    | .learner n r =>
      let (L, sent) := Learner.machine.step (W.learners n) r
      ({ W with learners := Function.update W.learners n L }, sent)

/-- A call of a proposer is a step of the cluster. -/
theorem next_proposer (W : World κ ι ν) (k : κ) (call : ProposerCall) :
    machine.next W (.proposer k call) =
      { W with cluster := Cluster.machine.next W.cluster (.proposer k call) } := rfl

/-- So is a call of an acceptor. -/
theorem next_acceptor (W : World κ ι ν) (i : ι) (call : AcceptorCall) :
    machine.next W (.acceptor i call) =
      { W with cluster := Cluster.machine.next W.cluster (.acceptor i call) } := rfl

/-- A report changes only the learner. -/
theorem next_learner (W : World κ ι ν) (n : ν) (r : Report) :
    machine.next W (.learner n r) =
      { W with
        learners := Function.update W.learners n (Learner.machine.next (W.learners n) r) } := rfl

section Step

variable {C : Str → Prop} {W : World κ ι ν} (h : W.HoldsOnly C)

include h

/-- A proposer that is given a value of `C`, if any, keeps to `C`. -/
theorem HoldsOnly.next_proposer {k : κ} {call : ProposerCall} (hgiven : ∀ v ∈ call.value, C v) :
    (machine.next W (.proposer k call)).HoldsOnly C := by
  have hvalue : C (Proposer.machine.next (W.cluster.proposers k) call).proposedValue := by
    rcases (W.cluster.proposers k).proposedValue_next call with hkept | hnew
    · rw [hkept]
      exact h.proposed k
    · exact hgiven _ hnew
  rw [World.next_proposer, Cluster.next_proposer]
  refine ⟨?_, h.accepted, ?_, h.answers, h.final⟩
  · apply (Function.forall_update_iff _ fun _ (P : Proposer) => C P.proposedValue).mpr
    exact ⟨hvalue, fun k' _ => h.proposed k'⟩
  · apply (Function.forall_update_iff _ fun _ => CarriesOnly C).mpr
    refine ⟨fun m hm v hv => ?_, fun k' _ => h.requests k'⟩
    rcases List.mem_append.mp hm with hbefore | hnow
    · exact h.requests k m hbefore v hv
    · rw [Proposer.of_value_mem hnow hv]
      exact hvalue

/-- An acceptor that is given a value of `C`, if any, keeps to `C`. -/
theorem HoldsOnly.next_acceptor {i : ι} {call : AcceptorCall} (hgiven : ∀ v ∈ call.value, C v) :
    (machine.next W (.acceptor i call)).HoldsOnly C := by
  rw [World.next_acceptor, Cluster.next_acceptor]
  refine ⟨h.proposed, ?_, h.requests, ?_, h.final⟩
  · apply (Function.forall_update_iff _ fun _ (A : Acceptor) => C A.acceptedValue).mpr
    refine ⟨?_, fun i' _ => h.accepted i'⟩
    rcases (W.cluster.acceptors i).acceptedValue_next call with hkept | hnew
    · rw [hkept]
      exact h.accepted i
    · exact hgiven _ hnew
  · apply (Function.forall_update_iff _ fun _ => CarriesOnly C).mpr
    refine ⟨fun m hm v hv => ?_, fun i' _ => h.answers i'⟩
    rcases List.mem_append.mp hm with hbefore | hnow
    · exact h.answers i m hbefore v hv
    · rw [Acceptor.of_value_mem hnow hv]
      exact h.accepted i

/-- A learner to which a value of `C` is reported keeps to `C`. -/
theorem HoldsOnly.next_learner {n : ν} {r : Report} (hgiven : C r.acceptedValue) :
    (machine.next W (.learner n r)).HoldsOnly C := by
  rw [World.next_learner]
  refine ⟨h.proposed, h.accepted, h.requests, h.answers, ?_⟩
  apply (Function.forall_update_iff _ fun _ (L : Learner) => C L.finalValue).mpr
  refine ⟨?_, fun n' _ => h.final n'⟩
  rcases (W.learners n).finalValue_next r with hkept | hnew
  · rw [hkept]
    exact h.final n
  · rw [hnew]
    exact hgiven

end Step

end World

namespace Parties

variable {κ ι ν : Type*} (S : Parties κ ι ν)

/-- The start: all parties are new, and nothing has been sent. -/
def start : World κ ι ν where
  cluster :=
    { proposers := fun k =>
        .new (S.proposerUID k) (S.quorumSize k) (S.leader k) (S.proposerActive k)
      acceptors := fun i =>
        .new (S.acceptorUID i) (S.livenessWindow i) (S.startedAt i) (S.acceptorActive i)
      requests := fun _ => []
      answers := fun _ => [] }
  learners n := .new (S.learnerQuorumSize n) (S.learnerActive n)

/-- A message that is delivered has been sent by one of the parties, and a report to a learner is a
permit of the acceptor that it names. The owners may make all other calls at any time. -/
def Delivers (W : World κ ι ν) : WorldAction κ ι ν → Prop
  | .proposer _ (.receivePromise _ p r w) => ∃ i u, sendPromise u p r w ∈ W.cluster.answers i
  | .proposer _ (.receivePrepareNACK _ p promisedID) =>
    ∃ i u, sendPrepareNACK u p promisedID ∈ W.cluster.answers i
  | .proposer _ (.receiveAcceptNACK _ p promisedID) =>
    ∃ i u, sendAcceptNACK u p promisedID ∈ W.cluster.answers i
  | .proposer _ _ => True
  | .acceptor _ (.receivePrepare _ _ p) => ∃ k, sendPrepare p ∈ W.cluster.requests k
  | .acceptor _ (.receiveAcceptRequest _ p v) => ∃ k, sendAccept p v ∈ W.cluster.requests k
  | .acceptor _ _ => True
  | .learner _ r =>
    ∃ i u, S.acceptorUID i = r.fromUID ∧
      sendPermit u r.proposalID r.acceptedValue ∈ W.cluster.answers i

/-- The value is empty, or a client has proposed it. -/
def FromClients (acts : List (WorldAction κ ι ν)) (v : Str) : Prop :=
  v = [] ∨ ∃ k, .proposer k (.setProposal v) ∈ acts

variable [DecidableEq κ] [DecidableEq ι] [DecidableEq ν]

/-- An action brings in no value but the one that its client proposes. -/
theorem holdsOnly_next {C : Str → Prop} {W : World κ ι ν} (h : W.HoldsOnly C)
    {action : WorldAction κ ι ν} (hdelivers : S.Delivers W action)
    (hclient : ∀ k v, action = .proposer k (.setProposal v) → C v) :
    (World.machine.next W action).HoldsOnly C := by
  cases action with
  | proposer k call =>
    refine h.next_proposer fun v hv => ?_
    rw [Option.mem_def] at hv
    cases call with
    | setProposal w =>
      cases hv
      exact hclient k _ rfl
    | receivePromise u p r w =>
      cases hv
      obtain ⟨i, u', hsent⟩ := hdelivers
      exact h.answers i _ hsent _ rfl
    | _ => cases hv
  | acceptor i call =>
    refine h.next_acceptor fun v hv => ?_
    rw [Option.mem_def] at hv
    cases call with
    | receiveAcceptRequest u p w =>
      cases hv
      obtain ⟨k, hsent⟩ := hdelivers
      exact h.requests k _ hsent _ rfl
    | _ => cases hv
  | learner n r =>
    obtain ⟨i, u, -, hsent⟩ := hdelivers
    exact h.next_learner (h.answers i _ hsent _ rfl)

/-- **Validity.** At every moment of a run, every value that a party holds or has sent is empty, or
a client has proposed it before. -/
theorem validity {acts : List (WorldAction κ ι ν)}
    (h : World.machine.Admits S.Delivers S.start acts) :
    (World.machine.run S.start acts).HoldsOnly (FromClients acts) := by
  refine h.induction (I := fun done W => W.HoldsOnly (FromClients done)) ?_ ?_
  · have hempty : FromClients ([] : List (WorldAction κ ι ν)) [] := Or.inl rfl
    exact ⟨fun _ => hempty, fun _ => hempty, fun _ m hm => absurd hm List.not_mem_nil,
      fun _ m hm => absurd hm List.not_mem_nil, fun _ => hempty⟩
  · intro done action hdone hdelivers
    refine S.holdsOnly_next (hdone.mono fun v hv => ?_) hdelivers fun k v hclient => ?_
    · exact hv.imp_right fun ⟨k, hk⟩ => ⟨k, List.mem_append_left _ hk⟩
    · exact Or.inr ⟨k, by simp [hclient]⟩

/-- One proposer with a quorum size of 1, one acceptor and one learner. -/
def trio : Parties Unit Unit Unit where
  proposerUID _ := [65]
  quorumSize _ := 1
  leader _ := false
  proposerActive _ := true
  acceptorUID _ := [49]
  livenessWindow _ := 50000
  startedAt _ := 0
  acceptorActive _ := true
  learnerQuorumSize _ := 1
  learnerActive _ := true

/-- A client proposes a value, which is accepted and learnt. -/
theorem validity_trio :
    (World.machine.run trio.start
      [.proposer () (.setProposal [120]), .proposer () (.prepare true),
        .acceptor () (.receivePrepare 0 [65] ⟨1, [65]⟩), .acceptor () .persisted,
        .proposer () (.receivePromise [49] ⟨1, [65]⟩ .empty []),
        .acceptor () (.receiveAcceptRequest [65] ⟨1, [65]⟩ [120]), .acceptor () .persisted,
        .learner () ⟨[49], ⟨1, [65]⟩, [120], 0, 0⟩]).HoldsOnly
      (FromClients
        [.proposer () (.setProposal [120]), .proposer () (.prepare true),
          .acceptor () (.receivePrepare 0 [65] ⟨1, [65]⟩), .acceptor () .persisted,
          .proposer () (.receivePromise [49] ⟨1, [65]⟩ .empty []),
          .acceptor () (.receiveAcceptRequest [65] ⟨1, [65]⟩ [120]), .acceptor () .persisted,
          .learner () ⟨[49], ⟨1, [65]⟩, [120], 0, 0⟩]) :=
  trio.validity ⟨trivial, trivial, ⟨(), by decide⟩, trivial, ⟨(), [65], by decide⟩,
    ⟨(), by decide⟩, trivial, ⟨(), [65], rfl, by decide⟩, trivial⟩

end Parties

end CppPaxos
