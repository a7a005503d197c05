import CppPaxos.NodeSteps
import CppPaxos.Library.Log

/-!
# Notifications about the leadership

The owner of a node is told when the node acquires and loses the leadership, and whom it
acknowledges before and after. Some handlers change the state and leave the notification
out, repeat it, or name a previous leader of their own.
-/

namespace CppPaxos

open Machines MessengerCall

/-- The value of the leader flag that the owner is told. -/
def MessengerCall.leadership : MessengerCall → Option Bool
  | .onLeadershipAcquired => some true
  | .onLeadershipLost => some false
  | _ => none

/-- A message is no notice of the leadership. -/
theorem MessengerCall.leadership_of_isMessage (m : MessengerCall) (h : m.isMessage) :
    m.leadership = none := by
  cases m with
  | onLeadershipAcquired | onLeadershipLost => exact absurd h (by decide)
  | _ => rfl

/-- The previous and the new leader that the owner is told. -/
def MessengerCall.leaderChange : MessengerCall → Option (Str × Str)
  | .onLeadershipChange previousLeaderUID newLeaderUID => some (previousLeaderUID, newLeaderUID)
  | _ => none

/-- Nor is it one of a change of the leader. -/
theorem MessengerCall.leaderChange_of_isMessage (m : MessengerCall) (h : m.isMessage) :
    m.leaderChange = none := by
  cases m with
  | onLeadershipChange a b => exact absurd h Bool.false_ne_true
  | _ => rfl

/-- A leader holds the promises of a quorum. -/
def Proposer.Elected (P : Proposer) : Prop :=
  P.leader → P.quorumSize ≤ P.promisesReceived.card

/-- Every call but `setLeader(true)` keeps it. -/
theorem Proposer.Elected.next {P : Proposer} (h : P.Elected) {call : ProposerCall}
    (hset : call ≠ .setLeader true) : (machine.next P call).Elected := by
  intro hleader
  rw [next_quorumSize]
  rcases leader_next_cases hset hleader with ⟨hbefore, hsub⟩ | ⟨u, p, r, w, -, -, hquorum⟩
  · exact (h hbefore).trans (Finset.card_le_card hsub)
  · exact hquorum

namespace PaxosNode

/-- Only promises make a leader of a node that is none. -/
theorem elected_next {N : PaxosNode} (h : N.proposer.Elected) (call : NodeCall) :
    (machine.next N call).proposer.Elected := by
  have hcalls : ∀ c ∈ N.proposerCalls call, c ≠ .setLeader true := by
    cases call with
    | setLeaderProposalID | pulse | receivePrepare => simp [proposerCalls]
    | setActive | prepare | receivePromise => simp [proposerCalls]
    | pollLiveness | acquireLeadership | receiveHeartbeat =>
      simp only [proposerCalls]
      split_ifs <;> simp
    | receivePrepareNACK | receiveAcceptNACK =>
      simp only [proposerCalls]
      split_ifs <;> simp
  rw [next_proposer]
  exact (Machine.admits_const_iff.mpr hcalls).invariant h fun _ _ hI hc => hI.next hc

/-- A pulse tells nothing about the leader flag. -/
theorem pulse_leadership (N : PaxosNode) (now : UInt64) :
    (N.pulse now).2.filterMap leadership = [] := by
  by_cases hleader : N.proposer.leader
  · rw [pulse_snd_of_leader hleader]
    split_ifs <;> rfl
  · rw [pulse_snd_of_not_leader hleader]
    rfl

/-- An acceptor sends messages and nothing else. -/
theorem receivePrepare_silent {α : Type*} {entry : MessengerCall → Option α}
    (hentry : ∀ m, m.isMessage → entry m = none) (N : PaxosNode) (now : UInt64) (u : Str)
    (p : ProposalID) : (machine.emits N (.receivePrepare now u p)).filterMap entry = [] := by
  refine List.filterMap_eq_nil_iff.mpr fun m hm => hentry m ?_
  have hsent : m ∈ Acceptor.machine.emits N.acceptor (.receivePrepare now u p) := hm
  rcases (Acceptor.emits_cases hsent).2 with
    ⟨u', p', rfl⟩ | ⟨u', p', rfl⟩ | ⟨u', p', id, rfl⟩ | ⟨u', p', id, rfl⟩ <;> rfl

/-! ### Acquired and lost -/

/-- The node acquires and loses the leadership in turn, as far as its owner is told, and leads
exactly if it was told last that it does. -/
structure LeadershipAnnounced (N : PaxosNode) (calls : List NodeCall) : Prop where
  alternates : (false :: (machine.trace N calls).filterMap leadership).IsChain (· ≠ ·)
  latest : ∀ pre, pre <+: calls →
    (machine.run N pre).isLeader = ((machine.trace N pre).filterMap leadership).getLastD false

/-- The call is a promise that is counted. -/
def CountsPromise (N : PaxosNode) : NodeCall → Prop
  | .receivePromise _ fromUID proposalID _ _ => N.proposer.Counts fromUID proposalID
  | _ => False

/-- A leader stays with its ballot: it begins no new one, and counts no promise late. -/
def KeepsBallot (N : PaxosNode) (call : NodeCall) : Prop :=
  N.isLeader → ¬N.StartsBallot call ∧ ¬N.CountsPromise call

instance (N : PaxosNode) : DecidablePred N.CountsPromise
  | .receivePromise _ fromUID proposalID _ _ =>
    inferInstanceAs (Decidable (N.proposer.Counts fromUID proposalID))
  | .setActive _ | .setLeaderProposalID _ | .prepare _ | .pollLiveness .. | .receiveHeartbeat ..
  | .pulse _ | .acquireLeadership _ | .receivePrepare .. | .receivePrepareNACK ..
  | .receiveAcceptNACK .. => isFalse not_false

instance (N : PaxosNode) (call : NodeCall) : Decidable (N.KeepsBallot call) :=
  inferInstanceAs (Decidable (_ → _))

/-- A call tells the truth about the leader flag. -/
abbrev LogsLeadership (N : PaxosNode) (call : NodeCall) : Prop :=
  machine.Logs not id isLeader leadership N call

/-- A call without notices logs the leadership exactly if it does not change it. -/
theorem logsLeadership_of_silent {N : PaxosNode} {call : NodeCall}
    (h : (machine.emits N call).filterMap leadership = []) :
    N.LogsLeadership call ↔ N.isLeader = (machine.next N call).isLeader := by
  rw [LogsLeadership, Machine.Logs, h, connects_nil]

/-- A new ballot drops the leader flag without a word. -/
theorem logsLeadership_of_startsBallot {N : PaxosNode} {call : NodeCall}
    (h : N.StartsBallot call) : N.LogsLeadership call ↔ ¬N.isLeader := by
  obtain ⟨acquiring, hstep⟩ := step_of_startsBallot h
  have hsilent : (machine.emits N call).filterMap leadership = [] := by
    rw [Machine.emits, hstep]
    rfl
  have hdropped : (machine.next N call).isLeader = false := by
    rw [Machine.next, hstep]
    rfl
  rw [logsLeadership_of_silent hsilent, hdropped, Bool.not_eq_true]

/-- A call that could begin a ballot and does not leaves the leader flag. -/
theorem logsLeadership_of_not_startsBallot {N : PaxosNode} {call : NodeCall}
    (h : ¬N.StartsBallot call) (hcall : call.Contends) : N.LogsLeadership call := by
  obtain ⟨acquiring, hstep⟩ := step_of_not_startsBallot h hcall
  have hsilent : (machine.emits N call).filterMap leadership = [] := by
    rw [Machine.emits, hstep]
    rfl
  rw [logsLeadership_of_silent hsilent, Machine.next, hstep]
  cases call with
  | receivePrepareNACK u p id => exact (N.proposer.observeProposal_leader u id).symm
  | _ => rfl

/-- A heartbeat that ends the leadership is noted. -/
theorem logsLeadership_receiveHeartbeat (N : PaxosNode) (now : UInt64) (uid : Str)
    (id : ProposalID) : N.LogsLeadership (.receiveHeartbeat now uid id) := by
  simp only [LogsLeadership, Machine.Logs, Machine.emits, Machine.next, machine, isLeader]
  rw [receiveHeartbeat_snd]
  by_cases hadopts : N.Adopts id
  · rw [if_pos hadopts, (N.receiveHeartbeat_of_adopts now uid id hadopts).2.2]
    by_cases hdemotes : N.proposer.leader ∧ uid ≠ N.proposer.proposerUID
    · rw [if_pos hdemotes, if_pos hdemotes]
      simp [List.filterMap_cons, MessengerCall.leadership, hdemotes.1, Proposer.setLeader]
    · rw [if_neg hdemotes, if_neg hdemotes]
      rfl
  · rw [if_neg hadopts, (N.receiveHeartbeat_of_not_adopts now uid id hadopts).2.2]
    rfl

/-- What a node tells about its leader flag at a promise is what its proposer tells. -/
theorem receivePromise_leadership {N : PaxosNode} {u : Str} {p r : ProposalID} {w : Str}
    {P : Proposer} {sent : List MessengerCall} (hP : N.proposer.receivePromise u p r w = (P, sent))
    (now : UInt64) :
    (N.receivePromise now u p r w).1.isLeader = P.leader ∧
      (N.receivePromise now u p r w).2.filterMap leadership = sent.filterMap leadership := by
  rw [N.receivePromise_eq now u p r w hP]
  split_ifs
  · refine ⟨by rw [isLeader, pulse_proposer]; rfl, ?_⟩
    rw [List.filterMap_append, List.filterMap_append, pulse_leadership, List.append_nil]
    exact List.append_nil _
  · exact ⟨rfl, rfl⟩

/-- A promise is logged rightly exactly if it is not counted by a leader. -/
theorem logsLeadership_receivePromise_iff {N : PaxosNode} (h : N.proposer.Elected) (now : UInt64)
    (u : Str) (p r : ProposalID) (w : Str) :
    N.LogsLeadership (.receivePromise now u p r w) ↔ (N.isLeader → ¬N.proposer.Counts u p) := by
  simp only [LogsLeadership, Machine.Logs, Machine.emits, Machine.next, machine]
  rcases N.proposer.receivePromise_cases u p r w with
    ⟨hignored, heq⟩ | ⟨hcounts, hshort, heq⟩ | ⟨hcounts, hquorum, heq⟩
  · obtain ⟨hleader, hsent⟩ := receivePromise_leadership heq now
    rw [hleader, hsent]
    exact iff_of_true (N.proposer.observeProposal_leader u p).symm fun _ => hignored
  · obtain ⟨hleader, hsent⟩ := receivePromise_leadership heq now
    rw [hleader, hsent]
    refine iff_of_true ?_ fun hleads => ?_
    · simp [isLeader]
    · have hheld := (h hleads).trans (Finset.card_le_card (Finset.subset_insert u _))
      omega
  · obtain ⟨hleader, hsent⟩ := receivePromise_leadership heq now
    have hnotice : ∀ rest : List MessengerCall, rest.filterMap leadership = [] →
        (onLeadershipAcquired :: rest).filterMap leadership = [true] := by
      intro rest hrest
      simp [MessengerCall.leadership, hrest]
    rw [hleader, hsent, hnotice _ (by split_ifs <;> rfl)]
    simp [hcounts]

/-- A call tells the truth about the leader flag exactly if a leader stays with its ballot. -/
theorem logsLeadership_iff {N : PaxosNode} (h : N.proposer.Elected) (call : NodeCall) :
    N.LogsLeadership call ↔ N.KeepsBallot call := by
  by_cases hstarts : N.StartsBallot call
  · rw [logsLeadership_of_startsBallot hstarts]
    exact ⟨fun hfollows hleads => absurd hleads hfollows,
      fun hkeeps hleads => (hkeeps hleads).1 hstarts⟩
  cases call with
  | receivePromise now u p r w =>
    rw [logsLeadership_receivePromise_iff h now u p r w]
    exact ⟨fun hcounts hleads => ⟨hstarts, hcounts hleads⟩, fun hkeeps hleads => (hkeeps hleads).2⟩
  | setActive | setLeaderProposalID => exact iff_of_true rfl fun _ => ⟨hstarts, not_false⟩
  | prepare increment =>
    obtain rfl : increment = false := Bool.not_eq_true _ |>.mp hstarts
    refine iff_of_true ?_ fun _ => ⟨hstarts, not_false⟩
    refine (logsLeadership_of_silent ?_).mpr rfl
    simp only [Machine.emits, machine, prepare, Proposer.prepare]
    split_ifs <;> rfl
  | receivePrepare now u p =>
    refine iff_of_true ?_ fun _ => ⟨hstarts, not_false⟩
    have hsilent := receivePrepare_silent leadership_of_isMessage N now u p
    exact (logsLeadership_of_silent hsilent).mpr rfl
  | receiveHeartbeat now uid id =>
    exact iff_of_true (N.logsLeadership_receiveHeartbeat now uid id) fun _ => ⟨hstarts, not_false⟩
  | pulse now =>
    refine iff_of_true ?_ fun _ => ⟨hstarts, not_false⟩
    have hsilent : (machine.emits N (.pulse now)).filterMap leadership = [] :=
      N.pulse_leadership now
    refine (logsLeadership_of_silent hsilent).mpr ?_
    exact congrArg Proposer.leader (N.pulse_proposer now).symm
  | pollLiveness | acquireLeadership | receivePrepareNACK =>
    exact iff_of_true (logsLeadership_of_not_startsBallot hstarts trivial)
      fun _ => ⟨hstarts, not_false⟩
  | receiveAcceptNACK u p id =>
    refine iff_of_true ?_ fun _ => ⟨hstarts, not_false⟩
    simp only [LogsLeadership, Machine.Logs, Machine.emits, Machine.next, machine,
      receiveAcceptNACK_eq, isLeader]
    split_ifs with hdown
    · simp [List.filterMap_cons, MessengerCall.leadership, hdown.1, Proposer.setLeader]
    · simp

/-- **Notices of leadership.** In a run of a node that does not lead at the start, the notices
alternate and the latest one is true exactly if a leader always stays with its ballot. -/
theorem leadershipAnnounced_iff {N : PaxosNode} (hfollower : N.isLeader = false)
    {calls : List NodeCall} :
    N.LeadershipAnnounced calls ↔ machine.Admits KeepsBallot N calls := by
  have helected : N.proposer.Elected := by
    intro hleader
    rw [isLeader, hleader] at hfollower
    cases hfollower
  have hlogs : machine.Admits KeepsBallot N calls ↔ machine.Admits LogsLeadership N calls :=
    Machine.admits_congr helected (fun _ call hI => elected_next hI call)
      fun _ call hI => (logsLeadership_iff hI call).symm
  rw [hlogs, Machine.admits_logs_iff]
  simp only [connects_not_iff, hfollower]
  constructor
  · intro h pre hpre
    refine ⟨?_, h.latest pre hpre⟩
    obtain ⟨post, rfl⟩ := hpre
    have hchain := h.alternates
    rw [Machine.trace_append, List.filterMap_append, ← List.cons_append] at hchain
    exact hchain.left_of_append
  · intro h
    exact ⟨(h calls List.prefix_rfl).1, fun pre hpre => (h pre hpre).2⟩

/-- A is elected, pulses and steps down for B. -/
theorem leadershipAnnounced_iff_demoted :
    nodeA.LeadershipAnnounced (electedNode ++ [.pulse 0, .receiveHeartbeat 0 [66] ⟨5, [66]⟩]) :=
  (leadershipAnnounced_iff rfl).mpr (by decide)

/-- With a quorum size of 2, the promises of three acceptors tell the owner twice that the node has
acquired the leadership. -/
theorem acquired_twice_after_late_promise :
    nodeA.isLeader = false ∧
      ¬nodeA.LeadershipAnnounced (electedNode ++ [.receivePromise 0 [51] ⟨1, [65]⟩ .empty []]) := by
  refine ⟨rfl, fun h => ?_⟩
  exact absurd h.alternates (by decide)

/-! ### Changes of the acknowledged leader -/

/-- The owner learns of every change of the acknowledged leader, whom the node acknowledged before
the handler and whom after it. -/
structure ChangesLogged (N : PaxosNode) (calls : List NodeCall) : Prop where
  faithful : ∀ pre call, pre ++ [call] <+: calls → ∀ previous new,
    onLeadershipChange previous new ∈ machine.emits (machine.run N pre) call →
      previous = (machine.run N pre).leaderUID ∧
        new = (machine.next (machine.run N pre) call).leaderUID
  chained : ((machine.trace N calls).filterMap leaderChange).IsChain fun x y => x.2 = y.1
  complete : ∀ pre call, pre ++ [call] <+: calls →
    (machine.next (machine.run N pre) call).leaderUID ≠ (machine.run N pre).leaderUID →
      ∃ previous new, onLeadershipChange previous new ∈ machine.emits (machine.run N pre) call

/-- Where a handler names the node itself as the previous leader, the node acknowledges itself: when
it acknowledges nobody and a promise finds or makes it a leader, and when it steps down. -/
def NamesPrevious (N : PaxosNode) : NodeCall → Prop
  | .receivePromise _ u p _ _ =>
    N.leaderUID = [] →
      (N.isLeader ∨ N.proposer.Counts u p ∧
        N.proposer.quorumSize ≤ (insert u N.proposer.promisesReceived).card) →
      N.proposer.proposerUID = N.leaderUID
  | .receiveAcceptNACK u p id => N.StepsDown u p id → N.proposer.proposerUID = N.leaderUID
  | _ => True

instance (N : PaxosNode) : DecidablePred N.NamesPrevious
  | .receivePromise .. => inferInstanceAs (Decidable (_ → _ → _))
  | .receiveAcceptNACK .. => inferInstanceAs (Decidable (_ → _))
  | .setActive _ | .setLeaderProposalID _ | .prepare _ | .pollLiveness .. | .receiveHeartbeat ..
  | .pulse _ | .acquireLeadership _ | .receivePrepare .. | .receivePrepareNACK .. => isTrue trivial

/-- The changes of the acknowledged leader that a call reports. -/
abbrev changes (N : PaxosNode) (call : NodeCall) : List (Str × Str) :=
  (machine.emits N call).filterMap leaderChange

/-- The call reports no change and makes none, or reports the change it makes. A promise may report
twice that an acknowledged leader stays. -/
def ReportsChange (N : PaxosNode) (call : NodeCall) : Prop :=
  (N.changes call = [] ∧ (machine.next N call).leaderUID = N.leaderUID) ∨
    N.changes call = [(N.leaderUID, (machine.next N call).leaderUID)] ∨
      N.changes call = [(N.leaderUID, N.leaderUID), (N.leaderUID, N.leaderUID)] ∧
        (machine.next N call).leaderUID = N.leaderUID

/-- The report is a log entry from the old leader to the new one. -/
theorem ReportsChange.logs {N : PaxosNode} {call : NodeCall} (h : N.ReportsChange call) :
    machine.Logs Prod.fst Prod.snd leaderUID leaderChange N call := by
  change Connects Prod.fst Prod.snd N.leaderUID (N.changes call) _
  rcases h with ⟨hnone, hsame⟩ | hone | ⟨htwo, hsame⟩
  · rw [hnone, hsame, connects_nil]
  · rw [hone, connects_cons, connects_nil]
    exact ⟨rfl, rfl⟩
  · rw [htwo, hsame]
    exact ⟨rfl, rfl, rfl⟩

/-- Its report names both. -/
theorem ReportsChange.faithful {N : PaxosNode} {call : NodeCall} (h : N.ReportsChange call)
    {previous new : Str} (hsent : onLeadershipChange previous new ∈ machine.emits N call) :
    previous = N.leaderUID ∧ new = (machine.next N call).leaderUID := by
  have hmem : (previous, new) ∈ N.changes call := List.mem_filterMap.mpr ⟨_, hsent, rfl⟩
  rcases h with ⟨hnone, -⟩ | hone | ⟨htwo, hsame⟩
  · rw [hnone] at hmem
    cases hmem
  · rw [hone, List.mem_singleton] at hmem
    exact Prod.mk.inj hmem
  · have heq : (previous, new) = (N.leaderUID, N.leaderUID) := by simpa [htwo] using hmem
    rw [hsame]
    exact Prod.mk.inj heq

/-- A proposer reports nothing about the acknowledged leader. -/
theorem proposer_silent (P : Proposer) (call : ProposerCall) :
    (Proposer.machine.emits P call).filterMap leaderChange = [] := by
  refine List.filterMap_eq_nil_iff.mpr fun m hm => ?_
  rcases Proposer.emits_cases hm with ⟨p, rfl⟩ | ⟨p, v, rfl⟩ | rfl <;> rfl

/-- A node that acknowledges itself still does after a pulse, which reports no other leader. -/
theorem pulse_acknowledgeSelf (N : PaxosNode) {P : Proposer} (hleader : P.leader) (now : UInt64) :
    ((N.acknowledgeSelf P).pulse now).1.leaderUID = P.proposerUID ∧
      (((N.acknowledgeSelf P).pulse now).2.filterMap leaderChange = [] ∨
        ((N.acknowledgeSelf P).pulse now).2.filterMap leaderChange =
          [(P.proposerUID, P.proposerUID)]) := by
  have hself : (N.acknowledgeSelf P).proposer.leader := hleader
  rw [pulse_of_leader hself, pulse_snd_of_leader hself]
  by_cases hadopts : (N.acknowledgeSelf P).Adopts (N.acknowledgeSelf P).proposer.proposalID
  · rw [if_pos hadopts]
    exact ⟨(receiveHeartbeat_of_adopts _ now _ _ hadopts).1, Or.inr rfl⟩
  · rw [if_neg hadopts]
    exact ⟨(receiveHeartbeat_of_not_adopts _ now _ _ hadopts).1, Or.inl rfl⟩

/-- A heartbeat reports the change that it makes. -/
theorem reportsChange_receiveHeartbeat (N : PaxosNode) (now : UInt64) (uid : Str)
    (id : ProposalID) : N.ReportsChange (.receiveHeartbeat now uid id) := by
  simp only [ReportsChange, changes, Machine.emits, Machine.next, machine]
  rw [receiveHeartbeat_snd]
  by_cases hadopts : N.Adopts id
  · rw [if_pos hadopts, (N.receiveHeartbeat_of_adopts now uid id hadopts).1]
    refine Or.inr (Or.inl ?_)
    split_ifs <;> rfl
  · rw [if_neg hadopts, (N.receiveHeartbeat_of_not_adopts now uid id hadopts).1]
    exact Or.inl ⟨rfl, rfl⟩

/-- So does a pulse, in which a leader hears its own heartbeat. -/
theorem reportsChange_pulse (N : PaxosNode) (now : UInt64) : N.ReportsChange (.pulse now) := by
  simp only [ReportsChange, changes, Machine.emits, Machine.next, machine]
  by_cases hleader : N.proposer.leader
  · rw [pulse_of_leader hleader, pulse_snd_of_leader hleader]
    by_cases hadopts : N.Adopts N.proposer.proposalID
    · rw [if_pos hadopts, (N.receiveHeartbeat_of_adopts now _ _ hadopts).1]
      exact Or.inr (Or.inl rfl)
    · rw [if_neg hadopts, (N.receiveHeartbeat_of_not_adopts now _ _ hadopts).1]
      exact Or.inl ⟨rfl, rfl⟩
  · rw [pulse_of_not_leader hleader, pulse_snd_of_not_leader hleader]
    exact Or.inl ⟨rfl, rfl⟩

/-- A promise reports a change exactly if the node has acknowledged nobody and leads after it; the
previous leader reported is then the node itself. -/
theorem changes_receivePromise (N : PaxosNode) (now : UInt64) (u : Str) (p r : ProposalID)
    (w : Str) :
    if N.leaderUID = [] ∧ (N.proposer.receivePromise u p r w).1.leader then
      (N.receivePromise now u p r w).1.leaderUID = N.proposer.proposerUID ∧
        (N.changes (.receivePromise now u p r w) =
            [(N.proposer.proposerUID, N.proposer.proposerUID)] ∨
          N.changes (.receivePromise now u p r w) =
            [(N.proposer.proposerUID, N.proposer.proposerUID),
              (N.proposer.proposerUID, N.proposer.proposerUID)])
    else
      (N.receivePromise now u p r w).1.leaderUID = N.leaderUID ∧
        N.changes (.receivePromise now u p r w) = [] := by
  have hsilent : (N.proposer.receivePromise u p r w).2.filterMap leaderChange = [] :=
    proposer_silent N.proposer (.receivePromise u p r w)
  have huid : (N.proposer.receivePromise u p r w).1.proposerUID = N.proposer.proposerUID :=
    N.proposer.next_proposerUID (.receivePromise u p r w)
  have heq := N.receivePromise_eq now u p r w Prod.mk.eta.symm
  simp only [changes, Machine.emits, machine]
  split_ifs with hself
  · rw [heq, if_pos hself]
    obtain ⟨hleader, hchanges⟩ := N.pulse_acknowledgeSelf hself.2 now
    simp only [hleader, huid, List.filterMap_append, hsilent, List.nil_append] at hchanges ⊢
    refine ⟨trivial, hchanges.imp (fun h => ?_) fun h => ?_⟩
    · rw [h]
      rfl
    · rw [h]
      rfl
  · rw [heq, if_neg hself]
    exact ⟨rfl, hsilent⟩

/-- A handler reports the change that it makes, wherever it names the previous leader rightly. -/
theorem reportsChange_of_namesPrevious {N : PaxosNode} {call : NodeCall}
    (h : N.NamesPrevious call) : N.ReportsChange call := by
  by_cases hstarts : N.StartsBallot call
  · obtain ⟨acquiring, hstep⟩ := step_of_startsBallot hstarts
    refine Or.inl ⟨?_, ?_⟩
    · rw [changes, Machine.emits, hstep]
      rfl
    · rw [Machine.next, hstep]
      rfl
  cases call with
  | setActive | setLeaderProposalID => exact Or.inl ⟨rfl, rfl⟩
  | prepare increment =>
    refine Or.inl ⟨?_, rfl⟩
    simp only [changes, Machine.emits, machine, prepare, Proposer.prepare]
    split_ifs <;> rfl
  | receivePrepare now u p =>
    exact Or.inl ⟨receivePrepare_silent leaderChange_of_isMessage N now u p, rfl⟩
  | receiveHeartbeat now uid id => exact N.reportsChange_receiveHeartbeat now uid id
  | pulse now => exact N.reportsChange_pulse now
  | pollLiveness | acquireLeadership | receivePrepareNACK =>
    obtain ⟨acquiring, hstep⟩ := step_of_not_startsBallot hstarts trivial
    refine Or.inl ⟨?_, ?_⟩
    · rw [changes, Machine.emits, hstep]
      rfl
    · rw [Machine.next, hstep]
  | receivePromise now u p r w =>
    have hchanges := N.changes_receivePromise now u p r w
    split_ifs at hchanges with hself
    · have huid : N.proposer.proposerUID = N.leaderUID :=
        h hself.1 ((N.proposer.leader_receivePromise_iff u p r w).mp hself.2)
      rw [huid] at hchanges
      rcases hchanges.2 with hone | htwo
      · exact Or.inr (Or.inl (hone.trans (by rw [← hchanges.1]; rfl)))
      · exact Or.inr (Or.inr ⟨htwo, hchanges.1⟩)
    · exact Or.inl ⟨hchanges.2, hchanges.1⟩
  | receiveAcceptNACK u p id =>
    simp only [ReportsChange, changes, Machine.emits, Machine.next, machine, receiveAcceptNACK_eq]
    split_ifs with hdown
    · have huid : N.proposer.proposerUID = N.leaderUID := h hdown
      exact Or.inr (Or.inl (by rw [huid]; rfl))
    · exact Or.inl ⟨rfl, rfl⟩

/-- A handler that reports faithfully names the previous leader rightly. -/
theorem namesPrevious_of_faithful {N : PaxosNode} {call : NodeCall}
    (h : ∀ previous new, onLeadershipChange previous new ∈ machine.emits N call →
      previous = N.leaderUID ∧ new = (machine.next N call).leaderUID) : N.NamesPrevious call := by
  have hprevious : ∀ x ∈ N.changes call, x.1 = N.leaderUID := by
    intro x hx
    obtain ⟨m, hm, hentry⟩ := List.mem_filterMap.mp hx
    cases m with
    | onLeadershipChange previous new =>
      cases hentry
      exact (h previous new hm).1
    | _ => cases hentry
  cases call with
  | receivePromise now u p r w =>
    intro hnobody hleads
    have hchanges := N.changes_receivePromise now u p r w
    rw [if_pos ⟨hnobody, (N.proposer.leader_receivePromise_iff u p r w).mpr hleads⟩] at hchanges
    rcases hchanges.2 with hone | htwo
    · exact hprevious _ (by rw [hone]; exact List.mem_cons_self)
    · exact hprevious _ (by rw [htwo]; exact List.mem_cons_self)
  | receiveAcceptNACK u p id =>
    intro hdown
    refine (h N.proposer.proposerUID [] ?_).1
    simp only [Machine.emits, machine, receiveAcceptNACK_eq, if_pos hdown]
    exact List.mem_cons_of_mem _ List.mem_cons_self
  | _ => exact trivial

/-- **The log of leaders**, for every run of every node: it is faithful exactly if the handlers that
name the node itself as the previous leader are only used when it acknowledges itself. -/
theorem changesLogged_iff {N : PaxosNode} {calls : List NodeCall} :
    N.ChangesLogged calls ↔ machine.Admits NamesPrevious N calls := by
  constructor
  · intro h
    refine Machine.admits_iff_forall_prefix.mpr fun pre call hpre => ?_
    exact namesPrevious_of_faithful (h.faithful pre call hpre)
  · intro h
    have hreports : ∀ pre call, pre ++ [call] <+: calls →
        (machine.run N pre).ReportsChange call :=
      fun pre call hpre => reportsChange_of_namesPrevious (h.allowed_of_prefix hpre)
    have hlogs : machine.Admits (machine.Logs Prod.fst Prod.snd leaderUID leaderChange) N calls :=
      Machine.admits_iff_forall_prefix.mpr fun pre call hpre => (hreports pre call hpre).logs
    refine ⟨fun pre call hpre previous new => (hreports pre call hpre).faithful, ?_,
      fun pre call hpre hchanged => ?_⟩
    · exact (Machine.admits_logs_iff.mp hlogs calls List.prefix_rfl).isChain
    · by_contra hsilent
      have hnone : (machine.run N pre).changes call = [] := by
        refine List.filterMap_eq_nil_iff.mpr fun m hm => ?_
        cases m with
        | onLeadershipChange previous new => exact absurd ⟨previous, new, hm⟩ hsilent
        | _ => rfl
      have hstays := (hreports pre call hpre).logs
      change Connects _ _ _ ((machine.run N pre).changes call) _ at hstays
      rw [hnone, connects_nil] at hstays
      exact hchanged hstays.symm

/-- Two promises make the node A a leader that acknowledged nobody. It reports that A follows A. -/
theorem elected_reports_itself_as_previous : ¬nodeA.ChangesLogged electedNode := by
  intro h
  have hfirst := h.faithful [.prepare true, .receivePromise 0 [49] ⟨1, [65]⟩ .empty []]
    (.receivePromise 0 [50] ⟨1, [65]⟩ .empty []) List.prefix_rfl [65] [65] (by decide)
  exact absurd hfirst.1 (by decide)

end PaxosNode

end CppPaxos
