import CppPaxos.Library.Convergence
import CppPaxos.NodeLeadership
import Mathlib.Order.WithBot

/-!
# Heartbeats converge

What a node reports about the leadership is a register stamped with the acknowledged
ID, and the heartbeats of other leaders are writes to it. The order in which they arrive
and their repetitions make no difference in the end.
-/

namespace CppPaxos

open Machines

/-- What a heartbeat says. -/
structure Heartbeat where
  leaderUID : Str
  leaderProposalID : ProposalID
  deriving DecidableEq

/-- What a node reports about the leadership: the results of `getLeaderUID`,
`getLeaderProposalID`, `isLeader` and `isAcquiringLeadership`. -/
structure LeadershipView where
  leaderUID : Str
  leaderProposalID : ProposalID
  isLeader : Bool
  isAcquiringLeadership : Bool
  deriving DecidableEq

namespace LeadershipView

/-- The ID with which a heartbeat is compared, if there is one. -/
def stamp (V : LeadershipView) : WithBot ProposalID :=
  if V.leaderProposalID.isValid then V.leaderProposalID else ⊥

/-- The stamp orders the views as `receiveHeartbeat` compares them. -/
theorem stamp_lt_iff {V : LeadershipView} {id : ProposalID} :
    V.stamp < id ↔ ¬V.leaderProposalID.isValid ∨ V.leaderProposalID < id := by
  unfold stamp
  split_ifs with hvalid
  · simp [hvalid]
  · simp [hvalid, WithBot.bot_lt_coe]

/-- The report of a node that has adopted the leader of a heartbeat. -/
def following (beat : Heartbeat) : LeadershipView :=
  ⟨beat.leaderUID, beat.leaderProposalID, false, false⟩

/-- A heartbeat of another leader, as a write to the report. -/
def hear : LeadershipView → Heartbeat → LeadershipView :=
  write stamp (fun beat => (beat.leaderProposalID : WithBot ProposalID)) following

/-- Valid heartbeats converge, if equal IDs name the same leader. -/
theorem convergent_hear {beats : List Heartbeat}
    (hvalid : ∀ beat ∈ beats, beat.leaderProposalID.isValid)
    (hnames : ∀ beat ∈ beats, ∀ beat' ∈ beats,
      beat.leaderProposalID = beat'.leaderProposalID → beat.leaderUID = beat'.leaderUID) :
    Convergent hear beats := by
  apply convergent_write
  · intro beat hbeat
    exact if_pos (hvalid beat hbeat)
  · intro beat hbeat beat' hbeat' hsame
    have hid : beat.leaderProposalID = beat'.leaderProposalID := WithBot.coe_injective hsame
    rw [following, following, hnames beat hbeat beat' hbeat' hid, hid]

end LeadershipView

namespace PaxosNode

/-- What the node reports about the leadership. -/
def leadershipView (N : PaxosNode) : LeadershipView :=
  ⟨N.leaderUID, N.leaderProposalID, N.isLeader, N.acquiringLeadership⟩

/-- The calls for heartbeats that are received at given times. -/
def heartbeatCalls (beats : List (UInt64 × Heartbeat)) : List NodeCall :=
  beats.map fun beat => .receiveHeartbeat beat.1 beat.2.leaderUID beat.2.leaderProposalID

/-- A heartbeat that is adopted ends the attempt to lead. -/
theorem receiveHeartbeat_acquiringLeadership (N : PaxosNode) (now : UInt64) (uid : Str)
    (id : ProposalID) :
    (N.receiveHeartbeat now uid id).1.acquiringLeadership =
      if N.Adopts id then false else N.acquiringLeadership := by
  by_cases hadopts : N.Adopts id
  · rw [N.receiveHeartbeat_eq_of_adopts now uid id hadopts, if_pos hadopts]
  · rw [N.receiveHeartbeat_eq_of_not_adopts now uid id hadopts, if_neg hadopts]

/-- The report of a node is updated by a heartbeat of another leader as a register is by a write. -/
theorem leadershipView_receiveHeartbeat {N : PaxosNode} {beat : Heartbeat}
    (hother : beat.leaderUID ≠ N.proposer.proposerUID) (now : UInt64) :
    (N.receiveHeartbeat now beat.leaderUID beat.leaderProposalID).1.leadershipView =
      N.leadershipView.hear beat := by
  have hacquiring := N.receiveHeartbeat_acquiringLeadership now beat.leaderUID beat.leaderProposalID
  have hstamp : N.leadershipView.stamp < beat.leaderProposalID ↔ N.Adopts beat.leaderProposalID :=
    LeadershipView.stamp_lt_iff
  unfold LeadershipView.hear write
  by_cases hadopts : N.Adopts beat.leaderProposalID
  · obtain ⟨huid, hid, hproposer⟩ := N.receiveHeartbeat_of_adopts now beat.leaderUID _ hadopts
    rw [if_pos (hstamp.mpr hadopts)]
    rw [if_pos hadopts] at hacquiring
    have hdemoted :
        (N.receiveHeartbeat now beat.leaderUID beat.leaderProposalID).1.isLeader = false := by
      rw [isLeader, hproposer]
      split_ifs with hleads
      · simp [Proposer.setLeader]
      · simpa [hother] using hleads
    rw [leadershipView, huid, hid, hdemoted, hacquiring]
    rfl
  · obtain ⟨huid, hid, hproposer⟩ := N.receiveHeartbeat_of_not_adopts now beat.leaderUID _ hadopts
    rw [if_neg (mt hstamp.mp hadopts)]
    rw [if_neg hadopts] at hacquiring
    rw [leadershipView, huid, hid, isLeader, hproposer, hacquiring]
    rfl

/-- A heartbeat leaves the UID of the proposer. -/
theorem receiveHeartbeat_proposerUID (N : PaxosNode) (now : UInt64) (uid : Str)
    (id : ProposalID) :
    (N.receiveHeartbeat now uid id).1.proposer.proposerUID = N.proposer.proposerUID := by
  by_cases hadopts : N.Adopts id
  · rw [(N.receiveHeartbeat_of_adopts now uid id hadopts).2.2]
    split_ifs
    · simp [Proposer.setLeader]
    · rfl
  · rw [(N.receiveHeartbeat_of_not_adopts now uid id hadopts).2.2]

/-- A run of heartbeats of other leaders is a list of writes. -/
theorem leadershipView_run {N : PaxosNode} {beats : List (UInt64 × Heartbeat)}
    (hothers : ∀ beat ∈ beats.map Prod.snd, beat.leaderUID ≠ N.proposer.proposerUID) :
    (machine.run N (heartbeatCalls beats)).leadershipView =
      (beats.map Prod.snd).foldl LeadershipView.hear N.leadershipView := by
  induction beats generalizing N with
  | nil => rfl
  | cons beat beats ih =>
    obtain ⟨now, beat⟩ := beat
    obtain ⟨hother, hrest⟩ := List.forall_mem_cons.mp hothers
    have huid := N.receiveHeartbeat_proposerUID now beat.leaderUID beat.leaderProposalID
    have hstep := leadershipView_receiveHeartbeat hother now
    rw [List.map_cons, List.foldl_cons, ← hstep]
    exact ih fun beat' hbeat' hself => hrest beat' hbeat' (hself.trans huid)

/-- **Heartbeats converge.** Two sequences with the same heartbeats of other leaders, received in
any order, at any times and any number of times, end with the same report. -/
theorem heartbeats_converge {N : PaxosNode} {beats beats' : List (UInt64 × Heartbeat)}
    (hsame : ∀ beat, beat ∈ beats.map Prod.snd ↔ beat ∈ beats'.map Prod.snd)
    (hvalid : ∀ beat ∈ beats.map Prod.snd, beat.leaderProposalID.isValid)
    (hnames : ∀ beat ∈ beats.map Prod.snd, ∀ beat' ∈ beats.map Prod.snd,
      beat.leaderProposalID = beat'.leaderProposalID → beat.leaderUID = beat'.leaderUID)
    (hothers : ∀ beat ∈ beats.map Prod.snd, beat.leaderUID ≠ N.proposer.proposerUID) :
    (machine.run N (heartbeatCalls beats)).leadershipView =
      (machine.run N (heartbeatCalls beats')).leadershipView := by
  have hothers' : ∀ beat ∈ beats'.map Prod.snd, beat.leaderUID ≠ N.proposer.proposerUID :=
    fun beat hbeat => hothers beat ((hsame beat).mpr hbeat)
  rw [leadershipView_run hothers, leadershipView_run hothers']
  exact (LeadershipView.convergent_hear hvalid hnames).foldl_eq hsame _

/-- The heartbeats of two leaders, in both orders and with a duplicate. -/
theorem heartbeats_converge_twoLeaders :
    (machine.run (machine.run nodeA electedNode) (heartbeatCalls
      [(1, ⟨[66], ⟨5, [66]⟩⟩), (2, ⟨[67], ⟨6, [67]⟩⟩)])).leadershipView =
    (machine.run (machine.run nodeA electedNode) (heartbeatCalls
      [(1, ⟨[67], ⟨6, [67]⟩⟩), (2, ⟨[66], ⟨5, [66]⟩⟩), (3, ⟨[66], ⟨5, [66]⟩⟩)])).leadershipView :=
  heartbeats_converge (by simp [or_comm]) (by decide) (by decide) (by decide)

end PaxosNode

end CppPaxos
