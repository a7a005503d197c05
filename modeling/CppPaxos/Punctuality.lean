import CppPaxos.PulseTimer
import Mathlib.Data.List.Chain
import Mathlib.Data.List.Range

/-!
# A punctual leader and a follower that listens

The pulse timer waits for ten thousand milliseconds. A follower waits for a hundred
thousand microseconds, which is a hundredth of that. So it presumes a leader dead between
any two heartbeats, except while the clock in milliseconds still reads zero: a timer takes
zero for never.
-/

namespace CppPaxos

open Machines MessengerCall

/-- One reading of the clock in microseconds is at most a millisecond after another. -/
theorem withinMillisecond_iff {t u : UInt64} :
    t ≤ u ∧ u - t ≤ 1000 ↔ t.toNat ≤ u.toNat ∧ u.toNat ≤ t.toNat + 1000 := by
  have hbound : (1000 : UInt64).toNat = 1000 := rfl
  rw [UInt64.le_iff_toNat_le]
  refine and_congr_right fun h => ?_
  rw [UInt64.le_iff_toNat_le, UInt64.toNat_sub_of_le _ _ (UInt64.le_iff_toNat_le.mpr h), hbound]
  omega

/-- One check of the timers. The pulse timer reads the clock in milliseconds at `read`; if it is
due, it sends a heartbeat at `sent`, when the clock is read in microseconds. -/
structure Check where
  read : UInt64
  sent : UInt64
  read_le_sent : read ≤ sent
  /-- The next check could not begin within the millisecond otherwise. -/
  prompt : sent - read ≤ 1000

namespace Check

/-- A check that takes no time. -/
def atInstant (t : UInt64) : Check := ⟨t, t, UInt64.le_refl t, by simp⟩

/-- What the clock functions return. -/
def clock (c : Check) : ℕ → Reading := fun _ => ⟨c.read / 1000, c.sent⟩

/-- The timer reads the clock before the heartbeat is sent. -/
theorem read_le (c : Check) : c.read.toNat ≤ c.sent.toNat :=
  UInt64.le_iff_toNat_le.mp c.read_le_sent

/-- The heartbeat is sent within a millisecond. -/
theorem sent_le (c : Check) : c.sent.toNat ≤ c.read.toNat + 1000 :=
  (withinMillisecond_iff.mp ⟨c.read_le_sent, c.prompt⟩).2

end Check

namespace Check

/-- The check finds the pulse timer due, if it has fired last at `fired`. -/
def IsDue (fired : UInt64) (c : Check) : Prop := Server.PulseIsDue (fired / 1000) (c.read / 1000)

/-- Milliseconds from microseconds. -/
theorem toNat_div_thousand (t : UInt64) : (t / 1000).toNat = t.toNat / 1000 :=
  UInt64.toNat_div t 1000

/-- The end of the period does not overflow. -/
theorem toNat_div_add_period (t : UInt64) : (t / 1000 + 10000).toNat = t.toNat / 1000 + 10000 := by
  have ht := t.toNat_lt
  have hperiod : (10000 : UInt64).toNat = 10000 := rfl
  rw [UInt64.toNat_add, toNat_div_thousand, hperiod]
  omega

/-- When the timer fires, in natural numbers. -/
theorem isDue_iff {fired : UInt64} {c : Check} :
    c.IsDue fired ↔
      fired.toNat < 1000 ∨ fired.toNat / 1000 + 10000 < c.read.toNat / 1000 := by
  have hzero : fired / 1000 = 0 ↔ fired.toNat < 1000 := by
    rw [← UInt64.toNat_inj, toNat_div_thousand, UInt64.toNat_zero]
    omega
  rw [IsDue, Server.PulseIsDue, hzero, UInt64.lt_iff_toNat_lt, toNat_div_add_period,
    toNat_div_thousand]

/-- Before a check that is more than the period later, there is an instant at which the heartbeat of
the earlier check is too old. -/
theorem exists_tooOld {c d : Check}
    (hlate : c.read.toNat / 1000 + 10000 < d.read.toNat / 1000) :
    ∃ t, c.sent ≤ t ∧ t < d.sent ∧ c.sent.toNat + 100000 < t.toNat := by
  have hcsent := c.sent_le
  have hdsent := d.read_le
  have hbound := d.sent.toNat_lt
  have hgap : (100001 : UInt64).toNat = 100001 := rfl
  have hinstant : (c.sent + 100001).toNat = c.sent.toNat + 100001 := by
    rw [UInt64.toNat_add, hgap]
    omega
  refine ⟨c.sent + 100001, ?_, ?_, by omega⟩
  · rw [UInt64.le_iff_toNat_le]
    omega
  · rw [UInt64.lt_iff_toNat_lt]
    omega

end Check

/-- The checks follow each other, and one begins at most a millisecond after the one before. -/
def Punctual (checks : List Check) : Prop :=
  checks.IsChain fun c d => c.sent ≤ d.read ∧ d.read - c.read ≤ 1000

instance : DecidablePred Punctual := fun checks =>
  inferInstanceAs (Decidable (checks.IsChain _))

/-- No check is more than the period of the pulse timer after another one, unless the clock in
milliseconds read zero at that. -/
def EndsWithinPeriod (checks : List Check) : Prop :=
  ∀ c ∈ checks, ∀ d ∈ checks, 1000 ≤ c.read → d.read / 1000 ≤ c.read / 1000 + 10000

instance : DecidablePred EndsWithinPeriod := fun checks =>
  inferInstanceAs (Decidable (∀ c ∈ checks, ∀ d ∈ checks, _ → _))

/-- The node acknowledges the other one by its valid ID. -/
def PaxosNode.Acknowledges (N leader : PaxosNode) : Prop :=
  N.leaderProposalID.isValid ∧ N.leaderProposalID = leader.getMyProposalID

/-- A server, and a node that gets its heartbeats. -/
structure Watch where
  leader : Server
  follower : PaxosNode

namespace Watch

/-- The delivery of a message to the follower. -/
def deliver (now : UInt64) (N : PaxosNode) : MessengerCall → PaxosNode
  | sendHeartbeat uid id => (N.receiveHeartbeat now uid id).1
  | _ => N

/-- The leader checks its timers; what it sends is delivered at once. -/
def machine : Machine Watch Check MessengerCall where
  step W c :=
    let (leader, sent) := W.leader.checkTimer c.clock
    (⟨leader, sent.foldl (deliver c.sent) W.follower⟩, sent)

/-- The checks send a heartbeat. -/
def Beats (W : Watch) (checks : List Check) : Prop :=
  ∃ uid id, sendHeartbeat uid id ∈ machine.trace W checks

/-- At every instant between one heartbeat and the next, the follower takes the leader to be
alive. -/
def AliveBetween (W : Watch) (checks : List Check) : Prop :=
  ∀ pre c mid d, pre ++ c :: mid ++ [d] <+: checks →
    (machine.run W pre).Beats [c] → ¬(machine.run W (pre ++ [c])).Beats mid →
      (machine.run W (pre ++ c :: mid)).Beats [d] →
        ∀ t, c.sent ≤ t → t < d.sent →
          (machine.run W (pre ++ c :: mid)).follower.isLeaderAlive t

/-- The pulse timer of the server built around `B` has fired last at `fired`, and the follower `F`
has heard of that at `heard`. -/
structure Tracks (B F : PaxosNode) (fired heard : UInt64) (W : Watch) : Prop where
  timers : ∃ ping status copy,
    W.leader.timerManager = Server.timers ping (fired / 1000) status copy ∧
      copy.proposer = B.proposer
  follower : W.follower = { F with lastHeartbeatTimestamp := heard }

/-! ### What one check does -/

/-- A heartbeat is sent at the first check or later. -/
theorem beats_cons {W : Watch} {c : Check} {checks : List Check} :
    W.Beats (c :: checks) ↔ W.Beats [c] ∨ (machine.next W c).Beats checks := by
  simp only [Beats, Machine.trace_cons, Machine.trace_nil, List.append_nil, List.mem_append,
    exists_or]

/-- Without a check no heartbeat is sent. -/
theorem not_beats_nil (W : Watch) : ¬W.Beats [] := by
  rintro ⟨uid, id, h⟩
  cases h

/-- The follower of a leader that sends its heartbeat notes the time. -/
theorem deliver_pulse {B F copy : PaxosNode} (hleader : B.isLeader) (hack : F.Acknowledges B)
    (hcopy : copy.proposer = B.proposer) (us now heard : UInt64) :
    (copy.pulse us).2.foldl (deliver now) { F with lastHeartbeatTimestamp := heard } =
      { F with lastHeartbeatTimestamp := now } := by
  have hcopyLeads : copy.proposer.leader := by
    rw [hcopy]
    exact hleader
  have hheard : ({ F with lastHeartbeatTimestamp := heard }.receiveHeartbeat now
      copy.proposer.proposerUID copy.proposer.proposalID).1 =
        { F with lastHeartbeatTimestamp := now } := by
    obtain ⟨hvalid, hid⟩ := hack
    have hsame : copy.proposer.proposalID = F.leaderProposalID := by
      rw [hcopy, hid, PaxosNode.getMyProposalID]
    rw [hsame, PaxosNode.receiveHeartbeat]
    simp [hvalid]
  rw [PaxosNode.pulse_snd_of_leader hcopyLeads, List.foldl_append]
  split_ifs <;> exact hheard

section Tracks

variable {B F : PaxosNode} {fired heard : UInt64} {W : Watch}

/-- A check that finds the timer due sends a heartbeat, which the follower hears. -/
theorem Tracks.next_of_isDue (h : Tracks B F fired heard W) (hleader : B.isLeader)
    (hack : F.Acknowledges B) {c : Check} (hdue : c.IsDue fired) :
    Tracks B F c.read c.sent (machine.next W c) ∧ W.Beats [c] := by
  obtain ⟨⟨ping, status, copy, htimers, hcopy⟩, hfollower⟩ := h
  obtain ⟨ping', status', hcheck⟩ :=
    Server.checkTimer_timers ping (fired / 1000) status copy c.clock
  have hpulse : Server.PulseIsDue (fired / 1000) (c.clock 1).ms := hdue
  rw [if_pos hpulse] at hcheck
  have hstep : machine.step W c =
      (⟨⟨W.leader.paxosNode, Server.timers ping' (c.read / 1000) status' (copy.pulse c.sent).1⟩,
        { F with lastHeartbeatTimestamp := c.sent }⟩, (copy.pulse c.sent).2) := by
    simp only [machine, Server.checkTimer, htimers, hcheck, hfollower]
    rw [deliver_pulse hleader hack hcopy]
    rfl
  refine ⟨⟨?_, ?_⟩, ?_⟩
  · rw [Machine.next, hstep]
    exact ⟨ping', status', _, rfl, (copy.pulse_proposer _).trans hcopy⟩
  · rw [Machine.next, hstep]
  · have hcopyLeads : copy.proposer.leader := by
      rw [hcopy]
      exact hleader
    refine ⟨copy.proposer.proposerUID, copy.proposer.proposalID, ?_⟩
    rw [Machine.trace_cons, Machine.emits, hstep, PaxosNode.pulse_snd_of_leader hcopyLeads]
    simp

/-- Any other check changes nothing. -/
theorem Tracks.next_of_not_isDue (h : Tracks B F fired heard W) {c : Check}
    (hdue : ¬c.IsDue fired) :
    Tracks B F fired heard (machine.next W c) ∧ ¬W.Beats [c] := by
  obtain ⟨⟨ping, status, copy, htimers, hcopy⟩, hfollower⟩ := h
  obtain ⟨ping', status', hcheck⟩ :=
    Server.checkTimer_timers ping (fired / 1000) status copy c.clock
  have hpulse : ¬Server.PulseIsDue (fired / 1000) (c.clock 1).ms := hdue
  rw [if_neg hpulse] at hcheck
  have hstep : machine.step W c =
      (⟨⟨W.leader.paxosNode, Server.timers ping' (fired / 1000) status' copy⟩, W.follower⟩,
        []) := by
    simp only [machine, Server.checkTimer, htimers, hcheck, List.foldl_nil]
  refine ⟨⟨?_, ?_⟩, ?_⟩
  · rw [Machine.next, hstep]
    exact ⟨ping', status', copy, rfl, hcopy⟩
  · rw [Machine.next, hstep]
    exact hfollower
  · rintro ⟨uid, id, hmem⟩
    rw [Machine.trace_cons, Machine.emits, hstep] at hmem
    cases hmem

/-- A heartbeat is sent exactly if the timer is due. -/
theorem Tracks.beats_singleton_iff (h : Tracks B F fired heard W) (hleader : B.isLeader)
    (hack : F.Acknowledges B) {c : Check} : W.Beats [c] ↔ c.IsDue fired := by
  by_cases hdue : c.IsDue fired
  · exact iff_of_true (h.next_of_isDue hleader hack hdue).2 hdue
  · exact iff_of_false (h.next_of_not_isDue hdue).2 hdue

/-! ### What a run of checks does -/

/-- There is always a last heartbeat that the two agree on. -/
theorem Tracks.run (h : Tracks B F fired heard W) (hleader : B.isLeader) (hack : F.Acknowledges B)
    (checks : List Check) : ∃ fired heard, Tracks B F fired heard (machine.run W checks) := by
  induction checks generalizing fired heard W with
  | nil => exact ⟨fired, heard, h⟩
  | cons c checks ih =>
    by_cases hdue : c.IsDue fired
    · exact ih (h.next_of_isDue hleader hack hdue).1
    · exact ih (h.next_of_not_isDue hdue).1

/-- As long as the clock in milliseconds reads zero, the timer takes itself for never executed. -/
theorem Tracks.run_of_zero (h : Tracks B F fired heard W) (hleader : B.isLeader)
    (hack : F.Acknowledges B) (hfired : fired.toNat < 1000) {checks : List Check}
    (hzero : ∀ c ∈ checks, c.read.toNat < 1000) :
    ∃ fired heard, Tracks B F fired heard (machine.run W checks) ∧ fired.toNat < 1000 := by
  induction checks generalizing fired heard W with
  | nil => exact ⟨fired, heard, h, hfired⟩
  | cons c checks ih =>
    obtain ⟨hc, hchecks⟩ := List.forall_mem_cons.mp hzero
    exact ih (h.next_of_isDue hleader hack (Check.isDue_iff.mpr (Or.inl hfired))).1 hc hchecks

/-- It stays the last one as long as the timer is not due. -/
theorem Tracks.run_of_not_isDue (h : Tracks B F fired heard W) {checks : List Check}
    (hrest : ∀ c ∈ checks, ¬c.IsDue fired) :
    Tracks B F fired heard (machine.run W checks) ∧ ¬W.Beats checks := by
  induction checks generalizing W with
  | nil => exact ⟨h, not_beats_nil W⟩
  | cons c checks ih =>
    obtain ⟨hc, hchecks⟩ := List.forall_mem_cons.mp hrest
    obtain ⟨hnext, hsilent⟩ := h.next_of_not_isDue hc
    obtain ⟨hrun, hchecksSilent⟩ := ih hnext hchecks
    refine ⟨hrun, ?_⟩
    rw [beats_cons, not_or]
    exact ⟨hsilent, hchecksSilent⟩

/-- If no heartbeat is sent, the timer is not due at any check. -/
theorem Tracks.not_isDue_of_not_beats (h : Tracks B F fired heard W) (hleader : B.isLeader)
    (hack : F.Acknowledges B) {checks : List Check} (hsilent : ¬W.Beats checks) :
    ∀ c ∈ checks, ¬c.IsDue fired := by
  induction checks generalizing W with
  | nil => exact List.forall_mem_nil _
  | cons c checks ih =>
    rw [beats_cons, not_or, h.beats_singleton_iff hleader hack] at hsilent
    exact List.forall_mem_cons.mpr ⟨hsilent.1, ih (h.next_of_not_isDue hsilent.1).1 hsilent.2⟩

/-- The follower takes the leader to be alive for a hundred milliseconds. -/
theorem Tracks.isLeaderAlive_iff (h : Tracks B F fired heard W)
    (htimeout : F.heartbeatTimeout = 100000) {t : UInt64} (ht : heard ≤ t) :
    W.follower.isLeaderAlive t ↔ t.toNat ≤ heard.toNat + 100000 := by
  have hbound : (100000 : UInt64).toNat = 100000 := rfl
  have hle := UInt64.le_iff_toNat_le.mp ht
  rw [h.follower, PaxosNode.isLeaderAlive]
  simp only [htimeout, decide_eq_true_eq]
  rw [UInt64.le_iff_toNat_le, UInt64.toNat_sub_of_le _ _ ht, hbound]
  omega

end Tracks

end Watch

/-! ### Punctual schedules -/

/-- The readings of punctual checks are in order. -/
theorem Punctual.read_pairwise {checks : List Check} (h : Punctual checks) :
    checks.Pairwise fun c d => c.read.toNat ≤ d.read.toNat := by
  rw [← List.pairwise_map (f := fun c : Check => c.read.toNat) (R := (· ≤ ·)),
    ← List.isChain_iff_pairwise, List.isChain_map]
  exact h.imp fun c d hcd => c.read_le.trans (UInt64.le_iff_toNat_le.mp hcd.1)

/-- The check after a check begins within a millisecond. -/
theorem Punctual.read_le_of_infix {checks : List Check} (h : Punctual checks) {c d : Check}
    (hnext : [c, d] <:+: checks) : d.read.toNat ≤ c.read.toNat + 1000 := by
  have hpair := h.infix hnext
  obtain ⟨hcd, hgap⟩ := List.isChain_pair.mp hpair
  exact (withinMillisecond_iff.mp ⟨UInt64.le_trans c.read_le_sent hcd, hgap⟩).2

/-- The same in natural numbers. -/
theorem endsWithinPeriod_iff {checks : List Check} :
    EndsWithinPeriod checks ↔ ∀ c ∈ checks, ∀ d ∈ checks, 1000 ≤ c.read.toNat →
      d.read.toNat / 1000 ≤ c.read.toNat / 1000 + 10000 := by
  have hbound : (1000 : UInt64).toNat = 1000 := rfl
  simp only [EndsWithinPeriod, UInt64.le_iff_toNat_le, Check.toNat_div_add_period,
    Check.toNat_div_thousand, hbound]

/-- The first element of a list that has a property splits the list. -/
theorem exists_first {α : Type*} {p : α → Prop} {xs : List α} (h : ∃ x ∈ xs, p x) :
    ∃ before x after, xs = before ++ x :: after ∧ p x ∧ ∀ y ∈ before, ¬p y := by
  classical
  obtain ⟨x, hx⟩ : ∃ x, xs.find? (fun x => decide (p x)) = some x := by
    rw [← Option.isSome_iff_exists, List.find?_isSome]
    simpa using h
  obtain ⟨hp, before, after, hsplit, hbefore⟩ := List.find?_eq_some_iff_append.mp hx
  exact ⟨before, x, after, hsplit, by simpa using hp, by simpa using hbefore⟩

namespace Watch

variable {B F : PaxosNode} {checks : List Check}

/-- At the start the timer has not fired. -/
theorem tracks_ofNode (B F : PaxosNode) :
    Tracks B F 0 F.lastHeartbeatTimestamp ⟨.ofNode B, F⟩ :=
  ⟨⟨0, 0, B, Server.ofNode_timerManager B, rfl⟩, rfl⟩

/-- Once the clock in milliseconds does not read zero, the follower gives the leader up before the
second heartbeat. -/
theorem not_aliveBetween (hleader : B.isLeader) (hack : F.Acknowledges B)
    (htimeout : F.heartbeatTimeout = 100000) (h : Punctual checks) {x y : Check}
    (hx : x ∈ checks) (hy : y ∈ checks) (hxread : 1000 ≤ x.read.toNat)
    (hlate : x.read.toNat / 1000 + 10000 < y.read.toNat / 1000) :
    ¬(⟨.ofNode B, F⟩ : Watch).AliveBetween checks := by
  intro halive
  -- `c` is the first check at which the timer notes a time other than zero
  obtain ⟨pre, c, post, rfl, hcread, hpre⟩ := exists_first (p := fun c : Check =>
    1000 ≤ c.read.toNat) ⟨x, hx, hxread⟩
  have hordered : ∀ e ∈ post, c.read.toNat ≤ e.read.toNat :=
    (List.pairwise_cons.mp (List.pairwise_append.mp h.read_pairwise).2.1).1
  have hcx : c.read.toNat ≤ x.read.toNat := by
    rcases List.mem_append.mp hx with hx | hx
    · exact absurd hxread (hpre x hx)
    · rcases List.mem_cons.mp hx with rfl | hx
      · exact le_rfl
      · exact hordered x hx
  have hypost : y ∈ post := by
    rcases List.mem_append.mp hy with hy | hy
    · have hyread := hpre y hy
      omega
    · rcases List.mem_cons.mp hy with rfl | hy
      · omega
      · exact hy
  -- and `d` is the first one after it at which the timer is due
  obtain ⟨mid, d, rest, rfl, hdlate, hmid⟩ := exists_first (p := fun e : Check =>
    c.read.toNat / 1000 + 10000 < e.read.toNat / 1000) ⟨y, hypost, by omega⟩
  have hzero : ∀ e ∈ pre, e.read.toNat < 1000 := fun e he => not_le.mp (hpre e he)
  obtain ⟨fired, heard, hbefore, hfired⟩ :=
    (tracks_ofNode B F).run_of_zero hleader hack (by decide) hzero
  obtain ⟨hc, hcbeats⟩ :=
    hbefore.next_of_isDue hleader hack (c := c) (Check.isDue_iff.mpr (Or.inl hfired))
  have hquiet : ∀ e ∈ mid, ¬e.IsDue c.read := by
    intro e he
    have helate := hmid e he
    rw [Check.isDue_iff]
    omega
  obtain ⟨hafter, hsilent⟩ := hc.run_of_not_isDue hquiet
  rw [← Machine.run_append_cons] at hafter
  have hdbeats : (machine.run ⟨.ofNode B, F⟩ (pre ++ c :: mid)).Beats [d] :=
    (hafter.next_of_isDue hleader hack (Check.isDue_iff.mpr (Or.inr hdlate))).2
  obtain ⟨t, hlater, hbefore, hold⟩ := Check.exists_tooOld hdlate
  have hlives := halive pre c mid d ⟨rest, by simp⟩ hcbeats (by rwa [Machine.run_concat]) hdbeats
    t hlater hbefore
  rw [hafter.isLeaderAlive_iff htimeout hlater] at hlives
  exact absurd hlives (not_le.mpr hold)

/-- The server `A`, whose leader flag happens to be set, and the node `B`, which acknowledges it. -/
def watchAB : Watch where
  leader := .new [65] 2 0 0 ⟨true, false, false, false⟩
  follower :=
    let follower := PaxosNode.new [66] 2 100000 50000 [] 0 0 ⟨false, false, false, false⟩
    follower.setLeaderProposalID ⟨0, [65]⟩

/-- **Punctual leaders.** A follower that waits as long as a server tells its node to takes a
punctual leader to be alive between its heartbeats exactly if the schedule ends in time. -/
theorem aliveBetween_iff (hleader : B.isLeader) (hack : F.Acknowledges B)
    (htimeout : F.heartbeatTimeout = 100000) (h : Punctual checks) :
    (⟨.ofNode B, F⟩ : Watch).AliveBetween checks ↔ EndsWithinPeriod checks := by
  constructor
  · intro halive
    rw [endsWithinPeriod_iff]
    intro x hx y hy hxread
    by_contra hlate
    exact not_aliveBetween hleader hack htimeout h hx hy hxread (not_le.mp hlate) halive
  · intro hends pre c mid d hpre hcbeats hsilent hdbeats t hct htd
    obtain ⟨fired, heard, hbefore⟩ := (tracks_ofNode B F).run hleader hack pre
    rw [hbefore.beats_singleton_iff hleader hack] at hcbeats
    have hc := (hbefore.next_of_isDue hleader hack hcbeats).1
    rw [Machine.run_concat] at hsilent
    have hquiet := hc.not_isDue_of_not_beats hleader hack hsilent
    have hafter := (hc.run_of_not_isDue hquiet).1
    rw [← Machine.run_append_cons] at hafter
    rw [hafter.beats_singleton_iff hleader hack, Check.isDue_iff] at hdbeats
    rw [hafter.isLeaderAlive_iff htimeout hct]
    have hmem : c ∈ checks ∧ d ∈ checks := ⟨hpre.subset (by simp), hpre.subset (by simp)⟩
    have hzero : c.read.toNat < 1000 := by
      rcases hdbeats with hzero | hlate
      · exact hzero
      · by_contra hread
        have hperiod := endsWithinPeriod_iff.mp hends c hmem.1 d hmem.2 (not_lt.mp hread)
        omega
    -- the timer is due at each check, so `d` is the one after `c`
    obtain rfl : mid = [] := List.eq_nil_iff_forall_not_mem.mpr fun e he =>
      hquiet e he (Check.isDue_iff.mpr (Or.inl hzero))
    have hnext : [c, d] <:+: checks := by
      refine List.IsInfix.trans ⟨pre, [], ?_⟩ hpre.isInfix
      simp
    have hgap := h.read_le_of_infix hnext
    have hcsent := c.read_le
    have hdsent := d.sent_le
    have htd' := UInt64.lt_iff_toNat_lt.mp htd
    omega

/-- As long as the clock in milliseconds reads zero, the timer fires at every check. -/
theorem aliveBetween_in_first_millisecond :
    watchAB.AliveBetween [.atInstant 200, .atInstant 900, .atInstant 1500] :=
  (aliveBetween_iff rfl ⟨rfl, rfl⟩ rfl (by decide)).mpr (by decide)

end Watch

/-- A check at the end of each of the first milliseconds. -/
def everyMillisecond (n : ℕ) : List Check :=
  (List.range n).map fun k => .atInstant (UInt64.ofNat (1000 * (k + 1)))

/-- The microseconds of a day fit into 64 bits. -/
theorem toNat_ofNat_of_lt_day {n : ℕ} (h : n < 86400000000) : (UInt64.ofNat n).toNat = n :=
  UInt64.toNat_ofNat_of_lt' (by
    have hsize : UInt64.size = 18446744073709551616 := rfl
    omega)

/-- Such a schedule of less than a day is punctual. -/
theorem punctual_everyMillisecond {n : ℕ} (h : n < 86400000) : Punctual (everyMillisecond n) := by
  rw [Punctual, everyMillisecond, List.isChain_map, List.isChain_range]
  intro k hk
  have hnow : (UInt64.ofNat (1000 * (k + 1))).toNat = 1000 * (k + 1) :=
    toNat_ofNat_of_lt_day (by omega)
  have hnext : (UInt64.ofNat (1000 * (k.succ + 1))).toNat = 1000 * (k.succ + 1) :=
    toNat_ofNat_of_lt_day (by omega)
  apply withinMillisecond_iff.mpr
  rw [Check.atInstant, Check.atInstant, hnow, hnext]
  omega

namespace Watch

/-- The first two heartbeats of `A` are more than ten seconds apart, and `B` gives up after a tenth
of a second. -/
theorem punctual_leader_presumed_dead :
    watchAB.leader.paxosNode.isLeader ∧
      watchAB.follower.Acknowledges watchAB.leader.paxosNode ∧
        Punctual (everyMillisecond 10002) ∧
          ¬watchAB.AliveBetween (everyMillisecond 10002) := by
  have hpunctual := punctual_everyMillisecond (n := 10002) (by decide)
  have hmem : ∀ k < 10002, Check.atInstant (UInt64.ofNat (1000 * (k + 1))) ∈
      everyMillisecond 10002 := fun k hk => List.mem_map.mpr ⟨k, List.mem_range.mpr hk, rfl⟩
  refine ⟨rfl, ⟨rfl, rfl⟩, hpunctual, ?_⟩
  exact not_aliveBetween rfl ⟨rfl, rfl⟩ rfl hpunctual (hmem 0 (by decide))
    (hmem 10001 (by decide)) (by decide) (by decide)

end Watch

end CppPaxos
