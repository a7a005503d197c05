import CppPaxos.EventLoop
import CppPaxos.Library.Sampling

/-!
# How often the timers of a server are executed

Whatever else the event loop does, each timer takes the readings of the clock at its own place in
the checks, and takes them as a sampler with its period does. So how often it is executed depends
on the time that has passed and on how punctually the loop comes round.
-/

namespace CppPaxos

open Machines Sampling

/-! ### One timer -/

namespace EzTimer

variable {κ ω : Type*}

/-- The reading at the last execution, if there was one. -/
def lastExecution (t : EzTimer κ) : Option ℕ :=
  if t.lastExecuteTime = 0 then none else some t.lastExecuteTime.toNat

/-- A timer that has been executed at a positive reading remembers it. -/
theorem lastExecution_of_pos {t : EzTimer κ} (h : 0 < t.lastExecuteTime.toNat) :
    t.lastExecution = some t.lastExecuteTime.toNat := by
  refine if_neg fun hzero => ?_
  rw [hzero] at h
  exact absurd h (by decide)

/-- A timer is due as a sampler is, if its period does not overflow. -/
theorem isDue_iff {t : EzTimer κ} {p : ℕ} (hperiod : t.period.toUInt64.toNat = p)
    (hroom : t.lastExecuteTime.toNat + p < 2 ^ 64) (now : UInt64) :
    t.isDue now ↔ Due p t.lastExecution now.toNat := by
  rw [isDue, decide_eq_true_eq, lastExecution]
  by_cases hzero : t.lastExecuteTime = 0
  · rw [if_pos hzero]
    exact iff_of_true (Or.inl hzero) trivial
  · have hsum : (t.lastExecuteTime + t.period.toUInt64).toNat = t.lastExecuteTime.toNat + p := by
      rw [UInt64.toNat_add, hperiod, Nat.mod_eq_of_lt hroom]
    rw [if_neg hzero, or_iff_right hzero, UInt64.lt_iff_toNat_lt, hsum]
    exact Iff.rfl

end EzTimer

/-! ### The timers of a server -/

/-- What the timers read when they are checked. -/
def LoopEvent.readings : LoopEvent → Option (ℕ → ℕ)
  | checkTimer c => some fun j => (c.clock j).ms.toNat
  | handleMessage .. | handleClose _ => none

namespace RunningServer

/-- The reading at which an event executes the timer at place `j`. -/
def executed (j : ℕ) (S : RunningServer) : LoopEvent → List ℕ
  | .checkTimer c =>
    if ∃ t ∈ S.timerManager.timers[j]?, t.isDue (c.clock j).ms then [(c.clock j).ms.toNat] else []
  | .handleMessage .. | .handleClose _ => []

/-- The readings at which a run executes it. -/
def executions (j : ℕ) (S : RunningServer) (events : List LoopEvent) : List ℕ :=
  machine.scripts (executed j) S events

/-- The periods of the three timers, in milliseconds. -/
def periods : List ℕ := [5000, 10000, 2000]

/-- The first event executes the timer or does not, and the others go on from there. -/
theorem executions_cons (j : ℕ) (S : RunningServer) (event : LoopEvent) (events : List LoopEvent) :
    S.executions j (event :: events) =
      S.executed j event ++ (machine.next S event).executions j events := rfl

/-- A timer is executed as a sampler takes moments. -/
theorem executions_eq {j p : ℕ} {events : List LoopEvent} {S : RunningServer}
    {t : EzTimer ServerCallback} (ht : S.timerManager.timers[j]? = some t)
    (hperiod : t.period.toUInt64.toNat = p) (hroom : t.lastExecuteTime.toNat + p < 2 ^ 64)
    (hreadings : ∀ r ∈ events.filterMap LoopEvent.readings, 0 < r j ∧ r j + p < 2 ^ 64) :
    S.executions j events =
      every p t.lastExecution ((events.filterMap LoopEvent.readings).map fun r => r j) := by
  induction events generalizing S t with
  | nil => rfl
  | cons event events ih =>
    cases event with
    | handleMessage msg c => exact ih ht hperiod hroom hreadings
    | handleClose s => exact ih ht hperiod hroom hreadings
    | checkTimer c =>
      obtain ⟨⟨hpos, hlater⟩, hrest⟩ := List.forall_mem_cons.mp hreadings
      have hnext : (machine.next S (.checkTimer c)).timerManager.timers[j]? =
          some (t.execute (ServerCallback.networkCalls c) (c.clock j)).1 := by
        change (EzTimerManager.executeAll (ServerCallback.networkCalls c) S.timerManager.timers
          c.clock).1[j]? = _
        rw [EzTimerManager.getElem?_executeAll_fst, ht, Option.map_some]
      have hdue := EzTimer.isDue_iff hperiod hroom (c.clock j).ms
      rw [executions_cons, executed, ht]
      simp only [Option.mem_def, Option.some_inj, exists_eq_left']
      change _ = every p t.lastExecution ((c.clock j).ms.toNat :: _)
      by_cases hfires : t.isDue (c.clock j).ms
      · rw [EzTimer.execute_of_isDue hfires] at hnext
        rw [if_pos hfires, every_cons_of_due (hdue.mp hfires), ih hnext hperiod hlater hrest,
          EzTimer.lastExecution_of_pos hpos]
        rfl
      · rw [EzTimer.execute_of_not_isDue hfires] at hnext
        rw [if_neg hfires, every_cons_of_not_due (mt hdue.mpr hfires), ih hnext hperiod hroom hrest]
        rfl

/-- **How often the timers are executed.** In every run of a server with new timers, the timer at
place `j`, of period `p`, is executed at its first check. If it takes its readings at most `δ`
milliseconds apart, then for each execution after that one, `p + 1` milliseconds at least have
passed since the first check, and `p + δ` at most, up to one more period. -/
theorem executions_bounds {S : RunningServer} {copy : PaxosNode}
    (hnew : S.timerManager = Server.timers 0 0 0 copy) {j p δ : ℕ} (hp : periods[j]? = some p)
    {events : List LoopEvent} {first : ℕ} {rest : List ℕ}
    (hreadings : (events.filterMap LoopEvent.readings).map (fun r => r j) = first :: rest)
    (hpos : 0 < first) (hdense : Dense δ (first :: rest))
    (hroom : (first :: rest).getLast (List.cons_ne_nil first rest) + p < 2 ^ 64) :
    ∃ later, S.executions j events = first :: later ∧
      first + later.length * (p + 1) ≤ (first :: rest).getLast (List.cons_ne_nil first rest) ∧
      (first :: rest).getLast (List.cons_ne_nil first rest) ≤
        first + later.length * (p + δ) + p := by
  obtain ⟨t, ht, hperiod, hlast⟩ : ∃ t, S.timerManager.timers[j]? = some t ∧
      t.period.toUInt64.toNat = p ∧ t.lastExecuteTime = 0 := by
    rw [hnew]
    match j, hp with
    | 0, rfl => exact ⟨_, rfl, rfl, rfl⟩
    | 1, rfl => exact ⟨_, rfl, rfl, rfl⟩
    | 2, rfl => exact ⟨_, rfl, rfl, rfl⟩
  have hsmall : t.lastExecuteTime.toNat + p < 2 ^ 64 := by
    have hzero : t.lastExecuteTime.toNat = 0 := by
      rw [hlast]
      rfl
    omega
  have hbetween : ∀ r ∈ events.filterMap LoopEvent.readings, 0 < r j ∧ r j + p < 2 ^ 64 := by
    intro r hr
    obtain ⟨hlow, hhigh⟩ := hdense.le_of_mem (r j) (by
      rw [← hreadings]
      exact List.mem_map_of_mem hr)
    exact ⟨by omega, by omega⟩
  have hnone : t.lastExecution = none := if_pos hlast
  rw [executions_eq ht hperiod hsmall hbetween, hreadings, hnone]
  exact every_none_cons hdense

/-- Five checks. The first one, the third one and the last one send pings. -/
def fiveChecks : List LoopEvent :=
  [1, 4000, 8000, 12000, 16000].map fun t =>
    .checkTimer ⟨fun _ => ⟨t, 1000 * t⟩, t, fun _ => 7, fun _ _ => 7⟩

/-- The first timer reads the clock at most four seconds apart. -/
theorem executions_bounds_fiveChecks :
    ∃ later, executions 0 (new [65] 2 0 0 ⟨false, false, false, false⟩ 1 80 .tcp) fiveChecks =
        1 :: later ∧ 1 + later.length * (5000 + 1) ≤ 16000 ∧
          16000 ≤ 1 + later.length * (5000 + 4000) + 5000 := by
  have hreadings : (fiveChecks.filterMap LoopEvent.readings).map (fun r => r 0) =
    [1, 4000, 8000, 12000, 16000] := rfl
  exact executions_bounds rfl rfl hreadings (by decide) (by decide) (by decide)

end RunningServer

end CppPaxos
