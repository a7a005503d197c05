import Mathlib.Data.Nat.Notation
import Mathlib.Tactic.TypeStar

/-!
# Timers

`eztimer.h`. The event loop checks all timers one after the other. A timer is executed
when it never was before, or when more than its period has passed; both are read from
the time of its last execution, in milliseconds.
-/

namespace CppPaxos

/-- What `GetMonoTimeMs` and `GetMonoTimeUs` of `deps` return when one timer is executed. -/
structure Reading where
  ms : UInt64
  us : UInt64
  deriving DecidableEq

/-- `class EzTimer`. A `std::function` is its target, which holds copies of what was bound. -/
structure EzTimer (κ : Type*) where
  /-- `m_period`, in milliseconds. -/
  period : Int64
  /-- `m_lastExecuteTime`; zero before the first execution. -/
  lastExecuteTime : UInt64
  /-- `m_callback`. -/
  callback : κ

namespace EzTimer

variable {κ ω : Type*}

/-- The constructor. -/
def new (millisecondDelay : Int64) (callback : κ) : EzTimer κ := ⟨millisecondDelay, 0, callback⟩

/-- The test in `execute`; the addition is on unsigned 64-bit numbers. -/
def isDue (t : EzTimer κ) (nowMs : UInt64) : Bool :=
  t.lastExecuteTime = 0 ∨ t.lastExecuteTime + t.period.toUInt64 < nowMs

/-- `execute`. Calling the callback may change the copies that it holds. -/
def execute (call : κ → UInt64 → κ × List ω) (t : EzTimer κ) (now : Reading) :
    EzTimer κ × List ω :=
  if t.isDue now.ms then
    let (callback, sent) := call t.callback now.us
    ({ t with lastExecuteTime := now.ms, callback := callback }, sent)
  else (t, [])

/-- A timer that is due calls back and notes the time. -/
theorem execute_of_isDue {call : κ → UInt64 → κ × List ω} {t : EzTimer κ} {now : Reading}
    (h : t.isDue now.ms) :
    t.execute call now =
      (⟨t.period, now.ms, (call t.callback now.us).1⟩, (call t.callback now.us).2) :=
  if_pos h

/-- Any other timer is left alone. -/
theorem execute_of_not_isDue {call : κ → UInt64 → κ × List ω} {t : EzTimer κ} {now : Reading}
    (h : ¬t.isDue now.ms) : t.execute call now = (t, []) :=
  if_neg h

end EzTimer

/-- `class EzTimerManager`: `m_timers`, in the order in which they were added. -/
structure EzTimerManager (κ : Type*) where
  timers : List (EzTimer κ)

namespace EzTimerManager

variable {κ ω : Type*}

/-- The constructor. -/
def new : EzTimerManager κ := ⟨[]⟩

/-- `addTimer`. -/
def addTimer (M : EzTimerManager κ) (millisecondDelay : Int64) (callback : κ) :
    EzTimerManager κ :=
  ⟨M.timers ++ [.new millisecondDelay callback]⟩

/-- The loop of `checkTimer`; the timers read the clock one after the other. -/
def executeAll (call : κ → UInt64 → κ × List ω) :
    List (EzTimer κ) → (ℕ → Reading) → List (EzTimer κ) × List ω
  | [], _ => ([], [])
  | t :: timers, clock =>
    let (t, sent) := t.execute call (clock 0)
    let (timers, more) := executeAll call timers fun i => clock (i + 1)
    (t :: timers, sent ++ more)

/-- `checkTimer`. -/
def checkTimer (call : κ → UInt64 → κ × List ω) (M : EzTimerManager κ) (clock : ℕ → Reading) :
    EzTimerManager κ × List ω :=
  let (timers, sent) := executeAll call M.timers clock
  (⟨timers⟩, sent)

section Cons

variable (call : κ → UInt64 → κ × List ω) (t : EzTimer κ) (timers : List (EzTimer κ))
  (clock : ℕ → Reading)

/-- The first timer is checked with the first reading. -/
theorem executeAll_cons_fst :
    (executeAll call (t :: timers) clock).1 =
      (t.execute call (clock 0)).1 :: (executeAll call timers fun i => clock (i + 1)).1 := rfl

/-- So its calls are the first ones. -/
theorem executeAll_cons_snd :
    (executeAll call (t :: timers) clock).2 =
      (t.execute call (clock 0)).2 ++ (executeAll call timers fun i => clock (i + 1)).2 := rfl

end Cons

/-- A check executes each timer with the reading at its place. -/
theorem getElem?_executeAll_fst (call : κ → UInt64 → κ × List ω) (timers : List (EzTimer κ))
    (clock : ℕ → Reading) (j : ℕ) :
    (executeAll call timers clock).1[j]? =
      timers[j]?.map fun t => (t.execute call (clock j)).1 := by
  induction timers generalizing clock j with
  | nil => simp [executeAll]
  | cons t timers ih =>
    rw [executeAll_cons_fst]
    cases j with
    | zero => rfl
    | succ j =>
      rw [List.getElem?_cons_succ, List.getElem?_cons_succ]
      exact ih (fun i => clock (i + 1)) j

/-- What a check emits comes from one of the callbacks. -/
theorem mem_executeAll {call : κ → UInt64 → κ × List ω} {o : ω} {timers : List (EzTimer κ)}
    {clock : ℕ → Reading} (h : o ∈ (executeAll call timers clock).2) :
    ∃ t ∈ timers, ∃ now, o ∈ (call t.callback now).2 := by
  induction timers generalizing clock with
  | nil => cases h
  | cons t timers ih =>
    have hsent : o ∈ (t.execute call (clock 0)).2 ++
      (executeAll call timers fun i => clock (i + 1)).2 := h
    rcases List.mem_append.mp hsent with hfirst | hrest
    · refine ⟨t, List.mem_cons_self, (clock 0).us, ?_⟩
      by_cases hdue : t.isDue (clock 0).ms
      · rwa [EzTimer.execute_of_isDue hdue] at hfirst
      · rw [EzTimer.execute_of_not_isDue hdue] at hfirst
        cases hfirst
    · obtain ⟨t', ht', now, ho⟩ := ih hrest
      exact ⟨t', List.mem_cons_of_mem _ ht', now, ho⟩

/-- A check leaves the callback of a timer as it is, or as its call leaves it. -/
theorem callback_of_mem_executeAll {call : κ → UInt64 → κ × List ω} {t : EzTimer κ}
    {timers : List (EzTimer κ)} {clock : ℕ → Reading} (h : t ∈ (executeAll call timers clock).1) :
    ∃ t' ∈ timers, t.callback = t'.callback ∨ ∃ now, t.callback = (call t'.callback now).1 := by
  induction timers generalizing clock with
  | nil => cases h
  | cons t' timers ih =>
    have hmem : t ∈ (t'.execute call (clock 0)).1 ::
      (executeAll call timers fun i => clock (i + 1)).1 := h
    rcases List.mem_cons.mp hmem with rfl | hrest
    · refine ⟨t', List.mem_cons_self, ?_⟩
      by_cases hdue : t'.isDue (clock 0).ms
      · rw [EzTimer.execute_of_isDue hdue]
        exact Or.inr ⟨_, rfl⟩
      · rw [EzTimer.execute_of_not_isDue hdue]
        exact Or.inl rfl
    · obtain ⟨t'', ht'', hcallback⟩ := ih hrest
      exact ⟨t'', List.mem_cons_of_mem _ ht'', hcallback⟩

/-- The timers after a check depend only on what the calls do to the callbacks. -/
theorem executeAll_fst_congr {ω' : Type*} {call : κ → UInt64 → κ × List ω}
    {call' : κ → UInt64 → κ × List ω'} (h : ∀ callback now, (call callback now).1 =
      (call' callback now).1) (timers : List (EzTimer κ)) (clock : ℕ → Reading) :
    (executeAll call timers clock).1 = (executeAll call' timers clock).1 := by
  induction timers generalizing clock with
  | nil => rfl
  | cons t timers ih =>
    have hhead : (t.execute call (clock 0)).1 = (t.execute call' (clock 0)).1 := by
      by_cases hdue : t.isDue (clock 0).ms
      · rw [EzTimer.execute_of_isDue hdue, EzTimer.execute_of_isDue hdue, h]
      · rw [EzTimer.execute_of_not_isDue hdue, EzTimer.execute_of_not_isDue hdue]
    change (t.execute call (clock 0)).1 :: _ = (t.execute call' (clock 0)).1 :: _
    rw [hhead, ih]

end EzTimerManager

end CppPaxos
