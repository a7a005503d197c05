import CppPaxos.Library.Machine
import Mathlib.Data.List.Chain

/-!
# Logs of the changes of a value

An entry of a log records one change of a value: what it was before and what it is
after. A log is faithful to a run of a machine if its entries lead, one after the
other, from the value at the start to the value at each moment.
-/

namespace Machines

variable {Entry Value : Type*} (before after : Entry → Value)

/-- The entries record changes that lead from one value to another. -/
def Connects : Value → List Entry → Value → Prop
  | x, [], y => x = y
  | x, e :: entries, y => before e = x ∧ Connects (after e) entries y

variable {before after}

/-- No entry connects a value with itself only. -/
@[simp] theorem connects_nil {x y : Value} : Connects before after x [] y ↔ x = y := Iff.rfl

/-- The first entry starts from the value before it, and the others go on from there. -/
@[simp] theorem connects_cons {x y : Value} {e : Entry} {entries : List Entry} :
    Connects before after x (e :: entries) y ↔
      before e = x ∧ Connects before after (after e) entries y := Iff.rfl

/-- Two logs connect if there is a value between them. -/
theorem connects_append {x z : Value} {entries more : List Entry} :
    Connects before after x (entries ++ more) z ↔
      ∃ y, Connects before after x entries y ∧ Connects before after y more z := by
  induction entries generalizing x with
  | nil => simp
  | cons e entries ih => simp only [List.cons_append, connects_cons, ih, exists_and_left, and_assoc]

/-- Where a log leads is determined by where it starts. -/
theorem Connects.unique {x y z : Value} {entries : List Entry}
    (hy : Connects before after x entries y) (hz : Connects before after x entries z) : y = z := by
  induction entries generalizing x with
  | nil => exact hy.symm.trans hz
  | cons e entries ih => exact ih hy.2 hz.2

/-- Each entry of a log starts where the entry before it ended. -/
theorem Connects.isChain {x y : Value} {entries : List Entry}
    (h : Connects before after x entries y) :
    entries.IsChain fun e f => after e = before f := by
  induction entries generalizing x with
  | nil => exact List.isChain_nil
  | cons e entries ih =>
    refine List.isChain_cons.mpr ⟨fun f hf => ?_, ih h.2⟩
    cases entries with
    | nil => cases hf
    | cons f' entries =>
      cases hf
      exact h.2.1.symm

/-- A log of the changes of a flag, each entry being the new value: the entries alternate, and the
latest is the value of the flag. -/
theorem connects_not_iff {x y : Bool} {entries : List Bool} :
    Connects not id x entries y ↔
      (x :: entries).IsChain (· ≠ ·) ∧ y = entries.getLastD x := by
  induction entries generalizing x with
  | nil => simp [eq_comm]
  | cons e entries ih =>
    rw [connects_cons, id_eq, ih, List.isChain_cons_cons, List.getLastD_cons, and_assoc]
    have hne : (!e) = x ↔ x ≠ e := by cases x <;> cases e <;> simp
    rw [hne]

namespace Machine

variable {State Action Output : Type*} {M : Machine State Action Output}

variable (M) (before after) in
/-- The action logs the change that it makes to a value of the state. -/
def Logs (value : State → Value) (entry : Output → Option Entry) (s : State) (a : Action) : Prop :=
  Connects before after (value s) ((M.emits s a).filterMap entry) (value (M.next s a))

/-- **Rule for logs.** The log of a run leads to the value at each moment exactly if each action
logs the change that it makes. -/
theorem admits_logs_iff {value : State → Value} {entry : Output → Option Entry} {s : State}
    {acts : List Action} :
    M.Admits (M.Logs before after value entry) s acts ↔
      ∀ pre, pre <+: acts →
        Connects before after (value s) ((M.trace s pre).filterMap entry)
          (value (M.run s pre)) := by
  constructor
  · intro h pre hpre
    refine (h.of_prefix hpre).induction (I := fun done t =>
      Connects before after (value s) ((M.trace s done).filterMap entry) (value t)) rfl ?_
    intro done a hdone hlogs
    rw [trace_concat, List.filterMap_append, connects_append]
    exact ⟨_, hdone, hlogs⟩
  · intro h
    refine admits_iff_forall_prefix.mpr fun pre a hpre => ?_
    have hbefore := h pre ((List.prefix_append _ _).trans hpre)
    have hafter := h (pre ++ [a]) hpre
    rw [trace_concat, List.filterMap_append, connects_append, run_concat] at hafter
    obtain ⟨y, hy, hstep⟩ := hafter
    rwa [← hbefore.unique hy] at hstep

end Machine

end Machines
