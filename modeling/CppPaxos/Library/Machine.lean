import Mathlib.Data.Finset.Insert
import Mathlib.Data.List.Induction
import Mathlib.Logic.Function.Basic
import Mathlib.Tactic.TypeStar

/-!
# Deterministic machines and their runs

A machine takes one action at a time, moves to a new state and emits a list of
outputs. A run is a list of actions. Conditions on a run are conditions on its
steps, stated over the state before the step, and "at some moment of the run"
means after some prefix of it. The module provides the induction over runs, the
attachment of history variables, and the interleaving of independent machines.
-/

namespace Machines

/-- A deterministic machine with outputs. -/
structure Machine (State Action Output : Type*) where
  /-- One action: the state after it, and what it emits. -/
  step : State → Action → State × List Output

namespace Machine

variable {State Action Output : Type*} (M : Machine State Action Output)

/-- The state after one action. -/
def next (s : State) (a : Action) : State := (M.step s a).1

/-- What one action emits. -/
def emits (s : State) (a : Action) : List Output := (M.step s a).2

/-- The state after a list of actions. -/
def run (s : State) : List Action → State
  | [] => s
  | a :: acts => run (M.next s a) acts

/-- Everything a list of actions emits, in order. -/
def trace (s : State) : List Action → List Output
  | [] => []
  | a :: acts => M.emits s a ++ trace (M.next s a) acts

/-- Each action of the list is allowed in the state in which it is taken. -/
def Admits (allowed : State → Action → Prop) (s : State) : List Action → Prop
  | [] => True
  | a :: acts => allowed s a ∧ Admits allowed (M.next s a) acts

/-- `t` is the state at some moment of the run: after some prefix of its actions. -/
def Visits (s : State) (acts : List Action) (t : State) : Prop :=
  ∃ pre, pre <+: acts ∧ M.run s pre = t

instance decidableAdmits (allowed : State → Action → Prop) [∀ s a, Decidable (allowed s a)] :
    ∀ (s : State) (acts : List Action), Decidable (M.Admits allowed s acts)
  | _, [] => isTrue trivial
  | s, a :: acts =>
    have := decidableAdmits allowed (M.next s a) acts
    inferInstanceAs (Decidable (allowed s a ∧ M.Admits allowed (M.next s a) acts))

@[simp] theorem run_nil (s : State) : M.run s [] = s := rfl

@[simp] theorem run_cons (s : State) (a : Action) (acts : List Action) :
    M.run s (a :: acts) = M.run (M.next s a) acts := rfl

@[simp] theorem trace_nil (s : State) : M.trace s [] = [] := rfl

@[simp] theorem trace_cons (s : State) (a : Action) (acts : List Action) :
    M.trace s (a :: acts) = M.emits s a ++ M.trace (M.next s a) acts := rfl

@[simp] theorem admits_nil (allowed : State → Action → Prop) (s : State) :
    M.Admits allowed s [] := trivial

@[simp] theorem admits_cons (allowed : State → Action → Prop) (s : State) (a : Action)
    (acts : List Action) :
    M.Admits allowed s (a :: acts) ↔ allowed s a ∧ M.Admits allowed (M.next s a) acts := Iff.rfl

/-- A run can be cut in two. -/
theorem run_append (s : State) (acts more : List Action) :
    M.run s (acts ++ more) = M.run (M.run s acts) more := by
  induction acts generalizing s with
  | nil => rfl
  | cons a acts ih => simp only [List.cons_append, run_cons, ih]

/-- The last action of a run. -/
@[simp] theorem run_concat (s : State) (acts : List Action) (a : Action) :
    M.run s (acts ++ [a]) = M.next (M.run s acts) a := by
  rw [run_append, run_cons, run_nil]

/-- An action inside a run. -/
theorem run_append_cons (s : State) (acts : List Action) (a : Action) (more : List Action) :
    M.run s (acts ++ a :: more) = M.run (M.next (M.run s acts) a) more := by
  rw [run_append, run_cons]

/-- What is emitted in both parts of a run. -/
theorem trace_append (s : State) (acts more : List Action) :
    M.trace s (acts ++ more) = M.trace s acts ++ M.trace (M.run s acts) more := by
  induction acts generalizing s with
  | nil => rfl
  | cons a acts ih => simp only [List.cons_append, trace_cons, run_cons, ih, List.append_assoc]

/-- What the last action of a run emits. -/
@[simp] theorem trace_concat (s : State) (acts : List Action) (a : Action) :
    M.trace s (acts ++ [a]) = M.trace s acts ++ M.emits (M.run s acts) a := by
  rw [trace_append, trace_cons, trace_nil, List.append_nil]

/-- A run is admitted if both parts of it are. -/
theorem admits_append {allowed : State → Action → Prop} {s : State} {acts more : List Action} :
    M.Admits allowed s (acts ++ more) ↔
      M.Admits allowed s acts ∧ M.Admits allowed (M.run s acts) more := by
  induction acts generalizing s with
  | nil => simp
  | cons a acts ih => simp only [List.cons_append, admits_cons, run_cons, ih, and_assoc]

/-- A run is admitted if it is so without its last action, and this is allowed then. -/
theorem admits_concat {allowed : State → Action → Prop} {s : State} {acts : List Action}
    {a : Action} :
    M.Admits allowed s (acts ++ [a]) ↔
      M.Admits allowed s acts ∧ allowed (M.run s acts) a := by
  rw [admits_append, admits_cons]
  simp only [admits_nil, and_true]

variable {M}

/-- A prefix of an admitted run is admitted. -/
theorem Admits.of_prefix {allowed : State → Action → Prop} {s : State} {acts pre : List Action}
    (h : M.Admits allowed s acts) (hpre : pre <+: acts) : M.Admits allowed s pre := by
  obtain ⟨post, rfl⟩ := hpre
  exact (M.admits_append.mp h).1

/-- The action after a prefix of an admitted run is allowed in the state reached there. -/
theorem Admits.allowed_of_prefix {allowed : State → Action → Prop} {s : State}
    {acts pre : List Action} {a : Action} (h : M.Admits allowed s acts)
    (hpre : pre ++ [a] <+: acts) : allowed (M.run s pre) a :=
  (M.admits_concat.mp (h.of_prefix hpre)).2

/-- A condition that does not look at the state holds of each action of an admitted run. -/
theorem admits_const_iff {allowed : Action → Prop} {s : State} {acts : List Action} :
    M.Admits (fun _ a => allowed a) s acts ↔ ∀ a ∈ acts, allowed a := by
  induction acts generalizing s with
  | nil => simp
  | cons a acts ih => simp only [admits_cons, ih, List.forall_mem_cons]

/-- Two conditions that agree wherever an invariant holds admit the same runs. -/
theorem admits_congr {allowed allowed' : State → Action → Prop} {s : State} {acts : List Action}
    {I : State → Prop} (base : I s) (inv : ∀ s a, I s → I (M.next s a))
    (h : ∀ s a, I s → (allowed s a ↔ allowed' s a)) :
    M.Admits allowed s acts ↔ M.Admits allowed' s acts := by
  induction acts generalizing s with
  | nil => simp
  | cons a acts ih => rw [admits_cons, admits_cons, h s a base, ih (inv s a base)]

/-- **Induction over a run.** A relation between the actions taken so far and the
state reached holds of the whole run if it holds before the first action and each
allowed action preserves it. -/
theorem Admits.induction {allowed : State → Action → Prop} {s : State} {acts : List Action}
    (h : M.Admits allowed s acts) {I : List Action → State → Prop} (base : I [] s)
    (step : ∀ pre a, I pre (M.run s pre) → allowed (M.run s pre) a →
      I (pre ++ [a]) (M.next (M.run s pre) a)) :
    I acts (M.run s acts) := by
  induction acts using List.reverseRecOn with
  | nil => exact base
  | append_singleton acts a ih =>
    obtain ⟨hacts, ha⟩ := M.admits_concat.mp h
    rw [run_concat]
    exact step acts a (ih hacts) ha

/-- **Invariant rule.** A property of states that each allowed action preserves holds
in the state a run ends in. -/
theorem Admits.invariant {allowed : State → Action → Prop} {s : State} {acts : List Action}
    (h : M.Admits allowed s acts) {I : State → Prop} (base : I s)
    (step : ∀ s a, I s → allowed s a → I (M.next s a)) : I (M.run s acts) :=
  h.induction (I := fun _ t => I t) base fun _ _ hI ha => step _ _ hI ha

/-- A weaker condition admits at least the same runs. -/
theorem Admits.mono {allowed allowed' : State → Action → Prop} {s : State} {acts : List Action}
    (h : M.Admits allowed s acts) (himp : ∀ s a, allowed s a → allowed' s a) :
    M.Admits allowed' s acts := by
  induction acts generalizing s with
  | nil => trivial
  | cons a acts ih => exact ⟨himp s a h.1, ih h.2⟩

/-- A run that meets two conditions meets both at each action. -/
theorem Admits.and {allowed allowed' : State → Action → Prop} {s : State} {acts : List Action}
    (h : M.Admits allowed s acts) (h' : M.Admits allowed' s acts) :
    M.Admits (fun s a => allowed s a ∧ allowed' s a) s acts := by
  induction acts generalizing s with
  | nil => trivial
  | cons a acts ih => exact ⟨⟨h.1, h'.1⟩, ih h.2 h'.2⟩

/-- **Rule for outputs.** If each allowed action preserves an invariant and emits outputs of one
kind only, so does every run. -/
theorem Admits.emits_only {allowed : State → Action → Prop} {s : State} {acts : List Action}
    (h : M.Admits allowed s acts) {I : State → Prop} {kind : Output → Prop} (base : I s)
    (step : ∀ s a, I s → allowed s a → I (M.next s a) ∧ ∀ o ∈ M.emits s a, kind o) :
    I (M.run s acts) ∧ ∀ o ∈ M.trace s acts, kind o := by
  induction acts generalizing s with
  | nil => exact ⟨base, by simp⟩
  | cons a acts ih =>
    obtain ⟨hnext, hemits⟩ := step s a base h.1
    obtain ⟨hrun, htrace⟩ := ih h.2 hnext
    refine ⟨hrun, fun o ho => ?_⟩
    rcases List.mem_append.mp ho with hnow | hlater
    · exact hemits o hnow
    · exact htrace o hlater

/-- **Simulation rule.** If a relation between the states of two machines is kept by each allowed
action of the first one, and the second one then emits the same, it does so in the whole run. -/
theorem Admits.trace_eq {State' : Type*} {M' : Machine State' Action Output}
    {allowed : State → Action → Prop} {s : State} {t : State'} {acts : List Action}
    (h : M.Admits allowed s acts) {R : State → State' → Prop} (base : R s t)
    (step : ∀ s t a, R s t → allowed s a →
      M'.emits t a = M.emits s a ∧ R (M.next s a) (M'.next t a)) :
    M'.trace t acts = M.trace s acts := by
  induction acts generalizing s t with
  | nil => rfl
  | cons a acts ih =>
    obtain ⟨hemits, hnext⟩ := step s t a base h.1
    rw [trace_cons, trace_cons, hemits, ih h.2 hnext]

/-- **Rule for two moments of a run.** A reflexive and transitive relation that each allowed
action establishes between the states around it, given an invariant, holds between the states
at any two moments of a run. -/
theorem Admits.relates_of_prefix {allowed : State → Action → Prop} {s : State}
    {pre acts : List Action} (h : M.Admits allowed s acts) (hpre : pre <+: acts)
    {I : State → Prop} (base : I s) (inv : ∀ s a, I s → allowed s a → I (M.next s a))
    {R : State → State → Prop} (refl : ∀ s, R s s) (trans : ∀ s t u, R s t → R t u → R s u)
    (step : ∀ s a, I s → allowed s a → R s (M.next s a)) :
    R (M.run s pre) (M.run s acts) := by
  obtain ⟨post, rfl⟩ := hpre
  obtain ⟨hpre, hpost⟩ := M.admits_append.mp h
  rw [run_append]
  have hmid : I (M.run s pre) := hpre.invariant base inv
  refine (hpost.induction (I := fun _ t => I t ∧ R (M.run s pre) t) ⟨hmid, refl _⟩ ?_).2
  intro more a ⟨hI, hR⟩ ha
  exact ⟨inv _ _ hI ha, trans _ _ _ hR (step _ _ hI ha)⟩

/-- **Rule for exact conditions.** If an allowed action keeps a property of states exactly when
it meets a condition, the property holds at every moment of a run exactly when every action of
the run meets the condition. -/
theorem Admits.forall_prefix_iff {allowed cond : State → Action → Prop} {s : State}
    {acts : List Action} (h : M.Admits allowed s acts) {I J : State → Prop} (hI : I s) (hJ : J s)
    (inv : ∀ s a, I s → allowed s a → I (M.next s a))
    (step : ∀ s a, I s → J s → allowed s a → (J (M.next s a) ↔ cond s a)) :
    (∀ pre, pre <+: acts → J (M.run s pre)) ↔ M.Admits cond s acts := by
  induction acts generalizing s with
  | nil => simpa using hJ
  | cons a acts ih =>
    have hhead : (∀ pre, pre <+: a :: acts → J (M.run s pre)) ↔
        ∀ pre, pre <+: acts → J (M.run (M.next s a) pre) := by
      constructor
      · intro hall pre hpre
        exact hall (a :: pre) (List.cons_prefix_cons.mpr ⟨rfl, hpre⟩)
      · intro hall pre hpre
        cases pre with
        | nil => exact hJ
        | cons b pre =>
          obtain ⟨rfl, htail⟩ := List.cons_prefix_cons.mp hpre
          exact hall pre htail
    rw [hhead, admits_cons, ← step s a hI hJ h.1]
    constructor
    · intro hall
      have hnext : J (M.next s a) := hall [] List.nil_prefix
      exact ⟨hnext, (ih h.2 (inv s a hI h.1) hnext).mp hall⟩
    · rintro ⟨hnext, hcond⟩
      exact (ih h.2 (inv s a hI h.1) hnext).mpr hcond

/-- An action and the actions before it, in a run that is one action longer: they were there
before, or it is the last action. -/
theorem concat_prefix_concat_iff {pre acts : List Action} {a b : Action} :
    pre ++ [b] <+: acts ++ [a] ↔ pre ++ [b] <+: acts ∨ pre = acts ∧ b = a := by
  rw [List.prefix_concat_iff, List.append_singleton_inj, or_comm]

/-- One more action adds one condition to a condition on each action and the actions before it. -/
theorem forall_concat_iff {P : List Action → Action → Prop} {acts : List Action} {a : Action} :
    (∀ pre b, pre ++ [b] <+: acts ++ [a] → P pre b) ↔
      (∀ pre b, pre ++ [b] <+: acts → P pre b) ∧ P acts a := by
  simp only [concat_prefix_concat_iff]
  constructor
  · intro h
    exact ⟨fun pre b hpre => h pre b (Or.inl hpre), h acts a (Or.inr ⟨rfl, rfl⟩)⟩
  · rintro ⟨hbefore, hlast⟩ pre b (hpre | ⟨rfl, rfl⟩)
    · exact hbefore pre b hpre
    · exact hlast

/-- One more action adds one way to meet a condition at some action of a run. -/
theorem exists_concat_iff {P : List Action → Action → Prop} {acts : List Action} {a : Action} :
    (∃ pre b, pre ++ [b] <+: acts ++ [a] ∧ P pre b) ↔
      (∃ pre b, pre ++ [b] <+: acts ∧ P pre b) ∨ P acts a := by
  simp only [concat_prefix_concat_iff]
  constructor
  · rintro ⟨pre, b, hpre | ⟨rfl, rfl⟩, h⟩
    · exact Or.inl ⟨pre, b, hpre, h⟩
    · exact Or.inr h
  · rintro (⟨pre, b, hpre, h⟩ | h)
    · exact ⟨pre, b, Or.inl hpre, h⟩
    · exact ⟨acts, a, Or.inr ⟨rfl, rfl⟩, h⟩

/-- A run is admitted exactly if each of its actions is allowed in the state reached before it. -/
theorem admits_iff_forall_prefix {allowed : State → Action → Prop} {s : State}
    {acts : List Action} :
    M.Admits allowed s acts ↔ ∀ pre a, pre ++ [a] <+: acts → allowed (M.run s pre) a := by
  induction acts using List.reverseRecOn with
  | nil => simp
  | append_singleton acts a ih => rw [admits_concat, forall_concat_iff, ih]

/-- An output of a run is emitted by one of its actions. -/
theorem mem_trace_iff {s : State} {acts : List Action} {o : Output} :
    o ∈ M.trace s acts ↔ ∃ pre a, pre ++ [a] <+: acts ∧ o ∈ M.emits (M.run s pre) a := by
  induction acts using List.reverseRecOn with
  | nil => simp
  | append_singleton acts a ih =>
    rw [trace_concat, List.mem_append, ih, exists_concat_iff]

/-- Conditions on each action of a run and the actions before it can be checked one by one. -/
theorem forall_prefix_iff_forall_get {P : List Action → Action → Prop} {acts : List Action} :
    (∀ pre a, pre ++ [a] <+: acts → P pre a) ↔
      ∀ i : Fin acts.length, P (acts.take i) (acts.get i) := by
  constructor
  · intro h i
    apply h
    rw [List.get_eq_getElem, List.take_append_getElem]
    exact List.take_prefix _ _
  · rintro h pre a ⟨post, rfl⟩
    have hi : pre.length < (pre ++ [a] ++ post).length := by simp
    simpa using h ⟨pre.length, hi⟩

instance decidableForallPrefix (P : List Action → Action → Prop) [∀ pre a, Decidable (P pre a)]
    (acts : List Action) : Decidable (∀ pre a, pre ++ [a] <+: acts → P pre a) :=
  decidable_of_iff _ forall_prefix_iff_forall_get.symm

/-- Without actions there is one moment. -/
theorem visits_nil {s t : State} : M.Visits s [] t ↔ s = t := by
  simp [Visits]

/-- One more action adds one more moment to a run. -/
theorem visits_concat {s t : State} {acts : List Action} {a : Action} :
    M.Visits s (acts ++ [a]) t ↔ M.Visits s acts t ∨ M.next (M.run s acts) a = t := by
  constructor
  · rintro ⟨pre, hpre, ht⟩
    rcases List.prefix_concat_iff.mp hpre with rfl | hpre
    · exact Or.inr (by rw [← ht, run_concat])
    · exact Or.inl ⟨pre, hpre, ht⟩
  · rintro (⟨pre, hpre, ht⟩ | ht)
    · exact ⟨pre, hpre.trans (List.prefix_append _ _), ht⟩
    · exact ⟨acts ++ [a], List.prefix_rfl, by rw [run_concat, ht]⟩

/-! ### Reachability -/

section Reaches

/-- Some run of allowed actions leads from `s` to `t`. -/
def Reaches (M : Machine State Action Output) (allowed : State → Action → Prop) (s t : State) :
    Prop :=
  ∃ acts, M.Admits allowed s acts ∧ M.run s acts = t

variable {allowed : State → Action → Prop} {s t u : State}

/-- Every state is reached from itself. -/
theorem Reaches.refl (s : State) : M.Reaches allowed s s := ⟨[], trivial, rfl⟩

/-- Runs go on from where others have come to. -/
theorem Reaches.trans (h : M.Reaches allowed s t) (h' : M.Reaches allowed t u) :
    M.Reaches allowed s u := by
  obtain ⟨acts, hacts, rfl⟩ := h
  obtain ⟨more, hmore, rfl⟩ := h'
  exact ⟨acts ++ more, M.admits_append.mpr ⟨hacts, hmore⟩, M.run_append s acts more⟩

/-- A run of allowed actions can be prolonged by an allowed action. -/
theorem Reaches.next (h : M.Reaches allowed s t) {a : Action} (ha : allowed t a) :
    M.Reaches allowed s (M.next t a) :=
  h.trans ⟨[a], ⟨ha, trivial⟩, rfl⟩

/-- What each allowed action preserves holds of the states that can be reached. -/
theorem Reaches.invariant (h : M.Reaches allowed s t) {I : State → Prop} (base : I s)
    (step : ∀ s a, I s → allowed s a → I (M.next s a)) : I t := by
  obtain ⟨acts, hacts, rfl⟩ := h
  exact hacts.invariant base step

/-- **Rule for a task in parts.** If the part of each index can be done while an invariant holds,
leaving the parts of the others as they are, whether done or still to do, then a state can be
reached in which all parts are done. -/
theorem Reaches.forall_mem {ι : Type*} [DecidableEq ι] {Q : Finset ι} (I : State → Prop)
    (todo done : ι → State → Prop) (base : I s) (htodo : ∀ i ∈ Q, todo i s)
    (hdo : ∀ i ∈ Q, ∀ s, I s → todo i s → ∃ t, M.Reaches allowed s t ∧ I t ∧ done i t ∧
      ∀ j, j ≠ i → (todo j s → todo j t) ∧ (done j s → done j t)) :
    ∃ t, M.Reaches allowed s t ∧ I t ∧ ∀ i ∈ Q, done i t := by
  suffices hparts : ∀ P ⊆ Q, ∃ t, M.Reaches allowed s t ∧ I t ∧ (∀ i ∈ P, done i t) ∧
      ∀ i ∈ Q, i ∉ P → todo i t by
    obtain ⟨t, hreaches, hI, hdone, -⟩ := hparts Q subset_rfl
    exact ⟨t, hreaches, hI, hdone⟩
  intro P
  induction P using Finset.induction with
  | empty => exact fun _ => ⟨s, Reaches.refl s, base, by simp, fun i hi _ => htodo i hi⟩
  | insert i P hnew ih =>
    intro hsub
    obtain ⟨hi, hP⟩ := Finset.insert_subset_iff.mp hsub
    obtain ⟨t, hreaches, hI, hdone, hleft⟩ := ih hP
    obtain ⟨u, hreaches', hI', hdone', hothers⟩ := hdo i hi t hI (hleft i hi hnew)
    refine ⟨u, hreaches.trans hreaches', hI', fun j hj => ?_, fun j hj hjP => ?_⟩
    · rcases Finset.mem_insert.mp hj with rfl | hjP
      · exact hdone'
      · have hne : j ≠ i := by
          rintro rfl
          exact hnew hjP
        exact (hothers j hne).2 (hdone j hjP)
    · obtain ⟨hne, hjP⟩ := not_or.mp (mt Finset.mem_insert.mpr hjP)
      exact (hothers j hne).1 (hleft j hj hjP)

end Reaches

/-! ### Actions that are runs of another machine -/

section Scripts

variable {State' Action' Output' : Type*}

/-- The actions of another machine that a run stands for, if each of its actions stands for a list
of them. -/
def scripts (M : Machine State Action Output) (script : State → Action → List Action') (s : State) :
    List Action → List Action'
  | [] => []
  | a :: acts => script s a ++ scripts M script (M.next s a) acts

/-- Lists that do not depend on the state are put together as they are. -/
theorem scripts_const (f : Action → List Action') (s : State) (acts : List Action) :
    M.scripts (fun _ => f) s acts = acts.flatMap f := by
  induction acts generalizing s with
  | nil => rfl
  | cons a acts ih => rw [scripts, ih, List.flatMap_cons]

variable {M' : Machine State' Action' Output'} {script : State → Action → List Action'}
  (abs : State → State')

/-- **Refinement rule.** If each action does what its list of actions does, so does every run. -/
theorem run_scripts (h : ∀ s a, abs (M.next s a) = M'.run (abs s) (script s a)) (s : State)
    (acts : List Action) : abs (M.run s acts) = M'.run (abs s) (M.scripts script s acts) := by
  induction acts generalizing s with
  | nil => rfl
  | cons a acts ih => rw [run_cons, ih, h, scripts, run_append]

/-- The actions have the properties that the lists for single actions have. -/
theorem forall_mem_scripts {P : Action' → Prop} (h : ∀ s a, ∀ b ∈ script s a, P b) (s : State)
    (acts : List Action) : ∀ b ∈ M.scripts script s acts, P b := by
  induction acts generalizing s with
  | nil => simp [scripts]
  | cons a acts ih =>
    intro b hb
    rcases List.mem_append.mp hb with hnow | hlater
    · exact h s a b hnow
    · exact ih _ b hlater

/-- If each action also emits what its list of actions emits, so does every run. -/
theorem trace_scripts {M' : Machine State' Action' Output}
    (h : ∀ s a, abs (M.next s a) = M'.run (abs s) (script s a))
    (hemits : ∀ s a, M.emits s a = M'.trace (abs s) (script s a)) (s : State)
    (acts : List Action) : M.trace s acts = M'.trace (abs s) (M.scripts script s acts) := by
  induction acts generalizing s with
  | nil => rfl
  | cons a acts ih => rw [trace_cons, ih, hemits, scripts, trace_append, h]

end Scripts

/-! ### History variables -/

section Ghost

variable {Ghost : Type*}

/-- The machine with a history variable attached. `update` computes it from the state
before the action, the action and its old value; states and outputs are unaffected. -/
def withGhost (M : Machine State Action Output) (update : State → Action → Ghost → Ghost) :
    Machine (State × Ghost) Action Output where
  step s a := ((M.next s.1 a, update s.1 a s.2), M.emits s.1 a)

variable {update : State → Action → Ghost → Ghost}

/-- One step, and the update of the history variable. -/
@[simp] theorem withGhost_next (s : State × Ghost) (a : Action) :
    (M.withGhost update).next s a = (M.next s.1 a, update s.1 a s.2) := rfl

/-- The history variable does not change the run. -/
@[simp] theorem withGhost_run_fst (s : State × Ghost) (acts : List Action) :
    ((M.withGhost update).run s acts).1 = M.run s.1 acts := by
  induction acts generalizing s with
  | nil => rfl
  | cons a acts ih => simp only [run_cons, ih, withGhost_next]

/-- Nor what it emits. -/
@[simp] theorem withGhost_trace (s : State × Ghost) (acts : List Action) :
    (M.withGhost update).trace s acts = M.trace s.1 acts := by
  induction acts generalizing s with
  | nil => rfl
  | cons a acts ih =>
    rw [trace_cons, trace_cons, ih]
    rfl

end Ghost

/-! ### Interleavings of independent machines -/

section Fleet

variable {ι : Type*} [DecidableEq ι]

/-- A family of copies of one machine. An action names the copy that takes it. -/
def fleet (M : Machine State Action Output) (ι : Type*) [DecidableEq ι] :
    Machine (ι → State) (ι × Action) (ι × Output) where
  step s act := (Function.update s act.1 (M.next (s act.1) act.2),
    (M.emits (s act.1) act.2).map (Prod.mk act.1))

/-- The actions of one copy, in the order of the run. -/
def actionsOf (i : ι) (acts : List (ι × Action)) : List Action :=
  acts.filterMap fun act => if act.1 = i then some act.2 else none

@[simp] theorem actionsOf_nil (i : ι) : actionsOf i ([] : List (ι × Action)) = [] := rfl

/-- An action of the copy itself. -/
theorem actionsOf_cons_self (i : ι) (a : Action) (acts : List (ι × Action)) :
    actionsOf i ((i, a) :: acts) = a :: actionsOf i acts := by
  simp [actionsOf]

/-- An action of another copy. -/
theorem actionsOf_cons_of_ne {i j : ι} (h : j ≠ i) (a : Action) (acts : List (ι × Action)) :
    actionsOf i ((j, a) :: acts) = actionsOf i acts := by
  simp [actionsOf, h]

/-- Which actions are those of a copy. -/
theorem mem_actionsOf {i : ι} {a : Action} {acts : List (ι × Action)} :
    a ∈ actionsOf i acts ↔ (i, a) ∈ acts := by
  simp [actionsOf]

/-- At an earlier moment fewer actions have been taken. -/
theorem actionsOf_isPrefix (i : ι) {pre acts : List (ι × Action)} (h : pre <+: acts) :
    actionsOf i pre <+: actionsOf i acts :=
  h.filterMap _

/-- Each copy of an interleaving runs through its own actions. -/
theorem fleet_run_apply (i : ι) (s : ι → State) (acts : List (ι × Action)) :
    (M.fleet ι).run s acts i = M.run (s i) (actionsOf i acts) := by
  induction acts generalizing s with
  | nil => rfl
  | cons act acts ih =>
    obtain ⟨j, a⟩ := act
    rw [run_cons, ih]
    by_cases hij : j = i
    · subst hij
      rw [actionsOf_cons_self, run_cons]
      simp [fleet, next]
    · rw [actionsOf_cons_of_ne hij]
      simp [fleet, next, Function.update_of_ne (Ne.symm hij)]

/-- What a copy of an interleaving emits is what it emits in its own run. -/
theorem mem_fleet_trace {i : ι} {o : Output} {s : ι → State} {acts : List (ι × Action)} :
    (i, o) ∈ (M.fleet ι).trace s acts ↔ o ∈ M.trace (s i) (actionsOf i acts) := by
  induction acts generalizing s with
  | nil => simp
  | cons act acts ih =>
    obtain ⟨j, a⟩ := act
    rw [trace_cons, List.mem_append, ih]
    by_cases hij : j = i
    · subst hij
      rw [actionsOf_cons_self, trace_cons, List.mem_append]
      simp [fleet, next, emits]
    · rw [actionsOf_cons_of_ne hij]
      simp [fleet, next, emits, hij, Function.update_of_ne (Ne.symm hij)]

end Fleet

end Machine

end Machines
