import CppPaxos.Library.Gossip

/-!
# Runs in time

Each action of a run has a moment, and none is taken before an earlier one. So the run can be
cut at any moment, and the windows of one length are the rounds of gossip, if whoever is to be
reached is reached within one window.
-/

namespace Machines

variable {α ι State Action Output Msg κ : Type*} {acts : List (ℕ × α)} {t u : ℕ}

/-- No action is taken before an earlier one. -/
def InOrder (acts : List (ℕ × α)) : Prop := acts.Pairwise fun a b => a.1 ≤ b.1

/-- What has been done at a moment. -/
def upTo (t : ℕ) (acts : List (ℕ × α)) : List (ℕ × α) := acts.filter fun a => a.1 ≤ t

/-- What is done later. -/
def after (t : ℕ) (acts : List (ℕ × α)) : List (ℕ × α) := acts.filter fun a => t < a.1

instance (acts : List (ℕ × α)) : Decidable (InOrder acts) :=
  inferInstanceAs (Decidable (acts.Pairwise _))

/-- What has happened up to a moment. -/
theorem mem_upTo {a : ℕ × α} : a ∈ upTo t acts ↔ a ∈ acts ∧ a.1 ≤ t := by simp [upTo]

/-- What has happened after it. -/
theorem mem_after {a : ℕ × α} : a ∈ after t acts ↔ a ∈ acts ∧ t < a.1 := by simp [after]

/-- What has happened by then in both parts of a list. -/
theorem upTo_append (t : ℕ) (acts more : List (ℕ × α)) :
    upTo t (acts ++ more) = upTo t acts ++ upTo t more := List.filter_append _ _

/-- All has happened by then. -/
theorem upTo_eq_self (h : ∀ a ∈ acts, a.1 ≤ t) : upTo t acts = acts :=
  List.filter_eq_self.mpr fun a ha => decide_eq_true (h a ha)

/-- Nothing has happened by then. -/
theorem upTo_eq_nil (h : ∀ a ∈ acts, t < a.1) : upTo t acts = [] :=
  List.filter_eq_nil_iff.mpr fun a ha => by simpa using h a ha

/-- All has happened after it. -/
theorem after_eq_self (h : ∀ a ∈ acts, t < a.1) : after t acts = acts :=
  List.filter_eq_self.mpr fun a ha => decide_eq_true (h a ha)

/-- The later of two moments decides. -/
theorem after_after (h : t ≤ u) (acts : List (ℕ × α)) : after u (after t acts) = after u acts := by
  rw [after, after, List.filter_filter]
  refine List.filter_congr fun a _ => ?_
  by_cases hlate : u < a.1
  · simp [hlate, h.trans_lt hlate]
  · simp [hlate]

/-- The rest of an ordered list is ordered. -/
theorem InOrder.after (h : InOrder acts) (t : ℕ) : InOrder (after t acts) :=
  List.Pairwise.filter _ h

/-- A run can be cut at any moment. -/
theorem InOrder.upTo_append_after (h : InOrder acts) (t : ℕ) :
    upTo t acts ++ Machines.after t acts = acts := by
  induction acts with
  | nil => rfl
  | cons a acts ih =>
    obtain ⟨hfirst, hrest⟩ := List.pairwise_cons.mp h
    by_cases ha : a.1 ≤ t
    · have hupTo : upTo t (a :: acts) = a :: upTo t acts := List.filter_cons_of_pos (by simpa)
      have hafter : Machines.after t (a :: acts) = Machines.after t acts :=
        List.filter_cons_of_neg (by simpa using ha)
      rw [hupTo, hafter, List.cons_append, ih hrest]
    · have hlate : ∀ b ∈ a :: acts, t < b.1 := by
        intro b hb
        rcases List.mem_cons.mp hb with rfl | hb
        · omega
        · have hab := hfirst b hb
          omega
      rw [upTo_eq_nil hlate, after_eq_self hlate, List.nil_append]

/-- A window closes what was open at its beginning. -/
theorem InOrder.upTo_append_window (h : InOrder acts) (htu : t ≤ u) :
    upTo t acts ++ upTo u (Machines.after t acts) = upTo u acts := by
  have hold : upTo u (upTo t acts) = upTo t acts :=
    upTo_eq_self fun a ha => (mem_upTo.mp ha).2.trans htu
  rw [← hold, ← upTo_append, h.upTo_append_after]

/-- An action that a run takes late is not among its first ones. -/
theorem mem_of_append_of_lt {pre post : List (ℕ × α)} {a : ℕ × α} (h : a ∈ pre ++ post)
    (hpre : ∀ b ∈ pre, b.1 ≤ t) (ha : t < a.1) : a ∈ post := by
  rcases List.mem_append.mp h with hmem | hmem
  · have hle := hpre a hmem
    omega
  · exact hmem

/-- What comes before an action of a run is not later. -/
theorem InOrder.le_of_append_cons {pre post : List (ℕ × α)} {a : ℕ × α}
    (h : InOrder (pre ++ a :: post)) : ∀ b ∈ pre ++ [a], b.1 ≤ a.1 := by
  obtain ⟨-, -, hbefore⟩ := List.pairwise_append.mp h
  intro b hb
  rcases List.mem_append.mp hb with hpre | hself
  · exact hbefore b hpre a List.mem_cons_self
  · rw [List.mem_singleton.mp hself]

/-- What comes before a moment of a run is in every window that contains this moment. -/
theorem InOrder.upTo_append_cons {pre rest : List (ℕ × α)} {a : ℕ × α}
    (h : InOrder (pre ++ a :: rest)) (ha : a.1 ≤ t) :
    upTo t (pre ++ a :: rest) = pre ++ a :: upTo t rest := by
  have hpre : ∀ b ∈ pre, b.1 ≤ t := fun b hb =>
    (h.le_of_append_cons b (List.mem_append_left _ hb)).trans ha
  rw [upTo_append, upTo_eq_self hpre, upTo, List.filter_cons_of_pos (by simpa)]
  rfl

/-! ### Rounds of gossip -/

section Rounds

variable [DecidableEq ι] {M : Machine State Action Output} {G : Gossip M Msg κ}
  {C : Network ι State Output} {acts : List (ℕ × ι × Action)} {contacts : State → ι → Prop}

/-- News that are delivered in the rest of a run are delivered in the run. -/
theorem Gossip.Delivers.append_left {pre acts : List (ι × Action)} {i j : ι}
    (h : G.Delivers ((M.network ι).run C pre) acts i j) : G.Delivers C (pre ++ acts) i j := by
  obtain ⟨mid, a, rest, rfl, o, ho, htaken⟩ := h
  rw [← Machine.run_append] at ho
  exact ⟨pre ++ mid, a, rest, by rw [List.append_assoc], o, ho, htaken⟩

/-- News stay delivered when the run goes on. -/
theorem Gossip.Delivers.append_right {acts : List (ι × Action)} {i j : ι}
    (h : G.Delivers C acts i j) (more : List (ι × Action)) : G.Delivers C (acts ++ more) i j := by
  obtain ⟨pre, a, rest, rfl, o, ho, hcarries, b, hb, htaken⟩ := h
  exact ⟨pre, a, rest ++ more, by simp, o, ho, hcarries, b, List.mem_append_left _ hb, htaken⟩

/-- **Windows are rounds.** If in every window of one length each party reaches those whom it
contacted at its beginning, as many rounds fit in as windows do. -/
theorem InOrder.rounds (h : InOrder acts) {length r t₀ : ℕ}
    (hwindow : ∀ t, t₀ ≤ t → t + length ≤ t₀ + r * length → ∀ i j, j ≠ i →
      contacts (((M.network ι).run C ((upTo t acts).map Prod.snd)).parties i) j →
        G.Delivers ((M.network ι).run C ((upTo t acts).map Prod.snd))
          ((upTo (t + length) (Machines.after t acts)).map Prod.snd) i j) :
    G.Rounds contacts r ((M.network ι).run C ((upTo t₀ acts).map Prod.snd))
      ((upTo (t₀ + r * length) (Machines.after t₀ acts)).map Prod.snd) := by
  induction r generalizing t₀ with
  | zero => trivial
  | succ r ih =>
    have hsplit : t₀ + (r + 1) * length = t₀ + length + r * length := by
      rw [Nat.succ_mul]
      omega
    have hle : t₀ + length ≤ t₀ + (r + 1) * length := by omega
    refine ⟨_, (upTo (t₀ + (r + 1) * length) (Machines.after (t₀ + length) acts)).map Prod.snd, ?_,
      hwindow t₀ le_rfl hle, ?_⟩
    · rw [← List.map_append, ← after_after (Nat.le_add_right t₀ length) acts,
        (h.after t₀).upTo_append_window hle]
    · rw [← Machine.run_append, ← List.map_append, h.upTo_append_window (Nat.le_add_right _ _),
        hsplit]
      exact ih fun t ht hlong => hwindow t (by omega) (by omega)

end Rounds

end Machines
