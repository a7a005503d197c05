import CppPaxos.Library.Machine

/-!
# Parties on a network

Copies of one machine that exchange messages. The network keeps everything ever sent,
so that a message may be lost, delayed, repeated and overtaken; which actions a party
can take is a matter of its state and of what has been sent. A property of one party
and of the messages sent, which further messages of others cannot destroy, is kept by
all parties if each keeps it while all have it.
-/

namespace Machines

/-- The states of the parties, and everything each of them has sent, in order. -/
@[ext]
structure Network (ι State Output : Type*) where
  parties : ι → State
  sent : ι → List Output

namespace Machine

variable {ι State Action Output : Type*} [DecidableEq ι] (M : Machine State Action Output)

/-- Copies of a machine on a network. An action names the party that takes it. -/
def network (ι : Type*) [DecidableEq ι] :
    Machine (Network ι State Output) (ι × Action) Output where
  step C act :=
    ({ parties := Function.update C.parties act.1 (M.next (C.parties act.1) act.2)
       sent := Function.update C.sent act.1
        (C.sent act.1 ++ M.emits (C.parties act.1) act.2) },
      M.emits (C.parties act.1) act.2)

variable {M} {C : Network ι State Output} {i j : ι} {a : Action}

/-- The party that acts takes one step. -/
@[simp] theorem network_next_parties_self :
    ((M.network ι).next C (i, a)).parties i = M.next (C.parties i) a := by
  simp [network, next]

/-- The others stay as they are. -/
theorem network_next_parties_of_ne (h : j ≠ i) :
    ((M.network ι).next C (i, a)).parties j = C.parties j := by
  simp [network, next, Function.update_of_ne h]

/-- It has sent what it emits. -/
@[simp] theorem network_next_sent_self :
    ((M.network ι).next C (i, a)).sent i = C.sent i ++ M.emits (C.parties i) a := by
  simp [network, next]

/-- The others send nothing. -/
theorem network_next_sent_of_ne (h : j ≠ i) :
    ((M.network ι).next C (i, a)).sent j = C.sent j := by
  simp [network, next, Function.update_of_ne h]

/-- Nothing that has been sent is forgotten. -/
theorem sent_subset_next (C : Network ι State Output) (act : ι × Action) (j : ι) :
    C.sent j ⊆ ((M.network ι).next C act).sent j := by
  obtain ⟨i, a⟩ := act
  by_cases h : j = i
  · subst h
    rw [network_next_sent_self]
    exact List.subset_append_left _ _
  · rw [network_next_sent_of_ne h]
    exact List.Subset.refl _

/-- What has been sent at one moment of a run has been sent at any later one. -/
theorem sent_subset_of_prefix (C : Network ι State Output) {pre acts : List (ι × Action)}
    (h : pre <+: acts) (j : ι) :
    ((M.network ι).run C pre).sent j ⊆ ((M.network ι).run C acts).sent j := by
  have hall : (M.network ι).Admits (fun _ _ => True) C acts :=
    admits_const_iff.mpr fun _ _ => trivial
  exact hall.relates_of_prefix h (I := fun _ => True) trivial (fun _ _ _ _ => trivial)
    (R := fun C C' => C.sent j ⊆ C'.sent j) (fun _ => List.Subset.refl _)
    (fun _ _ _ => List.Subset.trans) fun C act _ _ => sent_subset_next C act j

/-- What a party has sent in a run was sent before it, or is emitted by one of the party's actions
in it. -/
theorem mem_sent_run_iff {acts : List (ι × Action)} {o : Output} :
    o ∈ ((M.network ι).run C acts).sent j ↔ o ∈ C.sent j ∨
      ∃ pre act, pre ++ [act] <+: acts ∧
        (act.1 = j ∧ o ∈ M.emits (((M.network ι).run C pre).parties j) act.2) := by
  induction acts using List.reverseRecOn with
  | nil => simp
  | append_singleton acts act ih =>
    obtain ⟨i, a⟩ := act
    rw [run_concat, exists_concat_iff, ← or_assoc, ← ih]
    by_cases h : j = i
    · subst h
      rw [network_next_sent_self, List.mem_append]
      simp
    · rw [network_next_sent_of_ne h]
      simp [Ne.symm h]

/-- A property of a party and of what has been sent holds of all parties after an action, if it
survives what the others send, and the party that takes the action has it then. -/
theorem network_invariant_next {I : (ι → List Output) → ι → State → Prop} {act : ι × Action}
    (hI : ∀ i, I C.sent i (C.parties i))
    (mono : ∀ sent sent' i s, I sent i s → sent' i = sent i → (∀ j, sent j ⊆ sent' j) →
      I sent' i s)
    (step : I ((M.network ι).next C act).sent act.1 (M.next (C.parties act.1) act.2)) (i : ι) :
    I ((M.network ι).next C act).sent i (((M.network ι).next C act).parties i) := by
  obtain ⟨j, a⟩ := act
  by_cases hij : i = j
  · subst hij
    rw [network_next_parties_self]
    exact step
  · rw [network_next_parties_of_ne hij]
    exact mono _ _ i _ (hI i) (network_next_sent_of_ne hij) fun l => sent_subset_next C (j, a) l

/-- A property of the parties alone holds of all of them after an action, if the party that takes
the action has it then. -/
theorem network_parties_invariant_next {P : ι → State → Prop} {act : ι × Action}
    (h : ∀ i, P i (C.parties i)) (step : P act.1 (M.next (C.parties act.1) act.2)) (i : ι) :
    P i (((M.network ι).next C act).parties i) :=
  network_invariant_next (I := fun _ => P) h (fun _ _ _ _ h _ _ => h) step i

/-- **Rule for networks.** A property of a party and of what has been sent holds of all parties
after every run, if it survives what the others send, and each party keeps it with each allowed
action while all have it. -/
theorem Admits.network_invariant {allowed : Network ι State Output → ι × Action → Prop}
    {acts : List (ι × Action)} (h : (M.network ι).Admits allowed C acts)
    {I : (ι → List Output) → ι → State → Prop} (base : ∀ i, I C.sent i (C.parties i))
    (mono : ∀ sent sent' i s, I sent i s → sent' i = sent i → (∀ j, sent j ⊆ sent' j) →
      I sent' i s)
    (step : ∀ C i a, (∀ j, I C.sent j (C.parties j)) → allowed C (i, a) →
      I ((M.network ι).next C (i, a)).sent i (M.next (C.parties i) a)) (i : ι) :
    I ((M.network ι).run C acts).sent i (((M.network ι).run C acts).parties i) :=
  h.invariant (I := fun C => ∀ i, I C.sent i (C.parties i)) base
    (fun C act hI ha => network_invariant_next hI mono (step C act.1 act.2 hI ha)) i

end Machine

end Machines
