import CppPaxos.Library.Network
import Mathlib.Combinatorics.SimpleGraph.Paths
import Mathlib.Data.Set.Lattice

/-!
# Gossip

Parties on a network that tell each other all they know. What a party knows after a run is what
was known at the start to the parties from which a chain of messages has led to it; this is
independent of what else happens and in which order. If every party repeatedly reaches those it
knows of, and some that were named to it, then news crosses one link, whichever of its ends was
named to the other, every two rounds.
-/

namespace Machines

variable {ι State Action Output Msg κ : Type*}

/-- A machine that gossips. Under an invariant it forgets nothing and learns only from the messages
that it takes, and each message of the kind that carries news carries all that is known to the
sender. -/
structure Gossip (M : Machine State Action Output) (Msg κ : Type*) where
  Inv : State → Prop
  known : State → Set κ
  /-- The message that an output stands for, and the message that an action takes. -/
  content : Output → Msg
  taken : Action → Option Msg
  /-- The messages that carry news, and the news that they carry. -/
  Carries : Msg → Prop
  news : Msg → Set κ
  inv_next : ∀ s a, Inv s → Inv (M.next s a)
  known_next : ∀ s a, Inv s → ∀ x, x ∈ known (M.next s a) ↔
    x ∈ known s ∨ ∃ m ∈ taken a, Carries m ∧ x ∈ news m
  news_eq : ∀ s a, Inv s → ∀ o ∈ M.emits s a, Carries (content o) → news (content o) = known s

namespace Gossip

variable [DecidableEq ι] {M : Machine State Action Output} (G : Gossip M Msg κ)

/-- A chain of messages has led from `k` to `i` in the run: each was emitted by the party that the
chain had reached by then, and was taken by the next one later. -/
inductive Flows (C : Network ι State Output) (k : ι) : List (ι × Action) → ι → Prop
  | start : Flows C k [] k
  | keep {acts : List (ι × Action)} {i : ι} (act : ι × Action) (h : Flows C k acts i) :
    Flows C k (acts ++ [act]) i
  | take {pre acts : List (ι × Action)} {i j : ι} {a b : Action} {o : Output}
    (h : Flows C k pre j) (hpre : pre ++ [(j, a)] <+: acts)
    (ho : o ∈ M.emits (((M.network ι).run C pre).parties j) a)
    (hcarries : G.Carries (G.content o)) (htaken : G.content o ∈ G.taken b) :
    Flows C k (acts ++ [(i, b)]) i

/-- All messages taken have been sent by some party. -/
def Taken (C : Network ι State Output) (act : ι × Action) : Prop :=
  ∀ m ∈ G.taken act.2, ∃ j, ∃ o ∈ C.sent j, G.content o = m

variable {G} {C : Network ι State Output} {acts : List (ι × Action)} {i j k t : ι} {x : κ}

/-- All parties keep the invariant. -/
theorem inv_network_next (hinv : ∀ i, G.Inv (C.parties i)) (act : ι × Action) (i : ι) :
    G.Inv (((M.network ι).next C act).parties i) :=
  Machine.network_parties_invariant_next (P := fun _ s => G.Inv s) hinv
    (G.inv_next _ _ (hinv act.1)) i

/-- They keep it in every run. -/
theorem inv_run (hinv : ∀ i, G.Inv (C.parties i)) (acts : List (ι × Action)) (i : ι) :
    G.Inv (((M.network ι).run C acts).parties i) := by
  induction acts generalizing C with
  | nil => exact hinv i
  | cons act acts ih => exact ih fun i => inv_network_next hinv act i

/-- Nothing is forgotten. -/
theorem known_subset_next (hinv : ∀ i, G.Inv (C.parties i)) (act : ι × Action) (i : ι) :
    G.known (C.parties i) ⊆ G.known (((M.network ι).next C act).parties i) :=
  Machine.network_parties_invariant_next (P := fun i s => G.known (C.parties i) ⊆ G.known s)
    (fun _ => subset_rfl) (fun x hx => (G.known_next _ _ (hinv act.1) x).mpr (Or.inl hx)) i

/-- Nothing is forgotten in a run. -/
theorem known_subset_run (hinv : ∀ i, G.Inv (C.parties i)) (acts : List (ι × Action)) (i : ι) :
    G.known (C.parties i) ⊆ G.known (((M.network ι).run C acts).parties i) := by
  induction acts generalizing C with
  | nil => exact subset_rfl
  | cons act acts ih =>
    exact (known_subset_next hinv act i).trans (ih fun i => inv_network_next hinv act i)

/-- A chain brings along what was known where it began. -/
theorem Flows.known_subset (h : G.Flows C k acts i) (hinv : ∀ i, G.Inv (C.parties i)) :
    G.known (C.parties k) ⊆ G.known (((M.network ι).run C acts).parties i) := by
  induction h with
  | start => exact subset_rfl
  | keep act _ ih =>
    rw [Machine.run_concat]
    exact ih.trans (known_subset_next (inv_run hinv _) act _)
  | @take pre acts i j a b o _ _ ho hcarries htaken ih =>
    intro x hx
    rw [Machine.run_concat, Machine.network_next_parties_self,
      G.known_next _ _ (inv_run hinv acts i)]
    refine Or.inr ⟨G.content o, htaken, hcarries, ?_⟩
    rw [G.news_eq _ _ (inv_run hinv pre j) o ho hcarries]
    exact ih hx

/-- **What is known.** After a run in which only messages that were sent are taken, a party knows
what was known at the start to the parties from which a chain of messages has led to it. -/
theorem mem_known_run_iff (h : (M.network ι).Admits G.Taken C acts)
    (hsent : ∀ i, C.sent i = []) (hinv : ∀ i, G.Inv (C.parties i)) :
    x ∈ G.known (((M.network ι).run C acts).parties i) ↔
      ∃ k, x ∈ G.known (C.parties k) ∧ G.Flows C k acts i := by
  refine ⟨?_, fun ⟨k, hx, hflows⟩ => hflows.known_subset hinv hx⟩
  suffices hall : ∀ pre, pre <+: acts → ∀ i,
      x ∈ G.known (((M.network ι).run C pre).parties i) →
        ∃ k, x ∈ G.known (C.parties k) ∧ G.Flows C k pre i from hall acts List.prefix_rfl i
  induction acts using List.reverseRecOn with
  | nil =>
    intro pre hpre i hx
    rw [List.prefix_nil.mp hpre] at hx ⊢
    exact ⟨i, hx, .start⟩
  | append_singleton acts act ih =>
    obtain ⟨hacts, hact⟩ := (M.network ι).admits_concat.mp h
    have hearlier := ih hacts
    intro pre hpre i hx
    rcases List.prefix_concat_iff.mp hpre with rfl | hpre
    · obtain ⟨j, a⟩ := act
      have hkept : x ∈ G.known (((M.network ι).run C acts).parties i) →
          ∃ k, x ∈ G.known (C.parties k) ∧ G.Flows C k (acts ++ [(j, a)]) i := by
        intro hold
        obtain ⟨k, hk, hflows⟩ := hearlier acts List.prefix_rfl i hold
        exact ⟨k, hk, hflows.keep _⟩
      rw [Machine.run_concat] at hx
      by_cases hij : i = j
      · subst hij
        rw [Machine.network_next_parties_self, G.known_next _ _ (inv_run hinv acts i)] at hx
        rcases hx with hold | ⟨m, hm, hcarries, hnews⟩
        · exact hkept hold
        · -- The message was emitted by a party that knew of it then.
          obtain ⟨j, o, ho, rfl⟩ := hact m hm
          obtain ⟨before, ⟨l, b⟩, hbefore, rfl, hemitted⟩ :=
            (Machine.mem_sent_run_iff.mp ho).resolve_left (by simp [hsent j])
          rw [G.news_eq _ _ (inv_run hinv before l) o hemitted hcarries] at hnews
          obtain ⟨k, hk, hflows⟩ :=
            hearlier before ((List.prefix_append _ _).trans hbefore) l hnews
          exact ⟨k, hk, hflows.take hbefore hemitted hcarries hm⟩
      · rw [Machine.network_next_parties_of_ne hij] at hx
        exact hkept hx
    · exact hearlier pre hpre i hx

/-! ### Rounds -/

variable (G)

/-- Some news that `i` emits in the run is taken by `t` in the rest of the run. -/
def Delivers (C : Network ι State Output) (acts : List (ι × Action)) (i t : ι) : Prop :=
  ∃ pre a rest, acts = pre ++ (i, a) :: rest ∧
    ∃ o ∈ M.emits (((M.network ι).run C pre).parties i) a, G.Carries (G.content o) ∧
      ∃ b, (t, b) ∈ rest ∧ G.content o ∈ G.taken b

/-- The run contains `r` rounds, one after another: in each of them every party reaches all those
whom it contacted at its beginning. -/
def Rounds (contacts : State → ι → Prop) :
    ℕ → Network ι State Output → List (ι × Action) → Prop
  | 0, _, _ => True
  | r + 1, C, acts => ∃ round rest, acts = round ++ rest ∧
    (∀ i t, t ≠ i → contacts (C.parties i) t → G.Delivers C round i t) ∧
      Rounds contacts r ((M.network ι).run C round) rest

variable {G}

/-- Delivered news make known all that the sender knew. -/
theorem Delivers.known_subset (h : G.Delivers C acts i t) (hinv : ∀ i, G.Inv (C.parties i)) :
    G.known (C.parties i) ⊆ G.known (((M.network ι).run C acts).parties t) := by
  obtain ⟨pre, a, rest, rfl, o, ho, hcarries, b, hb, htaken⟩ := h
  obtain ⟨mid, post, rfl⟩ := List.append_of_mem hb
  have hinv' := inv_run hinv (pre ++ (i, a) :: mid)
  intro x hx
  have hthen : x ∈ G.known (((M.network ι).run C pre).parties i) :=
    known_subset_run hinv pre i hx
  rw [← G.news_eq _ _ (inv_run hinv pre i) o ho hcarries] at hthen
  have htold : x ∈ G.known (((M.network ι).next ((M.network ι).run C (pre ++ (i, a) :: mid))
      (t, b)).parties t) := by
    rw [Machine.network_next_parties_self, G.known_next _ _ (hinv' t)]
    exact Or.inr ⟨_, htaken, hcarries, hthen⟩
  rw [← List.cons_append, ← List.append_assoc, Machine.run_append_cons]
  exact known_subset_run (fun i => inv_network_next hinv' _ i) post t htold

/-- A run with many rounds has few. -/
theorem Rounds.mono {contacts : State → ι → Prop} {r r' : ℕ} (hle : r' ≤ r)
    (h : G.Rounds contacts r C acts) : G.Rounds contacts r' C acts := by
  induction r' generalizing r C acts with
  | zero => trivial
  | succ r' ih =>
    obtain ⟨r, rfl⟩ : ∃ n, r = n + 1 := ⟨r - 1, by omega⟩
    obtain ⟨round, rest, hacts, hround, hrest⟩ := h
    exact ⟨round, rest, hacts, hround, ih (by omega) hrest⟩

section Spreads

variable {contacts : State → ι → Prop} {item : ι → κ} {named : ι → ι → Prop}
  {allowed : Network ι State Output → ι × Action → Prop} {J : Network ι State Output → Prop}

/-- Across a link, news goes in two rounds: the end that was named to the other hears of it in the
first round and answers in the second one. -/
theorem known_of_adj
    (hself : ∀ C, J C → ∀ i, item i ∈ G.known (C.parties i))
    (hcontacts : ∀ C, J C → ∀ i t, t ≠ i → named i t ∨ item t ∈ G.known (C.parties i) →
      contacts (C.parties i) t)
    (hJ : J C) (hinv : ∀ i, G.Inv (C.parties i))
    {first second : List (ι × Action)} (hmid : J ((M.network ι).run C first))
    (hfirst : ∀ i t, t ≠ i → contacts (C.parties i) t → G.Delivers C first i t)
    (hsecond : ∀ i t, t ≠ i → contacts (((M.network ι).run C first).parties i) t →
      G.Delivers ((M.network ι).run C first) second i t)
    (hadj : (SimpleGraph.fromRel named).Adj k t) (hx : x ∈ G.known (C.parties k)) :
    x ∈ G.known (((M.network ι).run ((M.network ι).run C first) second).parties t) := by
  rw [SimpleGraph.fromRel_adj] at hadj
  obtain ⟨hne, hnamed | hnamed⟩ := hadj
  · have hdelivers := hfirst k t hne.symm (hcontacts C hJ k t hne.symm (Or.inl hnamed))
    exact known_subset_run (inv_run hinv first) second t (hdelivers.known_subset hinv hx)
  · have hheard : item t ∈ G.known (((M.network ι).run C first).parties k) :=
      (hfirst t k hne (hcontacts C hJ t k hne (Or.inl hnamed))).known_subset hinv (hself C hJ t)
    have hdelivers := hsecond k t hne.symm (hcontacts _ hmid k t hne.symm (Or.inr hheard))
    exact hdelivers.known_subset (inv_run hinv first) (known_subset_run hinv first k hx)

/-- **How fast news spreads.** Along a walk of links, news goes from one end to the other in twice
as many rounds as the walk has links. -/
theorem known_of_walk
    (hself : ∀ C, J C → ∀ i, item i ∈ G.known (C.parties i))
    (hcontacts : ∀ C, J C → ∀ i t, t ≠ i → named i t ∨ item t ∈ G.known (C.parties i) →
      contacts (C.parties i) t)
    (hnext : ∀ C act, J C → allowed C act → J ((M.network ι).next C act))
    (w : (SimpleGraph.fromRel named).Walk k i) :
    ∀ {C acts}, J C → (∀ i, G.Inv (C.parties i)) → (M.network ι).Admits allowed C acts →
      G.Rounds contacts (2 * w.length) C acts → x ∈ G.known (C.parties k) →
        x ∈ G.known (((M.network ι).run C acts).parties i) := by
  induction w with
  | nil => exact fun {C acts} _ hinv _ _ hx => known_subset_run hinv acts _ hx
  | @cons k t i hadj w ih =>
    intro C acts hJ hinv hadmits hrounds hx
    rw [SimpleGraph.Walk.length_cons, Nat.mul_add] at hrounds
    obtain ⟨first, _, rfl, hfirst, second, rest, rfl, hsecond, hrest⟩ := hrounds
    obtain ⟨hadmits₁, hadmits'⟩ := (M.network ι).admits_append.mp hadmits
    obtain ⟨hadmits₂, hadmits₃⟩ := (M.network ι).admits_append.mp hadmits'
    have hmid := hadmits₁.invariant hJ hnext
    rw [Machine.run_append, Machine.run_append]
    refine ih (hadmits₂.invariant hmid hnext) (inv_run (inv_run hinv first) second) hadmits₃
      hrest ?_
    exact known_of_adj hself hcontacts hJ hinv hmid hfirst hsecond hadj hx

end Spreads

end Gossip

end Machines
