import Mathlib.Data.List.Chain
import Mathlib.Data.Nat.Notation

/-!
# Sampling at a minimal distance

Of moments that pass by, the first one is taken, and then always the next one that is more than
a period after the last one taken. If the moments are close to each other, as many are taken as
there are periods, give or take what the moments are late.
-/

namespace Sampling

/-- A moment is taken if none was before, or if more than a period has passed since. -/
def Due (p : ℕ) : Option ℕ → ℕ → Prop
  | none, _ => True
  | some last, x => last + p < x

instance (p : ℕ) : ∀ (last : Option ℕ) (x : ℕ), Decidable (Due p last x)
  | none, _ => isTrue trivial
  | some last, x => inferInstanceAs (Decidable (last + p < x))

/-- The moments that are taken. -/
def every (p : ℕ) (last : Option ℕ) : List ℕ → List ℕ
  | [] => []
  | x :: xs => if Due p last x then x :: every p (some x) xs else every p last xs

variable {p δ last x : ℕ} {xs : List ℕ}

/-- A moment that is due is taken, and the next ones are measured from it. -/
theorem every_cons_of_due {last : Option ℕ} (h : Due p last x) (xs : List ℕ) :
    every p last (x :: xs) = x :: every p (some x) xs := if_pos h

/-- A moment that is not due passes by. -/
theorem every_cons_of_not_due {last : Option ℕ} (h : ¬Due p last x) (xs : List ℕ) :
    every p last (x :: xs) = every p last xs := if_neg h

/-- Neighbouring moments are in order, and at most `δ` apart. -/
def Dense (δ : ℕ) (xs : List ℕ) : Prop := xs.IsChain fun x y => x ≤ y ∧ y ≤ x + δ

instance (δ : ℕ) (xs : List ℕ) : Decidable (Dense δ xs) :=
  inferInstanceAs (Decidable (xs.IsChain _))

/-- All lie between the first one and the last one. -/
theorem Dense.le_of_mem (h : Dense δ (x :: xs)) :
    ∀ y ∈ x :: xs, x ≤ y ∧ y ≤ (x :: xs).getLast (List.cons_ne_nil x xs) := by
  induction xs generalizing x with
  | nil => simp
  | cons z xs ih =>
    obtain ⟨⟨hxz, -⟩, hrest⟩ := List.isChain_cons_cons.mp h
    have hlater := ih hrest
    rw [List.getLast_cons (List.cons_ne_nil z xs)]
    intro y hy
    rcases List.mem_cons.mp hy with rfl | hy
    · exact ⟨le_rfl, hxz.trans (hlater z List.mem_cons_self).2⟩
    · exact ⟨hxz.trans (hlater y hy).1, (hlater y hy).2⟩

/-- What has been taken since the last moment, when the current one is within a period of it. -/
theorem length_every_some (hlast : last ≤ x) (hx : x ≤ last + p) (h : Dense δ (x :: xs)) :
    last + (every p (some last) xs).length * (p + 1) ≤ (x :: xs).getLast (List.cons_ne_nil x xs) ∧
      (x :: xs).getLast (List.cons_ne_nil x xs) ≤
        last + (every p (some last) xs).length * (p + δ) + p := by
  induction xs generalizing last x with
  | nil => simp [every, hlast, hx]
  | cons y xs ih =>
    obtain ⟨⟨hxy, hyx⟩, hrest⟩ := List.isChain_cons_cons.mp h
    rw [List.getLast_cons (List.cons_ne_nil y xs)]
    by_cases hdue : Due p (some last) y
    · have hlate : last + p < y := hdue
      obtain ⟨hlow, hhigh⟩ := ih le_rfl (Nat.le_add_right y p) hrest
      rw [every_cons_of_due hdue, List.length_cons, Nat.succ_mul, Nat.succ_mul]
      exact ⟨by omega, by omega⟩
    · rw [every_cons_of_not_due hdue]
      exact ih (hlast.trans hxy) (not_lt.mp hdue) hrest

/-- **Which moments are taken.** The first one, and then one for each period, of which none is
shorter than `p + 1`, and none but the current one longer than `p + δ`. -/
theorem every_none_cons (h : Dense δ (x :: xs)) :
    ∃ later, every p none (x :: xs) = x :: later ∧
      x + later.length * (p + 1) ≤ (x :: xs).getLast (List.cons_ne_nil x xs) ∧
      (x :: xs).getLast (List.cons_ne_nil x xs) ≤ x + later.length * (p + δ) + p := by
  have hfirst : Due p none x := trivial
  exact ⟨_, every_cons_of_due hfirst xs, length_every_some le_rfl (Nat.le_add_right x p) h⟩

end Sampling
