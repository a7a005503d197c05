import Mathlib.Algebra.Order.Ring.Nat
import Mathlib.Tactic.Linarith
import Mathlib.Tactic.Positivity
import Mathlib.Tactic.Ring
import Mathlib.Tactic.Zify

/-!
# Smoothed estimates

An estimate keeps `w` parts of its value and takes in one part of each sample, rounded
down. What it is above the samples, and what it is more than `w` below them, shrinks
geometrically. So it settles among the samples, up to the rounding.
-/

namespace Smoothing

/-- The estimate `e` after the sample `s`. -/
def smooth (w e s : ℕ) : ℕ := (w * e + s) / (w + 1)

variable {w e s lo hi : ℕ} {samples : List ℕ}

/-- The new estimate is a weighted mean, rounded down. -/
theorem mul_smooth_le (w e s : ℕ) : (w + 1) * smooth w e s ≤ w * e + s := Nat.mul_div_le _ _

/-- Rounding takes less than one part away. -/
theorem le_mul_smooth_add (w e s : ℕ) : w * e + s ≤ (w + 1) * smooth w e s + w := by
  have hmod : (w * e + s) % (w + 1) < w + 1 := Nat.mod_lt _ (Nat.succ_pos w)
  have hdiv := Nat.div_add_mod (w * e + s) (w + 1)
  rw [smooth]
  omega

/-- An upper bound of the estimate and the sample is one of the new estimate. -/
theorem smooth_le (hs : s ≤ hi) (he : e ≤ hi) : smooth w e s ≤ hi := by
  have hmul := mul_smooth_le w e s
  by_contra hlt
  have hstep : (w + 1) * (hi + 1) ≤ (w + 1) * smooth w e s := Nat.mul_le_mul_left _ (by omega)
  have hkept : w * e ≤ w * hi := Nat.mul_le_mul_left _ he
  linarith

/-- What the estimate is above the samples shrinks. -/
theorem mul_excess_le (hs : s ≤ hi) : (w + 1) * (smooth w e s - hi) ≤ w * (e - hi) := by
  have hmul := mul_smooth_le w e s
  rcases le_total e hi with hbelow | habove
  · simp [Nat.sub_eq_zero_of_le (smooth_le (w := w) hs hbelow)]
  · rcases le_total (smooth w e s) hi with hdone | hleft
    · simp [Nat.sub_eq_zero_of_le hdone]
    · zify [habove, hleft] at hmul hs ⊢
      linarith

/-- What the estimate is below the samples shrinks, up to the rounding. -/
theorem mul_deficit_le (hs : lo ≤ s) :
    (w + 1) * (lo - (smooth w e s + w)) ≤ w * (lo - (e + w)) := by
  have hmul := le_mul_smooth_add w e s
  rcases le_total lo (smooth w e s + w) with hdone | hleft
  · simp [Nat.sub_eq_zero_of_le hdone]
  · rcases le_total lo (e + w) with habove | hbelow
    · have hkept : w * lo ≤ w * (e + w) := Nat.mul_le_mul_left _ habove
      have hequal : (w + 1) * lo ≤ (w + 1) * (smooth w e s + w) := by
        linarith
      have hzero : lo ≤ smooth w e s + w := Nat.le_of_mul_le_mul_left hequal (Nat.succ_pos w)
      simp [Nat.sub_eq_zero_of_le hzero]
    · zify [hbelow, hleft] at hmul hs ⊢
      linarith

/-- A quantity that each sample shrinks by the factor `w / (w + 1)`. -/
theorem pow_mul_foldl_le (f : ℕ → ℕ) {P : ℕ → Prop}
    (hf : ∀ e, ∀ s, P s → (w + 1) * f (smooth w e s) ≤ w * f e) (hsamples : ∀ s ∈ samples, P s)
    (e : ℕ) : (w + 1) ^ samples.length * f (samples.foldl (smooth w) e) ≤
      w ^ samples.length * f e := by
  induction samples generalizing e with
  | nil => simp
  | cons s samples ih =>
    obtain ⟨hs, hrest⟩ := List.forall_mem_cons.mp hsamples
    calc (w + 1) ^ (samples.length + 1) * f (samples.foldl (smooth w) (smooth w e s))
        = (w + 1) * ((w + 1) ^ samples.length * f (samples.foldl (smooth w) (smooth w e s))) := by
          ring
      _ ≤ (w + 1) * (w ^ samples.length * f (smooth w e s)) :=
          Nat.mul_le_mul_left _ (ih hrest _)
      _ = w ^ samples.length * ((w + 1) * f (smooth w e s)) := by ring
      _ ≤ w ^ samples.length * (w * f e) := Nat.mul_le_mul_left _ (hf e s hs)
      _ = w ^ (samples.length + 1) * f e := by ring

/-- **The estimate settles.** After enough samples it is not above them, and at most `w` below
them, whatever it was at first. -/
theorem settles {b : ℕ} (hsamples : ∀ s ∈ samples, lo ≤ s ∧ s ≤ hi) (he : e ≤ b)
    (hlo : lo ≤ b) (hmany : w ^ samples.length * b < (w + 1) ^ samples.length) :
    lo ≤ samples.foldl (smooth w) e + w ∧ samples.foldl (smooth w) e ≤ hi := by
  have hpositive : 0 < (w + 1) ^ samples.length := by positivity
  have hzero : ∀ {f : ℕ → ℕ}, (w + 1) ^ samples.length * f (samples.foldl (smooth w) e) ≤
      w ^ samples.length * f e → f e ≤ b → f (samples.foldl (smooth w) e) = 0 := by
    intro f hshrunk hbound
    by_contra hne
    have hone : (w + 1) ^ samples.length ≤
        (w + 1) ^ samples.length * f (samples.foldl (smooth w) e) :=
      Nat.le_mul_of_pos_right _ (Nat.pos_of_ne_zero hne)
    have hle : w ^ samples.length * f e ≤ w ^ samples.length * b :=
      Nat.mul_le_mul_left _ hbound
    omega
  constructor
  · refine Nat.sub_eq_zero_iff_le.mp (hzero (f := fun e => lo - (e + w)) ?_ (by omega))
    exact pow_mul_foldl_le (fun e => lo - (e + w)) (fun _ _ hs => mul_deficit_le hs)
      (fun s hs => (hsamples s hs).1) e
  · refine Nat.sub_eq_zero_iff_le.mp (hzero (f := fun e => e - hi) ?_ (by omega))
    exact pow_mul_foldl_le (fun e => e - hi) (fun _ _ hs => mul_excess_le hs)
      (fun s hs => (hsamples s hs).2) e

end Smoothing
