import Mathlib.Data.List.Perm.Basic
import Mathlib.Order.Lattice
import Mathlib.Tactic.TypeStar

/-!
# Updates that converge

Updates that commute and absorb their own repetition lead to the same state in every
order and with every repetition. A register that keeps the write with the largest stamp
is updated like this, as long as equal stamps come with equal values.
-/

namespace Machines

variable {α σ κ : Type*}

/-- The updates of the list commute, and a second one of the same kind changes nothing. -/
structure Convergent (f : σ → α → σ) (l : List α) : Prop where
  comm : ∀ a ∈ l, ∀ b ∈ l, ∀ s, f (f s a) b = f (f s b) a
  idem : ∀ a ∈ l, ∀ s, f (f s a) a = f s a

section Fold

variable {f : σ → α → σ} {l l' : List α}

/-- An update that is made anyway makes no difference at the start. -/
theorem Convergent.foldl_cons_of_mem (h : Convergent f l) {a : α} (ha : a ∈ l) (s : σ) :
    (a :: l).foldl f s = l.foldl f s := by
  obtain ⟨before, after, rfl⟩ := List.append_of_mem ha
  have hperm : (before ++ a :: after).Perm (a :: (before ++ after)) := List.perm_middle
  rw [List.foldl_cons, hperm.foldl_eq' h.comm, hperm.foldl_eq' h.comm, List.foldl_cons,
    List.foldl_cons, h.idem a ha]

/-- What has been written before does not matter, if it is written again. -/
theorem Convergent.foldl_append_of_subset (h : Convergent f l) {more : List α}
    (hmore : more ⊆ l) (s : σ) : (more ++ l).foldl f s = l.foldl f s := by
  induction more generalizing s with
  | nil => rfl
  | cons a more ih =>
    obtain ⟨ha, hrest⟩ := List.cons_subset.mp hmore
    rw [List.cons_append, List.foldl_cons, ih hrest, ← List.foldl_cons, h.foldl_cons_of_mem ha]

/-- **Convergence.** Two lists of the same updates, in any order and with any repetitions, lead to
the same state. -/
theorem Convergent.foldl_eq (h : Convergent f l) (hsame : ∀ a, a ∈ l ↔ a ∈ l') (s : σ) :
    l.foldl f s = l'.foldl f s := by
  have h' : Convergent f l' := by
    refine ⟨fun a ha b hb => ?_, fun a ha => ?_⟩
    · exact h.comm a ((hsame a).mpr ha) b ((hsame b).mpr hb)
    · exact h.idem a ((hsame a).mpr ha)
  have happend : Convergent f (l' ++ l) := by
    have hmem : ∀ a ∈ l' ++ l, a ∈ l := by
      intro a ha
      rcases List.mem_append.mp ha with ha | ha
      · exact (hsame a).mpr ha
      · exact ha
    exact ⟨fun a ha b hb => h.comm a (hmem a ha) b (hmem b hb), fun a ha => h.idem a (hmem a ha)⟩
  calc l.foldl f s
      = (l' ++ l).foldl f s := (h.foldl_append_of_subset (fun a => (hsame a).mpr) s).symm
    _ = (l ++ l').foldl f s := List.perm_append_comm.foldl_eq' happend.comm s
    _ = l'.foldl f s := h'.foldl_append_of_subset (fun a => (hsame a).mp) s

end Fold

section Register

variable [LinearOrder κ] {stamp : σ → κ} {key : α → κ} {value : α → σ}

variable (stamp key value) in
/-- A register takes over a write with a larger stamp than its own. -/
def write (s : σ) (a : α) : σ := if stamp s < key a then value a else s

/-- Writes that carry their stamps, equal stamps with equal values, converge. -/
theorem convergent_write {l : List α} (hstamp : ∀ a ∈ l, stamp (value a) = key a)
    (hvalue : ∀ a ∈ l, ∀ b ∈ l, key a = key b → value a = value b) :
    Convergent (write stamp key value) l := by
  refine ⟨fun a ha b hb s => ?_, fun a ha s => ?_⟩
  · unfold write
    by_cases hsa : stamp s < key a
    · by_cases hsb : stamp s < key b
      · rw [if_pos hsa, if_pos hsb, hstamp a ha, hstamp b hb]
        rcases lt_trichotomy (key a) (key b) with hlt | heq | hgt
        · rw [if_pos hlt, if_neg hlt.not_gt]
        · rw [hvalue a ha b hb heq, ite_self, ite_self]
        · rw [if_neg hgt.not_gt, if_pos hgt]
      · rw [if_pos hsa, if_neg hsb, if_pos hsa, hstamp a ha]
        exact if_neg fun hlt => hsb (hsa.trans hlt)
    · by_cases hsb : stamp s < key b
      · rw [if_neg hsa, if_pos hsb, hstamp b hb]
        exact (if_neg fun hlt => hsa (hsb.trans hlt)).symm
      · rw [if_neg hsa, if_neg hsb, if_neg hsa]
  · unfold write
    by_cases hsa : stamp s < key a
    · rw [if_pos hsa, hstamp a ha, if_neg (lt_irrefl _)]
    · rw [if_neg hsa, if_neg hsa]

end Register

end Machines
