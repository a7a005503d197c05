import Mathlib.Data.Fintype.Card
import Mathlib.Order.Basic

/-!
# Voting in ballots

Voters cast votes for values in linearly ordered ballots, and each voter has a
floor below which it will never vote again. A value is chosen in a ballot when a
quorum has voted for it there. The module gives the safety condition on a
proposal that makes at most one value ever chosen, its stability under further
voting, and the rule by which reports from a quorum make a proposal safe.
-/

namespace Voting

/-- Two sets of voters that together count more members than there are voters meet. -/
theorem exists_mem_of_card_lt {A : Type*} [Fintype A] [DecidableEq A] {S T : Finset A}
    (h : Fintype.card A < S.card + T.card) : ∃ a, a ∈ S ∧ a ∈ T := by
  have hcard : (Finset.univ : Finset A).card < S.card + T.card := by
    rwa [Finset.card_univ]
  obtain ⟨a, ha⟩ := Finset.inter_nonempty_of_card_lt_card_add_card (Finset.subset_univ S)
    (Finset.subset_univ T) hcard
  exact ⟨a, Finset.mem_inter.mp ha⟩

/-- The members with the names of a set are at least as many as the names, if each name belongs to
a member. -/
theorem card_le_card_filter_name {A U : Type*} [Fintype A] [DecidableEq U] (name : A → U)
    {names : Finset U} (h : ∀ u ∈ names, ∃ a, name a = u) :
    names.card ≤ (Finset.univ.filter fun a => name a ∈ names).card := by
  have hsub : names ⊆ (Finset.univ.filter fun a => name a ∈ names).image name := by
    intro u hu
    obtain ⟨a, ha⟩ := h u hu
    exact Finset.mem_image.mpr ⟨a, by simpa [ha] using hu, ha⟩
  exact (Finset.card_le_card hsub).trans Finset.card_image_le

/-- The votes cast so far, and the ballot from which each voter is still free to vote. -/
@[ext]
structure Record (A B V : Type*) where
  /-- Voter `a` has voted for `v` in ballot `b`. -/
  voted : A → B → V → Prop
  /-- Voter `a` will not vote below this ballot any more. -/
  floor : A → B

namespace Record

variable {A B V : Type*}

/-- A quorum of `q` voters has voted for `v` in ballot `b`. -/
def Chosen (R : Record A B V) (q : ℕ) (b : B) (v : V) : Prop :=
  ∃ Q : Finset A, q ≤ Q.card ∧ ∀ a ∈ Q, R.voted a b v

variable [LinearOrder B]

/-- Proposing `v` in ballot `b` is safe: in each lower ballot some quorum is done voting and
has voted for nothing but `v`, so no other value can be chosen there. -/
def SafeAt (R : Record A B V) (q : ℕ) (b : B) (v : V) : Prop :=
  ∀ b' < b, ∃ Q : Finset A, q ≤ Q.card ∧
    ∀ a ∈ Q, b' < R.floor a ∧ ∀ w, R.voted a b' w → w = v

/-- Voter `a` is done with the ballots below `b` and cast its votes there at `m` or lower. -/
def Reports (R : Record A B V) (a : A) (b m : B) : Prop :=
  b ≤ R.floor a ∧ ∀ b' w, R.voted a b' w → b' < b → b' ≤ m

/-- `R'` is a later record than `R`: votes stay, floors rise, and no new vote is below the
floor of its voter. -/
structure Extends (R R' : Record A B V) : Prop where
  voted : ∀ a b v, R.voted a b v → R'.voted a b v
  floor_le : ∀ a, R.floor a ≤ R'.floor a
  voted_or_floor_le : ∀ a b v, R'.voted a b v → R.voted a b v ∨ R.floor a ≤ b

variable {R R' : Record A B V} {q : ℕ} {a : A} {b m : B} {v : V}

/-- Safety of a proposal is never lost. -/
theorem SafeAt.extend (h : R.SafeAt q b v) (hR : R.Extends R') : R'.SafeAt q b v := by
  intro b' hb'
  obtain ⟨Q, hQ, hdone⟩ := h b' hb'
  refine ⟨Q, hQ, fun a ha => ?_⟩
  obtain ⟨hfloor, hvotes⟩ := hdone a ha
  refine ⟨hfloor.trans_le (hR.floor_le a), fun w hw => ?_⟩
  rcases hR.voted_or_floor_le a b' w hw with hold | hnew
  · exact hvotes w hold
  · exact absurd hfloor hnew.not_gt

/-- A report stays true. -/
theorem Reports.extend (h : R.Reports a b m) (hR : R.Extends R') : R'.Reports a b m := by
  refine ⟨h.1.trans (hR.floor_le a), fun b' w hw hlt => ?_⟩
  rcases hR.voted_or_floor_le a b' w hw with hold | hnew
  · exact h.2 b' w hold hlt
  · exact absurd (h.1.trans hnew) hlt.not_ge

/-- A report may be weakened to a higher ballot. -/
theorem Reports.mono {m' : B} (h : R.Reports a b m) (hm : m ≤ m') : R.Reports a b m' :=
  ⟨h.1, fun b' w hw hlt => (h.2 b' w hw hlt).trans hm⟩

/-- If a quorum reports votes at `m` at the highest, and `v` was safe in `m` and is the only
value voted for there, then `v` is safe. -/
theorem safeAt_of_reports {Q : Finset A} (hQ : q ≤ Q.card) (hreports : ∀ a ∈ Q, R.Reports a b m)
    (hsafe : R.SafeAt q m v) (hone : ∀ a ∈ Q, ∀ w, R.voted a m w → w = v) : R.SafeAt q b v := by
  intro b' hb'
  by_cases hlow : b' < m
  · exact hsafe b' hlow
  · refine ⟨Q, hQ, fun a ha => ⟨hb'.trans_le (hreports a ha).1, fun w hw => ?_⟩⟩
    have hle : b' ≤ m := (hreports a ha).2 b' w hw hb'
    have heq : b' = m := le_antisymm hle (not_lt.mp hlow)
    subst heq
    exact hone a ha w hw

/-- If a quorum is done with the ballots below `b` without having voted there, every value is
safe. -/
theorem safeAt_of_no_votes {Q : Finset A} (hQ : q ≤ Q.card) (hfloor : ∀ a ∈ Q, b ≤ R.floor a)
    (hnone : ∀ a ∈ Q, ∀ b' w, R.voted a b' w → b ≤ b') : R.SafeAt q b v := by
  intro b' hb'
  refine ⟨Q, hQ, fun a ha => ⟨hb'.trans_le (hfloor a ha), fun w hw => ?_⟩⟩
  exact absurd hb' (hnone a ha b' w hw).not_gt

/-- A value chosen below a safe proposal is the value proposed. -/
theorem SafeAt.eq_of_chosen [Fintype A] [DecidableEq A] (hq : Fintype.card A < 2 * q)
    (hsafe : R.SafeAt q b v) {b' : B} {v' : V} (hlt : b' < b) (hchosen : R.Chosen q b' v') :
    v' = v := by
  obtain ⟨Q, hQ, hdone⟩ := hsafe b' hlt
  obtain ⟨Q', hQ', hvoted⟩ := hchosen
  obtain ⟨a, haQ, haQ'⟩ := exists_mem_of_card_lt (S := Q) (T := Q') (by omega)
  exact (hdone a haQ).2 v' (hvoted a haQ')

/-- **Safety of voting.** If every vote is for a safe proposal and the votes in one ballot all
carry one value, then at most one value is ever chosen. -/
theorem chosen_unique [Fintype A] [DecidableEq A] (hq : Fintype.card A < 2 * q)
    (hone : ∀ a a' b v v', R.voted a b v → R.voted a' b v' → v = v')
    (hsafe : ∀ a b v, R.voted a b v → R.SafeAt q b v) {b' : B} {v' : V}
    (hchosen : R.Chosen q b v) (hchosen' : R.Chosen q b' v') : v = v' := by
  obtain ⟨Q, hQ, hvoted⟩ := id hchosen
  obtain ⟨Q', hQ', hvoted'⟩ := id hchosen'
  obtain ⟨a, haQ, haQ'⟩ := exists_mem_of_card_lt (S := Q) (T := Q') (by omega)
  rcases lt_trichotomy b b' with hlt | rfl | hlt
  · exact (hsafe a b' v' (hvoted' a haQ')).eq_of_chosen hq hlt hchosen
  · exact hone a a b v v' (hvoted a haQ) (hvoted' a haQ')
  · exact ((hsafe a b v (hvoted a haQ)).eq_of_chosen hq hlt hchosen').symm

end Record

end Voting
