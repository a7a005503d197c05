import Mathlib.Data.List.Lex
import Mathlib.Data.Prod.Lex

/-!
# Proposal identifiers

`paxos/proposalid.h` and `paxos/proposalid.cpp`: a 32-bit number together with
the UID of the proposer it belongs to. IDs are compared by number first and by
UID second; the comparison operators are all defined from `compare`, and they
form a linear order whose least element is the default-constructed ID.
-/

namespace CppPaxos

section ByteOrder

/-- Bytes are ordered as unsigned numbers, the order in which `std::string`
compares its characters. -/
instance byteOrder : LinearOrder UInt8 where
  le_refl := UInt8.le_refl
  le_trans _ _ _ := UInt8.le_trans
  lt_iff_le_not_ge a b := by
    simp only [UInt8.lt_iff_toNat_lt, UInt8.le_iff_toNat_le]
    omega
  le_antisymm _ _ := UInt8.le_antisymm
  le_total := UInt8.le_total
  toDecidableLE := inferInstance
  toDecidableEq := inferInstance
  toDecidableLT := inferInstance

end ByteOrder

/-- `std::string`: a sequence of bytes, ordered lexicographically. UIDs and values
are strings. -/
abbrev Str := List UInt8

/-- `class ProposalID`. -/
structure ProposalID where
  /-- `m_number`. -/
  number : UInt32
  /-- `m_uid`. -/
  uid : Str
  deriving DecidableEq, Repr

namespace ProposalID

/-- `ProposalID()`: number zero and the empty UID. -/
def empty : ProposalID := ⟨0, []⟩

/-- `isValid`: the UID is not empty. -/
def isValid (p : ProposalID) : Bool := !p.uid.isEmpty

/-- `getNumber` returns the unsigned number through an `int`. -/
def getNumber (p : ProposalID) : Int32 := p.number.toInt32

/-- `setNumber` stores an `int` into the unsigned number. -/
def setNumber (p : ProposalID) (number : Int32) : ProposalID :=
  { p with number := number.toUInt32 }

/-- `incrementNumber`; the 32-bit number wraps around. -/
def incrementNumber (p : ProposalID) : ProposalID := { p with number := p.number + 1 }

/-- `compare`: `1`, `0` or `-1`, by number and then by UID. -/
def compare (p id : ProposalID) : Int :=
  if p.number > id.number ∨ (p.number = id.number ∧ p.uid > id.uid) then 1
  else if p.number = id.number ∧ p.uid = id.uid then 0
  else -1

/-- The pair of number and UID that `compare` orders lexicographically. -/
def key (p : ProposalID) : ℕ ×ₗ Str := toLex (p.number.toNat, p.uid)

/-- An ID is determined by its key. -/
theorem key_injective : Function.Injective key := by
  intro p id h
  have hpair : (p.number.toNat, p.uid) = (id.number.toNat, id.uid) := toLex.injective h
  obtain ⟨hnumber, huid⟩ := Prod.ext_iff.mp hpair
  cases p
  cases id
  simp only [ProposalID.mk.injEq]
  exact ⟨UInt32.toNat_inj.mp hnumber, huid⟩

/-- `operator==` is equality. -/
theorem compare_eq_zero_iff {p id : ProposalID} : p.compare id = 0 ↔ p = id := by
  unfold compare
  cases p
  cases id
  simp only [ProposalID.mk.injEq]
  split_ifs with hgreater hequal
  · constructor
    · intro h
      omega
    · rintro ⟨rfl, rfl⟩
      simp at hgreater
  · simpa using hequal
  · simpa using hequal

/-- `operator<` is the lexicographic order. -/
theorem compare_neg_iff {p id : ProposalID} : p.compare id < 0 ↔ p.key < id.key := by
  have hlex : p.key < id.key ↔
      p.number.toNat < id.number.toNat ∨ p.number.toNat = id.number.toNat ∧ p.uid < id.uid :=
    Prod.Lex.toLex_lt_toLex
  rw [hlex]
  unfold compare
  simp only [gt_iff_lt, UInt32.lt_iff_toNat_lt, ← UInt32.toNat_inj]
  rcases lt_trichotomy p.uid id.uid with h | h | h
  · simp only [h, h.not_gt, h.ne, and_true, and_false, or_false, if_false]
    split_ifs <;> omega
  · simp only [h, lt_irrefl, and_false, or_false, and_true]
    split_ifs <;> omega
  · simp only [h, h.not_gt, h.ne', and_true, and_false, or_false, if_false]
    split_ifs <;> omega

/-- `operator>` of `p` and `id` is `operator<` of `id` and `p`. -/
theorem compare_pos_iff {p id : ProposalID} : 0 < p.compare id ↔ id.key < p.key := by
  have hle : ¬p.compare id ≤ 0 ↔ 0 < p.compare id := by omega
  have hcases : p.compare id ≤ 0 ↔ p.key < id.key ∨ p.key = id.key := by
    rw [le_iff_lt_or_eq, compare_neg_iff, compare_eq_zero_iff, key_injective.eq_iff]
  rw [← hle, hcases, ← le_iff_lt_or_eq, not_le]

/-- The operators of the class: `<` is `operator<`, and `≤` is `operator<=`. -/
instance : LinearOrder ProposalID where
  lt p id := p.compare id < 0
  le p id := p.compare id < 0 ∨ p.compare id = 0
  le_refl p := Or.inr (compare_eq_zero_iff.mpr rfl)
  le_trans p q r := by
    simp only [compare_neg_iff, compare_eq_zero_iff, ← key_injective.eq_iff, ← le_iff_lt_or_eq]
    exact le_trans
  lt_iff_le_not_ge p q := by
    simp only [compare_neg_iff, compare_eq_zero_iff, ← key_injective.eq_iff, ← le_iff_lt_or_eq]
    exact lt_iff_le_not_ge
  le_antisymm p q := by
    simp only [compare_neg_iff, compare_eq_zero_iff, ← key_injective.eq_iff, ← le_iff_lt_or_eq]
    exact le_antisymm
  le_total p q := by
    simp only [compare_neg_iff, compare_eq_zero_iff, ← key_injective.eq_iff, ← le_iff_lt_or_eq]
    exact le_total _ _
  toDecidableLE p q := inferInstanceAs (Decidable (p.compare q < 0 ∨ p.compare q = 0))
  toDecidableEq := inferInstance
  toDecidableLT p q := inferInstanceAs (Decidable (p.compare q < 0))

/-- IDs are ordered as their keys are. -/
theorem lt_iff_key {p id : ProposalID} : p < id ↔ p.key < id.key := compare_neg_iff

/-- The order, spelled out. -/
theorem lt_iff {p id : ProposalID} :
    p < id ↔ p.number.toNat < id.number.toNat ∨ p.number = id.number ∧ p.uid < id.uid := by
  rw [lt_iff_key, key, key, Prod.Lex.toLex_lt_toLex, UInt32.toNat_inj]

/-- No ID is below the default-constructed one. -/
theorem empty_le (p : ProposalID) : empty ≤ p := by
  rw [← not_lt, lt_iff]
  simp [empty]

/-- The empty ID is not valid. -/
@[simp] theorem isValid_empty : empty.isValid = false := rfl

/-- Every valid ID is above the default-constructed one. -/
theorem empty_lt_of_isValid {p : ProposalID} (h : p.isValid) : empty < p := by
  apply lt_of_le_of_ne (empty_le p)
  rintro rfl
  simp at h

/-- Reading the number and storing it in another ID copies it, through `int` and back. -/
theorem setNumber_getNumber (p id : ProposalID) :
    p.setNumber id.getNumber = ⟨id.number, p.uid⟩ := by
  simp [setNumber, getNumber]

/-- Incrementing goes strictly up, unless the 32-bit number wraps around. -/
theorem lt_incrementNumber {p : ProposalID} (h : p.number ≠ UInt32.ofNat (UInt32.size - 1)) :
    p < p.incrementNumber := by
  rw [lt_iff]
  left
  have hlt := p.number.toNat_lt_size
  have hne : p.number.toNat ≠ UInt32.size - 1 := by
    intro hmax
    exact h (UInt32.toNat_inj.mp hmax)
  simp only [incrementNumber, UInt32.toNat_add, UInt32.toNat_one]
  simp only [UInt32.size] at hlt hne
  omega

end ProposalID

end CppPaxos
