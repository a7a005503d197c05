import Mathlib.Data.List.Induction
import Mathlib.Data.List.Nodup
import Mathlib.Data.List.Pairwise
import Mathlib.Order.Lattice
import Mathlib.Tactic.Tauto
import Mathlib.Tactic.TypeStar

/-!
# Ordered tables

A table holds entries in strictly increasing order of their keys, so no two entries have
the same key. With pairs of key and value as entries it is an ordered map, and with the
entries themselves as keys it is an ordered set.
-/

namespace Tables

variable {α κ : Type*} [LinearOrder κ]

/-- Entries in strictly increasing order of their keys. -/
structure Table (key : α → κ) where
  entries : List α
  sorted : entries.Pairwise fun a b => key a < key b

namespace Table

variable {key : α → κ}

instance [DecidableEq α] : DecidableEq (Table key) := fun t t' =>
  decidable_of_iff (t.entries = t'.entries)
    ⟨fun h => by cases t; cases t'; cases h; rfl, fun h => by rw [h]⟩

/-- The table without entries. -/
def empty : Table key := ⟨[], List.Pairwise.nil⟩

/-- The number of entries. -/
def size (t : Table key) : ℕ := t.entries.length

/-- The entry with a key. -/
def find? (t : Table key) (k : κ) : Option α := t.entries.find? fun a => key a = k

/-- Put an entry in its place, instead of the one that has its key. -/
def assign (t : Table key) (a : α) : Table key where
  entries := (t.entries.filter fun b => key b < key a) ++
    a :: t.entries.filter fun b => key a < key b
  sorted := by
    rw [List.pairwise_append, List.pairwise_cons]
    refine ⟨t.sorted.filter _, ⟨fun b hb => ?_, t.sorted.filter _⟩, fun b hb c hc => ?_⟩
    · simpa using (List.mem_filter.mp hb).2
    · have hba : key b < key a := by simpa using (List.mem_filter.mp hb).2
      rcases List.mem_cons.mp hc with rfl | hc
      · exact hba
      · have hac : key a < key c := by simpa using (List.mem_filter.mp hc).2
        exact hba.trans hac

/-- Put an entry in its place, unless there is one with its key. -/
def insert (t : Table key) (a : α) : Table key :=
  if (t.find? (key a)).isSome then t else t.assign a

/-- Remove the entry with a key. -/
def erase (t : Table key) (k : κ) : Table key where
  entries := t.entries.filter fun a => key a ≠ k
  sorted := t.sorted.filter _

/-- The entries from the first key greater than `k` on. -/
def upperBound (t : Table key) (k : κ) : List α := t.entries.dropWhile fun a => key a ≤ k

/-- The entries up to `k`. -/
def upTo (t : Table key) (k : κ) : List α := t.entries.filter fun a => key a ≤ k

/-- The entries once round, from the first key greater than `k` on. -/
def walkFrom (t : Table key) (k : κ) : List α :=
  (t.entries.filter fun a => k < key a) ++ t.upTo k

/-- Insert the items of a list one after another into the empty table. -/
def ofList (items : List α) : Table key := items.foldl insert empty

/-- Change the entries but not their keys. -/
def map (t : Table key) (f : α → α) (hf : ∀ a, key (f a) = key a) : Table key where
  entries := t.entries.map f
  sorted := by
    rw [List.pairwise_map]
    simpa only [hf] using t.sorted

/-- A table is determined by its entries. -/
theorem ext {t t' : Table key} (h : t.entries = t'.entries) : t = t' := by
  cases t
  cases t'
  cases h
  rfl

/-- No key stands twice. -/
theorem keys_nodup (t : Table key) : (t.entries.map key).Nodup :=
  List.pairwise_map.mpr (t.sorted.imp ne_of_lt)

/-- No entry stands twice. -/
theorem nodup (t : Table key) : t.entries.Nodup := t.keys_nodup.of_map key

/-- Two entries with the same key are the same entry. -/
theorem eq_of_key_eq (t : Table key) {a b : α} (ha : a ∈ t.entries) (hb : b ∈ t.entries)
    (h : key a = key b) : a = b :=
  List.inj_on_of_nodup_map t.keys_nodup ha hb h

/-- What is found for a key is the entry with it. -/
theorem find?_eq_some_iff {t : Table key} {k : κ} {a : α} :
    t.find? k = some a ↔ a ∈ t.entries ∧ key a = k := by
  constructor
  · intro h
    exact ⟨List.mem_of_find?_eq_some h, by simpa using List.find?_some h⟩
  · rintro ⟨ha, rfl⟩
    cases hfind : t.find? (key a) with
    | none => simpa using List.find?_eq_none.mp hfind a ha
    | some b =>
      have hkey : key b = key a := by simpa using List.find?_some hfind
      rw [t.eq_of_key_eq (List.mem_of_find?_eq_some hfind) ha hkey]

/-- Nothing is found for a key that no entry has. -/
theorem find?_eq_none_iff {t : Table key} {k : κ} :
    t.find? k = none ↔ ∀ a ∈ t.entries, key a ≠ k := by
  simp [find?]

@[simp] theorem entries_empty : (empty : Table key).entries = [] := rfl

/-- The entries after an assignment: the new one, and those with other keys. -/
theorem mem_assign {t : Table key} {a b : α} :
    b ∈ (t.assign a).entries ↔ b = a ∨ b ∈ t.entries ∧ key b ≠ key a := by
  simp only [assign, List.mem_append, List.mem_cons, List.mem_filter, decide_eq_true_eq,
    ne_iff_lt_or_gt]
  tauto

/-- The entries after an erasure: those with other keys. -/
theorem mem_erase {t : Table key} {k : κ} {a : α} :
    a ∈ (t.erase k).entries ↔ a ∈ t.entries ∧ key a ≠ k := by
  simp [erase]

/-- After an assignment the key has the new entry and every other key has the entry it had. -/
theorem find?_assign (t : Table key) (a : α) (k : κ) :
    (t.assign a).find? k = if key a = k then some a else t.find? k := by
  ext b
  rw [find?_eq_some_iff, mem_assign]
  split
  · rename_i hk
    subst hk
    rw [Option.some_inj]
    constructor
    · rintro ⟨rfl | ⟨-, hne⟩, hkey⟩
      · rfl
      · exact absurd hkey hne
    · rintro rfl
      exact ⟨Or.inl rfl, rfl⟩
  · rename_i hk
    rw [find?_eq_some_iff]
    constructor
    · rintro ⟨rfl | ⟨hb, -⟩, hkey⟩
      · exact absurd hkey hk
      · exact ⟨hb, hkey⟩
    · rintro ⟨hb, rfl⟩
      exact ⟨Or.inr ⟨hb, Ne.symm hk⟩, rfl⟩

/-- After a removal the key has no entry and every other key has the entry it had. -/
theorem find?_erase (t : Table key) (k k' : κ) :
    (t.erase k).find? k' = if k' = k then none else t.find? k' := by
  ext a
  rw [find?_eq_some_iff, mem_erase]
  split
  · rename_i hk
    subst hk
    constructor
    · rintro ⟨⟨-, hne⟩, hkey⟩
      exact absurd hkey hne
    · rintro ⟨⟩
  · rename_i hk
    rw [find?_eq_some_iff]
    constructor
    · rintro ⟨⟨ha, -⟩, hkey⟩
      exact ⟨ha, hkey⟩
    · rintro ⟨ha, rfl⟩
      exact ⟨⟨ha, hk⟩, rfl⟩

/-- Inserting an item above all others puts it at the end. -/
theorem insert_of_forall_lt {t : Table key} {a : α} (h : ∀ b ∈ t.entries, key b < key a) :
    (t.insert a).entries = t.entries ++ [a] := by
  have hnone : t.find? (key a) = none := find?_eq_none_iff.mpr fun b hb => (h b hb).ne
  have hbelow : t.entries.filter (fun b => key b < key a) = t.entries :=
    List.filter_eq_self.mpr fun b hb => by simpa using h b hb
  have habove : t.entries.filter (fun b => key a < key b) = [] :=
    List.filter_eq_nil_iff.mpr fun b hb => by simpa using (h b hb).le
  simp only [insert, hnone, Option.isSome_none, Bool.false_eq_true, if_false, assign, hbelow,
    habove]

/-- Inserting the entries of a table in their order gives the table back. -/
theorem ofList_entries (t : Table key) : ofList t.entries = t := by
  obtain ⟨items, hsorted⟩ := t
  induction items using List.reverseRecOn with
  | nil => rfl
  | append_singleton items a ih =>
    obtain ⟨hitems, -, hlast⟩ := List.pairwise_append.mp hsorted
    apply ext
    rw [ofList, List.foldl_concat, ← ofList, ih hitems]
    exact insert_of_forall_lt fun b hb => hlast b hb a (List.mem_singleton_self a)

/-- In increasing order the entries up to a key come first, and the greater ones follow. -/
theorem takeWhile_dropWhile_eq_filter {entries : List α}
    (hsorted : entries.Pairwise fun a b => key a < key b) (k : κ) :
    entries.takeWhile (fun a => key a ≤ k) = entries.filter (fun a => key a ≤ k) ∧
      entries.dropWhile (fun a => key a ≤ k) = entries.filter (fun a => k < key a) := by
  induction entries with
  | nil => exact ⟨rfl, rfl⟩
  | cons a entries ih =>
    obtain ⟨hfirst, htail⟩ := List.pairwise_cons.mp hsorted
    obtain ⟨htake, hdrop⟩ := ih htail
    by_cases hle : key a ≤ k
    · rw [List.takeWhile_cons_of_pos (by simpa using hle),
        List.dropWhile_cons_of_pos (by simpa using hle), htake, hdrop,
        List.filter_cons_of_pos (by simpa using hle),
        List.filter_cons_of_neg (by simpa using hle)]
      exact ⟨rfl, rfl⟩
    · have hgreater : ∀ b ∈ a :: entries, k < key b := by
        intro b hb
        rcases List.mem_cons.mp hb with rfl | hb
        · exact not_le.mp hle
        · exact (not_le.mp hle).trans (hfirst b hb)
      rw [List.takeWhile_cons_of_neg (by simpa using hle),
        List.dropWhile_cons_of_neg (by simpa using hle)]
      constructor
      · rw [eq_comm, List.filter_eq_nil_iff]
        intro b hb
        simpa using hgreater b hb
      · rw [eq_comm, List.filter_eq_self]
        intro b hb
        simpa using hgreater b hb

/-- `upperBound` yields the entries with greater keys. -/
theorem walkFrom_eq (t : Table key) (k : κ) : t.walkFrom k = t.upperBound k ++ t.upTo k := by
  rw [upperBound, (takeWhile_dropWhile_eq_filter t.sorted k).2, walkFrom]

/-- The entries up to a key, followed by those from the first greater key on, are all entries. -/
theorem upTo_append_upperBound (t : Table key) (k : κ) :
    t.upTo k ++ t.upperBound k = t.entries := by
  rw [upTo, ← (takeWhile_dropWhile_eq_filter t.sorted k).1]
  exact List.takeWhile_append_dropWhile

/-- A walk once round meets every entry once. -/
theorem walkFrom_perm (t : Table key) (k : κ) : (t.walkFrom k).Perm t.entries := by
  rw [walkFrom_eq]
  exact List.perm_append_comm.trans (List.Perm.of_eq (t.upTo_append_upperBound k))

/-! ### Sets -/

section Set

variable (hkey : Function.Injective key)

include hkey

/-- The entries after an insertion. -/
theorem mem_insert {t : Table key} {a b : α} :
    b ∈ (t.insert a).entries ↔ b ∈ t.entries ∨ b = a := by
  unfold insert
  by_cases hfound : (t.find? (key a)).isSome
  · obtain ⟨c, hc⟩ := Option.isSome_iff_exists.mp hfound
    obtain ⟨hmem, hsame⟩ := find?_eq_some_iff.mp hc
    rw [if_pos hfound]
    constructor
    · exact Or.inl
    · rintro (hb | rfl)
      · exact hb
      · rwa [← hkey hsame]
  · rw [if_neg hfound, mem_assign, hkey.ne_iff]
    tauto

/-- The entries after several insertions. -/
theorem mem_foldl_insert {t : Table key} {items : List α} {b : α} :
    b ∈ (items.foldl insert t).entries ↔ b ∈ t.entries ∨ b ∈ items := by
  induction items generalizing t with
  | nil => simp
  | cons a items ih => rw [List.foldl_cons, ih, mem_insert hkey, List.mem_cons, or_assoc]

/-- The entries of a table that is made from a list. -/
theorem mem_ofList {items : List α} {b : α} :
    b ∈ (ofList items : Table key).entries ↔ b ∈ items := by
  rw [ofList, mem_foldl_insert hkey]
  simp

/-- The set of items that are all different holds each of them once. -/
theorem ofList_entries_perm {items : List α} (h : items.Nodup) :
    (ofList items : Table key).entries.Perm items :=
  (List.perm_ext_iff_of_nodup (nodup _) h).mpr fun _ => mem_ofList hkey

end Set

end Table

/-! ### Maps -/

/-- An ordered map: the entries are pairs of a key and a value. -/
abbrev Map (κ ν : Type*) [LinearOrder κ] := Table (Prod.fst : κ × ν → κ)

namespace Map

variable {ν : Type*}

/-- The value of a key. -/
def get? (m : Map κ ν) (k : κ) : Option ν := (m.find? k).map Prod.snd

/-- What is found for a key in a map. -/
theorem get?_eq_some_iff {m : Map κ ν} {k : κ} {v : ν} :
    get? m k = some v ↔ (k, v) ∈ m.entries := by
  rw [get?, Option.map_eq_some_iff]
  constructor
  · rintro ⟨⟨k', v'⟩, hfind, rfl⟩
    obtain ⟨hmem, rfl⟩ := Table.find?_eq_some_iff.mp hfind
    exact hmem
  · intro hmem
    exact ⟨(k, v), Table.find?_eq_some_iff.mpr ⟨hmem, rfl⟩, rfl⟩

@[simp] theorem get?_empty (k : κ) : get? (Table.empty : Map κ ν) k = none := rfl

/-- An assignment is seen for its key only. -/
theorem get?_assign (m : Map κ ν) (k k' : κ) (v : ν) :
    get? (Table.assign m (k, v)) k' = if k = k' then some v else get? m k' := by
  rw [get?, Table.find?_assign]
  split <;> rfl

/-- An erasure is seen for its key only. -/
theorem get?_erase (m : Map κ ν) (k k' : κ) :
    get? (Table.erase m k) k' = if k' = k then none else get? m k' := by
  rw [get?, Table.find?_erase]
  split <;> rfl

end Map

end Tables
