import Mathlib.Algebra.Group.Nat.Defs
import Mathlib.Control.Monad.Basic
import Mathlib.Data.List.Basic
import Mathlib.Tactic.TypeStar

/-!
# Readers that undo writers

A reader takes what it reads off the front of a list of bytes and leaves the rest. It
undoes a writer if it reads back whatever was written and leaves exactly the bytes that
follow. This is kept when the parts of a message are written one after another and read
in the same order, and it makes the writer injective up to what the reader forgets.
-/

namespace Wire

variable {Byte α β γ : Type}

/-- A reader takes what it reads off the front of the bytes, or fails. -/
abbrev Reader (Byte α : Type) := StateT (List Byte) Option α

/-- Whatever was written is read back as `f` of it, and the bytes after it are left. -/
def Undoes (read : Reader Byte β) (write : α → List Byte) (f : α → β) : Prop :=
  ∀ a rest, read.run (write a ++ rest) = some (f a, rest)

/-- Read `n` items. -/
def readMany (read : Reader Byte α) : ℕ → Reader Byte (List α)
  | 0 => pure []
  | n + 1 => do
    let a ← read
    let more ← readMany read n
    pure (a :: more)

namespace Undoes

variable {read : Reader Byte β} {write : α → List Byte} {f : α → β}

/-- **Sequencing.** After what was written, reading goes on with the bytes that follow. -/
theorem run_bind (h : Undoes read write f) (a : α) (next : β → Reader Byte γ)
    (rest : List Byte) : (read >>= next).run (write a ++ rest) = (next (f a)).run rest := by
  rw [StateT.run_bind, h a rest]
  rfl

/-- Reading and then applying a function. -/
theorem map (h : Undoes read write f) (g : β → γ) : Undoes (g <$> read) write (g ∘ f) := by
  intro a rest
  rw [StateT.run_map, h a rest]
  rfl

/-- Items written one after another are read back one after another. -/
theorem readMany (h : Undoes read write f) (items : List α) (rest : List Byte) :
    (readMany read items.length).run (items.flatMap write ++ rest) =
      some (items.map f, rest) := by
  induction items with
  | nil => rfl
  | cons a items ih =>
    rw [List.flatMap_cons, List.append_assoc, List.length_cons, Wire.readMany, h.run_bind,
      StateT.run_bind, ih]
    rfl

/-- What was written can be told from the bytes, up to what the reader forgets, and so can where
it ends. -/
theorem unique (h : Undoes read write f) {a b : α} {rest rest' : List Byte}
    (heq : write a ++ rest = write b ++ rest') : f a = f b ∧ rest = rest' := by
  have hread := h a rest
  rw [heq, h b rest'] at hread
  obtain ⟨hf, hrest⟩ := Prod.mk.inj (Option.some.inj hread)
  exact ⟨hf.symm, hrest.symm⟩

/-- The writer is injective up to what the reader forgets. -/
theorem injective (h : Undoes read write f) {a b : α} (heq : write a = write b) : f a = f b :=
  (h.unique (congrArg (· ++ []) heq)).1

end Undoes

section Integers

/-- The least significant `width` bytes of a number, the least significant one first. -/
def writeNat : ℕ → ℕ → List UInt8
  | 0, _ => []
  | width + 1, n => UInt8.ofNat n :: writeNat width (n / 256)

/-- Read a number that was written with a fixed number of bytes. -/
def readNat : ℕ → Reader UInt8 ℕ
  | 0 => pure 0
  | width + 1 => fun bytes =>
    match bytes with
    | [] => none
    | b :: bytes => (readNat width bytes).map fun (n, rest) => (b.toNat + 256 * n, rest)

/-- A number is read back if it fits in the bytes. -/
theorem readNat_undoes (width : ℕ) : Undoes (readNat width) (writeNat width) (· % 256 ^ width) := by
  induction width with
  | zero =>
    intro n rest
    simp [readNat, writeNat, Nat.mod_one]
  | succ width ih =>
    intro n rest
    have hlater : readNat width (writeNat width (n / 256) ++ rest) =
        some (n / 256 % 256 ^ width, rest) := ih (n / 256) rest
    have hsplit : n % 256 ^ (width + 1) = n % 256 + 256 * (n / 256 % 256 ^ width) := by
      rw [Nat.pow_succ', Nat.mod_mul]
    rw [writeNat, List.cons_append]
    change (readNat width (writeNat width (n / 256) ++ rest)).map _ = _
    rw [hlater, Option.map_some, UInt8.toNat_ofNat']
    simp only [hsplit]

/-- A number of any size: a byte 255 for every 255 in it, then the remainder. -/
def writeCount (n : ℕ) : List UInt8 := List.replicate (n / 255) 255 ++ [UInt8.ofNat (n % 255)]

/-- Read such a number. -/
def readCount : Reader UInt8 ℕ
  | [] => none
  | b :: bytes =>
    if b = 255 then (readCount bytes).map fun (n, rest) => (255 + n, rest)
    else some (b.toNat, bytes)

/-- A count is read back as it was written. -/
theorem readCount_undoes : Undoes readCount writeCount id := by
  have hblocks : ∀ (blocks : ℕ) (last : UInt8) (rest : List UInt8), last ≠ 255 →
      readCount (List.replicate blocks 255 ++ [last] ++ rest) =
        some (255 * blocks + last.toNat, rest) := by
    intro blocks last rest hlast
    induction blocks with
    | zero => simp [readCount, hlast]
    | succ blocks ih =>
      have hsum : 255 + (255 * blocks + last.toNat) = 255 * (blocks + 1) + last.toNat := by omega
      rw [List.replicate_succ, List.cons_append, List.cons_append, readCount, if_pos rfl, ih,
        Option.map_some, ← hsum]
  intro n rest
  have hmod : n % 255 < 255 := Nat.mod_lt _ (by decide)
  have hlast : (UInt8.ofNat (n % 255)).toNat = n % 255 := by
    rw [UInt8.toNat_ofNat']
    omega
  have hne : UInt8.ofNat (n % 255) ≠ 255 := by
    intro heq
    rw [heq] at hlast
    exact Nat.ne_of_lt hmod hlast.symm
  change readCount (writeCount n ++ rest) = _
  rw [writeCount, hblocks _ _ _ hne, hlast, Nat.div_add_mod, id]

end Integers

end Wire
