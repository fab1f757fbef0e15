import Mathlib.Tactic.Common
import Mathlib.Algebra.Group.Nat.Defs
import Mathlib.Data.List.Range

set_option autoImplicit false

/-! # Machine words and pages

Addresses and sizes are the `uint64_t` of the source: 64-bit words with wrapping arithmetic.
-/

namespace Arcline

abbrev Word := BitVec 64

abbrev Byte := BitVec 8

/-- By this and the next a byte is looked up in a text, and a range in a list of ranges. -/
instance Byte.lawfulBEq : LawfulBEq Byte := inferInstance

instance Word.lawfulBEq_prod : LawfulBEq (Word × Word) := inferInstance

/-- The page size, 4 KiB, of the physical, the virtual and the translation layer alike. -/
def pageSize : Word := 4096

/-- `x & (PAGE_SIZE - 1)`: the offset of an address in its page. -/
def pageOffset (x : Word) : Word := x &&& (pageSize - 1)

/-- `x & ~(PAGE_SIZE - 1)`: the page an address lies in. -/
def pageDown (x : Word) : Word := x &&& ~~~(pageSize - 1)

/-- `(x + PAGE_SIZE - 1) & ~(PAGE_SIZE - 1)`. -/
def pageUp (x : Word) : Word := pageDown (x + pageSize - 1)

/-- The offsets `0, 4096, …` of a `for (off = 0; off < size; off += PAGE_SIZE)` loop. The callers
pass a multiple of the page size, or a number of pages below `2^52`, so `off` does not wrap. -/
def pageOffsets (size : Word) : List Word :=
  (List.range ((size.toNat + 4095) / 4096)).map fun i => BitVec.ofNat 64 (i * 4096)

theorem mem_pageOffsets {size off : Word} :
    off ∈ pageOffsets size ↔ ∃ i, i * 4096 < size.toNat ∧ off = BitVec.ofNat 64 (i * 4096) := by
  simp only [pageOffsets, List.mem_map, List.mem_range]
  constructor
  · rintro ⟨i, hi, rfl⟩
    exact ⟨i, by omega, rfl⟩
  · rintro ⟨i, hi, rfl⟩
    exact ⟨i, by omega, rfl⟩

theorem pageOffset_toNat (x : Word) : (pageOffset x).toNat = x.toNat % 4096 := by
  have : pageSize - 1 = BitVec.ofNat 64 (2 ^ 12 - 1) := by decide
  rw [pageOffset, this, BitVec.toNat_and, BitVec.toNat_ofNat]
  exact Nat.and_two_pow_sub_one_eq_mod x.toNat 12

theorem pageOffset_eq_zero {x : Word} : pageOffset x = 0 ↔ x.toNat % 4096 = 0 := by
  rw [← pageOffset_toNat, BitVec.toNat_eq]
  simp

theorem and_not_eq_sub {n : Nat} (x m : BitVec n) : x &&& ~~~m = x - (x &&& m) := by
  have h : (x &&& ~~~m) + (x &&& m) = x := by
    rw [BitVec.add_eq_or_of_and_eq_zero]
    · ext i hi
      simp only [BitVec.getElem_or, BitVec.getElem_and, BitVec.getElem_not]
      cases x[i] <;> cases m[i] <;> rfl
    · ext i hi
      simp only [BitVec.getElem_and, BitVec.getElem_not, BitVec.getElem_zero]
      cases x[i] <;> cases m[i] <;> rfl
  rw [BitVec.eq_sub_iff_add_eq, h]

theorem pageDown_toNat (x : Word) : (pageDown x).toNat = x.toNat / 4096 * 4096 := by
  have h : pageDown x = x - pageOffset x := and_not_eq_sub x _
  have hoff := pageOffset_toNat x
  have hle : pageOffset x ≤ x := by
    rw [BitVec.le_def, hoff]
    exact Nat.mod_le _ _
  rw [h, BitVec.toNat_sub_of_le hle, hoff]
  omega

theorem pageSize_toNat : pageSize.toNat = 4096 := rfl

theorem pageUp_toNat {x : Word} (h : x.toNat + 4095 < 2 ^ 64) :
    (pageUp x).toNat = (x.toNat + 4095) / 4096 * 4096 := by
  have hx : x + pageSize - 1 = x + 4095 := by
    rw [pageSize]
    bv_omega
  rw [pageUp, pageDown_toNat, hx, BitVec.toNat_add_of_lt h]
  rfl

end Arcline
