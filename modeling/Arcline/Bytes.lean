import Mathlib.Tactic.Common
import Mathlib.Logic.Function.Basic
import Mathlib.Algebra.Group.Nat.Defs

set_option autoImplicit false

/-! # Copies in byte memory

A memory is a function from addresses to bytes; addresses count modulo `2 ^ w`. A block is given by its
first address and a number of bytes, and byte `i` of the block at `p` has the address
`p + BitVec.ofNat w i`.

A copy is described by its result and not by the order in which a loop makes it: after `moved`, the bytes
`lo, …, hi - 1` of the block at `dest` are those that the block at `src` had before. A loop that goes up
has moved the bytes from 0 on and adds one at the upper end (`moved_top`), a loop that goes down adds one
at the lower end (`moved_bottom`), and a loop that goes up by words adds several (`store_moved`). Each of
them reads the memory it has changed so far, so the byte it reads has to be one it has not written yet:
that is `moved_of_ne` at the address that is read.
-/

namespace Bytes

variable {w : Nat} {β : Type*}

/-! ## Addresses -/

variable {i j k : Nat}

theorem sub_toNat (p : BitVec w) (hi : i < 2 ^ w) : (p + BitVec.ofNat w i - p).toNat = i := by
  rw [BitVec.add_comm, BitVec.add_sub_cancel, BitVec.toNat_ofNat, Nat.mod_eq_of_lt hi]

theorem add_sub_toNat (p a : BitVec w) : p + BitVec.ofNat w (a - p).toNat = a := by
  rw [BitVec.ofNat_toNat, BitVec.setWidth_eq, BitVec.add_comm, BitVec.sub_add_cancel]

theorem address_inj (p : BitVec w) (hi : i < 2 ^ w) (hj : j < 2 ^ w)
    (h : p + BitVec.ofNat w i = p + BitVec.ofNat w j) : i = j := by
  calc i = (p + BitVec.ofNat w i - p).toNat := (sub_toNat p hi).symm
    _ = (p + BitVec.ofNat w j - p).toNat := by rw [h]
    _ = j := sub_toNat p hj

theorem address_add (p : BitVec w) (i j : Nat) :
    p + BitVec.ofNat w i + BitVec.ofNat w j = p + BitVec.ofNat w (i + j) := by
  rw [BitVec.ofNat_add, BitVec.add_assoc]

/-- An address in a block that does not go on at 0. -/
theorem address_toNat (p : BitVec w) (h : p.toNat + i < 2 ^ w) :
    (p + BitVec.ofNat w i).toNat = p.toNat + i := by
  rw [BitVec.toNat_add, BitVec.toNat_ofNat, Nat.add_mod_mod, Nat.mod_eq_of_lt h]

/-- Two blocks of `n` bytes without a common address. -/
def Apart (p q : BitVec w) (n : Nat) : Prop :=
  ∀ i < n, ∀ j < n, p + BitVec.ofNat w i ≠ q + BitVec.ofNat w j

/-! ## Moved bytes -/

section Moved

variable {m : BitVec w → β} {dest src : BitVec w} {lo hi : Nat}

/-- The bytes `lo, …, hi - 1` of the block at `dest` are those of the block at `src`. -/
def moved (m : BitVec w → β) (dest src : BitVec w) (lo hi : Nat) : BitVec w → β := fun a =>
  if lo ≤ (a - dest).toNat ∧ (a - dest).toNat < hi then m (src + (a - dest)) else m a

theorem moved_at (hhi : hi ≤ 2 ^ w) (hlo : lo ≤ i) (hlt : i < hi) :
    moved m dest src lo hi (dest + BitVec.ofNat w i) = m (src + BitVec.ofNat w i) := by
  have hoff : (dest + BitVec.ofNat w i - dest).toNat = i := sub_toNat dest (by omega)
  have hsub : dest + BitVec.ofNat w i - dest = BitVec.ofNat w i := by
    rw [BitVec.add_comm, BitVec.add_sub_cancel]
  rw [moved, if_pos (by omega), hsub]

theorem moved_of_ne {a : BitVec w}
    (h : ∀ i, lo ≤ i → i < hi → a ≠ dest + BitVec.ofNat w i) : moved m dest src lo hi a = m a :=
  if_neg fun hin => h _ hin.1 hin.2 (add_sub_toNat dest a).symm

/-- The bytes of the block and all the others determine the memory. -/
theorem eq_moved {m' : BitVec w → β} (hhi : hi ≤ 2 ^ w)
    (hin : ∀ i, lo ≤ i → i < hi → m' (dest + BitVec.ofNat w i) = m (src + BitVec.ofNat w i))
    (hout : ∀ a, (∀ i, lo ≤ i → i < hi → a ≠ dest + BitVec.ofNat w i) → m' a = m a) :
    m' = moved m dest src lo hi := by
  funext a
  by_cases ha : ∃ i, lo ≤ i ∧ i < hi ∧ a = dest + BitVec.ofNat w i
  · obtain ⟨i, hlo, hlt, rfl⟩ := ha
    rw [hin i hlo hlt, moved_at hhi hlo hlt]
  · have hne : ∀ i, lo ≤ i → i < hi → a ≠ dest + BitVec.ofNat w i :=
      fun i hlo hlt heq => ha ⟨i, hlo, hlt, heq⟩
    rw [hout a hne, moved_of_ne hne]

theorem moved_empty (m : BitVec w → β) (dest src : BitVec w) (lo : Nat) :
    moved m dest src lo lo = m := by
  funext a
  apply moved_of_ne
  intro i hlo hlt
  exact absurd hlo (Nat.not_le.mpr hlt)

/-- A block is not changed by being moved onto itself. -/
theorem moved_same (m : BitVec w → β) (p : BitVec w) (lo hi : Nat) : moved m p p lo hi = m := by
  funext a
  have haddr : p + (a - p) = a := by rw [BitVec.add_comm, BitVec.sub_add_cancel]
  rw [moved, haddr, ite_self]

/-- One byte more at the upper end. -/
theorem moved_top (hlo : lo ≤ hi) (hhi : hi < 2 ^ w) :
    Function.update (moved m dest src lo hi) (dest + BitVec.ofNat w hi) (m (src + BitVec.ofNat w hi))
      = moved m dest src lo (hi + 1) := by
  apply eq_moved hhi
  · intro i hloi hlt
    by_cases heq : i = hi
    · rw [heq, Function.update_self]
    · rw [Function.update_of_ne (fun h => heq (address_inj dest (by omega) hhi h)),
        moved_at (by omega) hloi (by omega)]
  · intro a ha
    rw [Function.update_of_ne (ha hi hlo (by omega))]
    exact moved_of_ne fun i hloi hlt => ha i hloi (by omega)

/-- One byte more at the lower end. -/
theorem moved_bottom (hlo : lo < hi) (hhi : hi ≤ 2 ^ w) :
    Function.update (moved m dest src (lo + 1) hi) (dest + BitVec.ofNat w lo)
      (m (src + BitVec.ofNat w lo)) = moved m dest src lo hi := by
  apply eq_moved hhi
  · intro i hloi hlt
    by_cases heq : i = lo
    · rw [heq, Function.update_self]
    · rw [Function.update_of_ne (fun h => heq (address_inj dest (by omega) (by omega) h)),
        moved_at hhi (by omega) hlt]
  · intro a ha
    rw [Function.update_of_ne (ha lo (Nat.le_refl lo) hlo)]
    exact moved_of_ne fun i hloi hlt => ha i (by omega) hlt

/-- A source apart from the destination is not written. -/
theorem Apart.moved_source {n : Nat} (h : Apart dest src n) (hhi : hi ≤ n) (hi' : i < n) :
    moved m dest src lo hi (src + BitVec.ofNat w i) = m (src + BitVec.ofNat w i) := by
  apply moved_of_ne
  intro j _ hlt heq
  exact h j (by omega) i hi' heq.symm

end Moved

/-! ## Words

A word of `n` bytes has the byte at the lowest address as its lowest one. -/

section Words

variable {m : BitVec w → BitVec 8} {p : BitVec w} {n : Nat}

/-- Byte `j` of a word. -/
def byte {k : Nat} (v : BitVec k) (j : Nat) : BitVec 8 := v.extractLsb' (8 * j) 8

/-- The word of `n` bytes at `p`. -/
def loadLE (m : BitVec w → BitVec 8) (p : BitVec w) : (n : Nat) → BitVec (8 * n)
  | 0 => 0#0
  | n + 1 => (m (p + BitVec.ofNat w n) ++ loadLE m p n).cast (by omega)

/-- Write the lowest `n` bytes of a word to `p`. -/
def storeLE {k : Nat} (m : BitVec w → BitVec 8) (p : BitVec w) (n : Nat) (v : BitVec k) :
    BitVec w → BitVec 8 := fun a =>
  if (a - p).toNat < n then byte v (a - p).toNat else m a

theorem byte_loadLE (m : BitVec w → BitVec 8) (p : BitVec w) (hj : j < n) :
    byte (loadLE m p n) j = m (p + BitVec.ofNat w j) := by
  induction n with
  | zero => exact absurd hj (Nat.not_lt_zero j)
  | succ n ih =>
      rw [byte, loadLE, BitVec.extractLsb'_cast]
      by_cases heq : j = n
      · rw [heq, BitVec.extractLsb'_append_eq_left]
      · rw [BitVec.extractLsb'_append_eq_of_add_le (by omega)]
        exact ih (by omega)

/-- Store a word that holds the next bytes of the source. -/
theorem store_moved {dest src : BitVec w} {lo hi : Nat} {v : BitVec k} (hlo : lo ≤ hi)
    (hhi : hi + n ≤ 2 ^ w) (hv : ∀ j < n, byte v j = m (src + BitVec.ofNat w (hi + j))) :
    storeLE (moved m dest src lo hi) (dest + BitVec.ofNat w hi) n v = moved m dest src lo (hi + n) := by
  apply eq_moved hhi
  · intro i hloi hlt
    by_cases hlow : i < hi
    · have hout : ¬ (dest + BitVec.ofNat w i - (dest + BitVec.ofNat w hi)).toNat < n := by
        intro hin
        have heq := add_sub_toNat (dest + BitVec.ofNat w hi) (dest + BitVec.ofNat w i)
        rw [address_add] at heq
        have := address_inj dest (by omega) (by omega) heq
        omega
      rw [storeLE, if_neg hout, moved_at (by omega) hloi hlow]
    · obtain ⟨j, rfl⟩ := Nat.exists_eq_add_of_le (Nat.not_lt.mp hlow)
      have hoff : (dest + BitVec.ofNat w (hi + j) - (dest + BitVec.ofNat w hi)).toNat = j := by
        rw [← address_add]
        exact sub_toNat _ (by omega)
      rw [storeLE, hoff, if_pos (by omega), hv j (by omega)]
  · intro a ha
    have hout : ¬ (a - (dest + BitVec.ofNat w hi)).toNat < n := by
      intro hin
      have heq := add_sub_toNat (dest + BitVec.ofNat w hi) a
      rw [address_add] at heq
      exact ha _ (by omega) (by omega) heq.symm
    rw [storeLE, if_neg hout]
    exact moved_of_ne fun i hloi hlt => ha i hloi (by omega)

theorem getLsbD_mask (j : Nat) (hi : i < k) :
    (0xFF#k <<< (8 * j)).getLsbD i = decide (8 * j ≤ i ∧ i < 8 * j + 8) := by
  have hbits : (0xFF : Nat) = 2 ^ 8 - 1 := rfl
  rw [BitVec.getLsbD_shiftLeft, BitVec.getLsbD_ofNat, hbits, Nat.testBit_two_pow_sub_one]
  by_cases hin : 8 * j ≤ i ∧ i < 8 * j + 8
  · simp [hin, hi]
    omega
  · simp [hin]
    omega

/-- The mask of one byte finds that byte. -/
theorem and_mask_eq_zero (v : BitVec k) (hj : 8 * j + 8 ≤ k) :
    v &&& (0xFF#k <<< (8 * j)) = 0#k ↔ byte v j = 0#8 := by
  constructor
  · intro h
    apply BitVec.eq_of_getLsbD_eq
    intro i hi
    have hbit : (v &&& (0xFF#k <<< (8 * j))).getLsbD (8 * j + i) = false := by
      rw [h, BitVec.getLsbD_zero]
    rw [BitVec.getLsbD_and, getLsbD_mask j (by omega), decide_eq_true (by omega),
      Bool.and_true] at hbit
    rw [byte, BitVec.getLsbD_extractLsb', hbit, Bool.and_false, BitVec.getLsbD_zero]
  · intro h
    apply BitVec.eq_of_getLsbD_eq
    intro i hi
    rw [BitVec.getLsbD_and, getLsbD_mask j hi, BitVec.getLsbD_zero]
    by_cases hin : 8 * j ≤ i ∧ i < 8 * j + 8
    · have hbit : (byte v j).getLsbD (i - 8 * j) = false := by rw [h, BitVec.getLsbD_zero]
      rw [byte, BitVec.getLsbD_extractLsb', decide_eq_true (by omega), Bool.true_and,
        Nat.add_sub_of_le hin.1] at hbit
      rw [hbit, Bool.false_and]
    · rw [decide_eq_false hin, Bool.and_false]

end Words

end Bytes
