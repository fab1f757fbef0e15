import Arcline.Bytes
import Arcline.Fuel
import Arcline.Word

set_option autoImplicit false

/-! # Copying memory and strings

`memcpy`, `memmove`, `strcpy` and `strcat` (`lib/string.c`) on the bytes of memory. What each of them
does is said with `Bytes.moved`: the bytes of one block are put in the place of another, all at once.

The two loops of `memmove` differ in the direction only. A byte is read after others have been written,
and the direction that is taken for `dest < src` and for `dest > src` is the one in which no byte is
written before it is read.

`strcpy` copies byte by byte, or, if both pointers are a multiple of 8, word by word: a word without a
zero byte is stored as a whole, a word of zeros stands for the terminator, and a word with some zero byte
is left to the byte loop. The bytes behind the terminator that a word has as well decide between the
last two cases and nothing else. The word is read with the byte at the lowest address as its lowest
byte, the order of the processor the kernel is built for.
-/

namespace Arcline

open Bytes Fuel

/-- The bytes of memory. -/
abbrev Memory := Word → Byte

/-! ## `memcpy` and `memmove` -/

/-- The first `n` rounds of `for (i = 0; i < n; ++i) d[i] = s[i]`. -/
def copyUp (d s : Word) : Nat → Memory → Memory
  | 0, m => m
  | i + 1, m =>
      let m := copyUp d s i m
      Function.update m (d + BitVec.ofNat 64 i) (m (s + BitVec.ofNat 64 i))

/-- The rounds of `for (i = n; i > 0; --i) d[i - 1] = s[i - 1]`. -/
def copyDown (d s : Word) : Nat → Memory → Memory
  | 0, m => m
  | i + 1, m =>
      copyDown d s i (Function.update m (d + BitVec.ofNat 64 i) (m (s + BitVec.ofNat 64 i)))

/-- `memcpy`: the pointer it returns and the memory it leaves. -/
def memcpy (m : Memory) (dest src n : Word) : Word × Memory := (dest, copyUp dest src n.toNat m)

def memmove (m : Memory) (dest src n : Word) : Word × Memory :=
  if dest < src then (dest, copyUp dest src n.toNat m)
  else if dest > src then (dest, copyDown dest src n.toNat m)
  else (dest, m)

variable {i len fuel : Nat} {m : Memory} {p : Word}

section Move

variable {m : Memory} {dest src : Word}

/-- Going up, a byte must not have been written by an earlier round. -/
theorem copyUp_eq {n : Nat} (hn : n ≤ 2 ^ 64)
    (hread : ∀ i < n, ∀ j < i, src + BitVec.ofNat 64 i ≠ dest + BitVec.ofNat 64 j) :
    copyUp dest src n m = moved m dest src 0 n := by
  induction n with
  | zero => exact (moved_empty m dest src 0).symm
  | succ n ih =>
      have hsource : moved m dest src 0 n (src + BitVec.ofNat 64 n) = m (src + BitVec.ofNat 64 n) :=
        moved_of_ne fun j _ hj => hread n (by omega) j hj
      rw [copyUp, ih (by omega) fun i hi => hread i (by omega)]
      rw [hsource, moved_top (Nat.zero_le n) (by omega)]

/-- Going down, the same with the rounds from the other end. -/
theorem copyDown_eq {n : Nat} (hn : n ≤ 2 ^ 64)
    (hread : ∀ j < n, ∀ i < j, src + BitVec.ofNat 64 i ≠ dest + BitVec.ofNat 64 j) (hi : i ≤ n) :
    copyDown dest src i (moved m dest src i n) = moved m dest src 0 n := by
  induction i with
  | zero => rfl
  | succ i ih =>
      have hsource : moved m dest src (i + 1) n (src + BitVec.ofNat 64 i) = m (src + BitVec.ofNat 64 i) :=
        moved_of_ne fun j hlo hj => hread j hj i (by omega)
      rw [copyDown, hsource, moved_bottom (by omega) hn]
      exact ih (by omega)

theorem memcpy_eq {n : Word} (h : Apart dest src n.toNat) :
    memcpy m dest src n = (dest, moved m dest src 0 n.toNat) := by
  have hn := n.isLt
  rw [memcpy, copyUp_eq (by omega)]
  intro i hi j hj heq
  exact h j (by omega) i hi heq.symm

theorem memmove_eq {n : Word} (hdest : dest.toNat + n.toNat ≤ 2 ^ 64)
    (hsrc : src.toNat + n.toNat ≤ 2 ^ 64) :
    memmove m dest src n = (dest, moved m dest src 0 n.toNat) := by
  -- in a block that does not wrap the addresses are in the order of the bytes
  have hnum : ∀ i < n.toNat, ∀ j < n.toNat, src + BitVec.ofNat 64 i = dest + BitVec.ofNat 64 j →
      src.toNat + i = dest.toNat + j := by
    intro i hi j hj heq
    rw [← address_toNat src (by omega), ← address_toNat dest (by omega), heq]
  unfold memmove
  by_cases hup : dest < src
  · rw [if_pos hup, copyUp_eq (by omega)]
    intro i hi j hj heq
    have := hnum i hi j (by omega) heq
    rw [BitVec.lt_def] at hup
    omega
  · by_cases hdown : dest > src
    · have hread : ∀ j < n.toNat, ∀ i < j, src + BitVec.ofNat 64 i ≠ dest + BitVec.ofNat 64 j := by
        intro j hj i hi heq
        have := hnum i (by omega) j hj heq
        rw [gt_iff_lt, BitVec.lt_def] at hdown
        omega
      have hdone := copyDown_eq (m := m) (Nat.le_of_lt n.isLt) hread (Nat.le_refl n.toNat)
      rw [moved_empty] at hdone
      rw [if_neg hup, if_pos hdown, hdone]
    · have heq : dest = src := BitVec.le_antisymm (BitVec.not_lt.mp hdown) (BitVec.not_lt.mp hup)
      rw [if_neg hup, if_neg hdown, heq, moved_same]

end Move

/-- **`memmove`.** Whatever the ranges have in common, as long as neither of them wraps the bytes of
`[dest, dest + n)` become those that were in `[src, src + n)` and no other byte changes. On disjoint
ranges it does what `memcpy` does. -/
theorem memmove_moves (m : Memory) (dest src n : Word) (hdest : dest.toNat + n.toNat ≤ 2 ^ 64)
    (hsrc : src.toNat + n.toNat ≤ 2 ^ 64) :
    (∀ i < n.toNat,
      (memmove m dest src n).2 (dest + BitVec.ofNat 64 i) = m (src + BitVec.ofNat 64 i)) ∧
    (∀ a, (∀ i < n.toNat, a ≠ dest + BitVec.ofNat 64 i) → (memmove m dest src n).2 a = m a) ∧
    (Apart dest src n.toNat → memmove m dest src n = memcpy m dest src n) := by
  rw [memmove_eq hdest hsrc]
  refine ⟨fun i hi => ?_, fun a ha => ?_, fun h => ?_⟩
  · exact moved_at (Nat.le_of_lt n.isLt) (Nat.zero_le i) hi
  · exact moved_of_ne fun i _ hi => ha i hi
  · exact (memcpy_eq h).symm

/-- Three bytes are moved up by one. -/
theorem memmove_moves_up_one :
    (memmove (fun a => a.setWidth 8) 0x1001 0x1000 3).2 0x1003 = 2 ∧
      (memmove (fun a => a.setWidth 8) 0x1001 0x1000 3).2 0x1004 = 4 := by
  have h := memmove_moves (fun a => a.setWidth 8) 0x1001 0x1000 3 (by decide) (by decide)
  exact ⟨h.1 2 (by decide), h.2.1 0x1004 (by decide)⟩

/-! ## `strcpy` -/

/-- `while ((*d++ = *s++));`, for at most `fuel` bytes. -/
def copyBytes : Nat → Memory → Word → Word → Option Memory
  | 0, _, _, _ => none
  | fuel + 1, m, d, s =>
      let c := m s
      let m := Function.update m d c
      if c = 0 then some m else copyBytes fuel m (d + 1) (s + 1)

/-- The eight tests for a zero byte. -/
def HasZeroByte (val : Word) : Prop :=
  val &&& 0xFF00000000000000 = 0 ∨
  val &&& 0x00FF000000000000 = 0 ∨
  val &&& 0x0000FF0000000000 = 0 ∨
  val &&& 0x000000FF00000000 = 0 ∨
  val &&& 0x00000000FF000000 = 0 ∨
  val &&& 0x0000000000FF0000 = 0 ∨
  val &&& 0x000000000000FF00 = 0 ∨
  val &&& 0x00000000000000FF = 0

instance decidableHasZeroByte (val : Word) : Decidable (HasZeroByte val) :=
  inferInstanceAs (Decidable (_ ∨ _))

/-- `*s64`. -/
def load64 (m : Memory) (p : Word) : Word := loadLE m p 8

/-- `*d64 = val`. -/
def store64 (m : Memory) (p val : Word) : Memory := storeLE m p 8 val

/-- The loop over words. Where a zero byte is found the byte loop starts at that word. -/
def copyWords : Nat → Memory → Word → Word → Option Memory
  | 0, _, _, _ => none
  | fuel + 1, m, d64, s64 =>
      let val := load64 m s64
      if val = 0 then some (Function.update m d64 0)
      else if HasZeroByte val then copyBytes fuel m d64 s64
      else copyWords fuel (store64 m d64 val) (d64 + 8) (s64 + 8)

def strcpy (fuel : Nat) (m : Memory) (dest src : Word) : Option Memory :=
  if dest = 0 ∨ src = 0 then some m
  else if dest &&& 7 = 0 ∧ src &&& 7 = 0 then copyWords fuel m dest src
  else copyBytes fuel m dest src

/-- A string of `len` characters at `p`, with its terminator. -/
structure StringAt (m : Memory) (p : Word) (len : Nat) : Prop where
  char : ∀ i < len, m (p + BitVec.ofNat 64 i) ≠ 0
  nul : m (p + BitVec.ofNat 64 len) = 0

/-- The address of the terminator would come a second time. -/
theorem StringAt.length_lt (h : StringAt m p len) : len < 2 ^ 64 := by
  by_contra hlen
  have hwrap : BitVec.ofNat 64 (len - 2 ^ 64) = BitVec.ofNat 64 len := by
    apply BitVec.eq_of_toNat_eq
    rw [BitVec.toNat_ofNat, BitVec.toNat_ofNat]
    omega
  have hnul := h.nul
  rw [← hwrap] at hnul
  exact h.char (len - 2 ^ 64) (by omega) hnul

theorem hasZeroByte_iff (val : Word) : HasZeroByte val ↔ ∃ j < 8, byte val j = 0 := by
  have hmask : ∀ j < 8, val &&& (0xFF#64 <<< (8 * j)) = 0#64 ↔ byte val j = 0#8 :=
    fun j hj => and_mask_eq_zero val (by omega)
  constructor
  · rintro (h | h | h | h | h | h | h | h)
    · exact ⟨7, by decide, (hmask 7 (by decide)).mp h⟩
    · exact ⟨6, by decide, (hmask 6 (by decide)).mp h⟩
    · exact ⟨5, by decide, (hmask 5 (by decide)).mp h⟩
    · exact ⟨4, by decide, (hmask 4 (by decide)).mp h⟩
    · exact ⟨3, by decide, (hmask 3 (by decide)).mp h⟩
    · exact ⟨2, by decide, (hmask 2 (by decide)).mp h⟩
    · exact ⟨1, by decide, (hmask 1 (by decide)).mp h⟩
    · exact ⟨0, by decide, (hmask 0 (by decide)).mp h⟩
  · rintro ⟨j, hj, h⟩
    have h' := (hmask j hj).mpr h
    have hcases : j = 7 ∨ j = 6 ∨ j = 5 ∨ j = 4 ∨ j = 3 ∨ j = 2 ∨ j = 1 ∨ j = 0 := by omega
    unfold HasZeroByte
    rcases hcases with rfl | rfl | rfl | rfl | rfl | rfl | rfl | rfl
    · exact .inl h'
    · exact .inr (.inl h')
    · exact .inr (.inr (.inl h'))
    · exact .inr (.inr (.inr (.inl h')))
    · exact .inr (.inr (.inr (.inr (.inl h'))))
    · exact .inr (.inr (.inr (.inr (.inr (.inl h')))))
    · exact .inr (.inr (.inr (.inr (.inr (.inr (.inl h'))))))
    · exact .inr (.inr (.inr (.inr (.inr (.inr (.inr h'))))))

section Strcpy

variable {m : Memory} {dest src : Word} {len : Nat} (hstr : StringAt m src len)
  (hapart : Apart dest src (len + 1))
include hstr hapart

/-- The byte loop, with `i` bytes copied. -/
theorem copyBytes_eq (hi : i ≤ len) (hfuel : len - i < fuel) :
    copyBytes fuel (moved m dest src 0 i) (dest + BitVec.ofNat 64 i) (src + BitVec.ofNat 64 i)
      = some (moved m dest src 0 (len + 1)) := by
  have hlen := hstr.length_lt
  induction fuel generalizing i with
  | zero => exact absurd hfuel (Nat.not_lt_zero _)
  | succ fuel ih =>
      have hread : moved m dest src 0 i (src + BitVec.ofNat 64 i) = m (src + BitVec.ofNat 64 i) :=
        hapart.moved_source (by omega) (by omega)
      rw [copyBytes]
      rw [hread, moved_top (Nat.zero_le i) (by omega)]
      by_cases hend : i = len
      · rw [hend, if_pos hstr.nul]
      · rw [if_neg (hstr.char i (by omega))]
        rw [show dest + BitVec.ofNat 64 i + 1 = _ from address_add dest i 1,
          show src + BitVec.ofNat 64 i + 1 = _ from address_add src i 1]
        exact ih (by omega) (by omega)

omit hstr in
/-- What the word at byte `i` of the string has of the string. The rest of the word may be anything. -/
theorem byte_load64 {j : Nat} (hi : i ≤ len) (hj : j < 8) (hin : i + j ≤ len) :
    byte (load64 (moved m dest src 0 i) (src + BitVec.ofNat 64 i)) j
      = m (src + BitVec.ofNat 64 (i + j)) := by
  calc byte (load64 (moved m dest src 0 i) (src + BitVec.ofNat 64 i)) j
      = moved m dest src 0 i (src + BitVec.ofNat 64 i + BitVec.ofNat 64 j) := byte_loadLE _ _ hj
    _ = moved m dest src 0 i (src + BitVec.ofNat 64 (i + j)) := by rw [address_add]
    _ = m (src + BitVec.ofNat 64 (i + j)) := hapart.moved_source (by omega) (by omega)

/-- The word loop, with `i` bytes copied. -/
theorem copyWords_eq (hi : i ≤ len) (hfuel : len - i + 1 < fuel) :
    copyWords fuel (moved m dest src 0 i) (dest + BitVec.ofNat 64 i) (src + BitVec.ofNat 64 i)
      = some (moved m dest src 0 (len + 1)) := by
  have hlen := hstr.length_lt
  induction fuel generalizing i with
  | zero => exact absurd hfuel (Nat.not_lt_zero _)
  | succ fuel ih =>
      have hbyte := fun j hj => byte_load64 (m := m) hapart (i := i) (j := j) hi hj
      rw [copyWords]
      generalize load64 (moved m dest src 0 i) (src + BitVec.ofNat 64 i) = val at hbyte ⊢
      by_cases hfull : i + 8 ≤ len
      · -- eight characters: no test fires, and the word goes out as it is
        have hchar : ¬ ∃ j < 8, byte val j = 0 := by
          rintro ⟨j, hj, hzero⟩
          exact hstr.char (i + j) (by omega) ((hbyte j hj (by omega)).symm.trans hzero)
        have hne : val ≠ 0 := by
          rintro rfl
          exact hchar ⟨0, by decide, rfl⟩
        rw [if_neg hne, if_neg (mt (hasZeroByte_iff val).mp hchar), store64,
          store_moved (Nat.zero_le i) (by omega) fun j hj => hbyte j hj (by omega)]
        rw [show dest + BitVec.ofNat 64 i + 8 = _ from address_add dest i 8,
          show src + BitVec.ofNat 64 i + 8 = _ from address_add src i 8]
        exact ih hfull (by omega)
      · by_cases hval : val = 0
        · -- its first byte is the terminator
          have hend : i = len := by
            by_contra hne
            have hzero : byte val 0 = 0 := by rw [hval]; rfl
            exact hstr.char i (by omega) ((hbyte 0 (by decide) hi).symm.trans hzero)
          rw [if_pos hval, hend, ← hstr.nul, moved_top (Nat.zero_le len) hlen]
        · have hzero : HasZeroByte val := by
            apply (hasZeroByte_iff val).mpr
            refine ⟨len - i, by omega, ?_⟩
            rw [hbyte (len - i) (by omega) (by omega), Nat.add_sub_of_le hi]
            exact hstr.nul
          rw [if_neg hval, if_pos hzero]
          exact copyBytes_eq hstr hapart hi (by omega)

theorem copyBytes_returns :
    ReturnsAs (fun fuel => copyBytes fuel m dest src) (moved m dest src 0 (len + 1)) := by
  refine ⟨len + 1, fun fuel hfuel => ?_⟩
  have h := copyBytes_eq hstr hapart (Nat.zero_le len) (show len - 0 < fuel by omega)
  rwa [moved_empty, BitVec.add_zero, BitVec.add_zero] at h

theorem copyWords_returns :
    ReturnsAs (fun fuel => copyWords fuel m dest src) (moved m dest src 0 (len + 1)) := by
  refine ⟨len + 2, fun fuel hfuel => ?_⟩
  have h := copyWords_eq hstr hapart (Nat.zero_le len) (show len - 0 + 1 < fuel by omega)
  rwa [moved_empty, BitVec.add_zero, BitVec.add_zero] at h

theorem strcpy_returns (hdest : dest ≠ 0) (hsrc : src ≠ 0) :
    ReturnsAs (fun fuel => strcpy fuel m dest src) (moved m dest src 0 (len + 1)) := by
  have hnull : ¬ (dest = 0 ∨ src = 0) := not_or.mpr ⟨hdest, hsrc⟩
  simp only [strcpy, if_neg hnull]
  by_cases haligned : dest &&& 7 = 0 ∧ src &&& 7 = 0
  · simp only [if_pos haligned]
    exact copyWords_returns hstr hapart
  · simp only [if_neg haligned]
    exact copyBytes_returns hstr hapart

end Strcpy

/-- **`strcpy`.** For every string and every destination apart from it the word loop and the byte loop
come to an end and leave the same memory, and so does the call, which takes one of them by the alignment
of its pointers: the string is in the destination with its terminator, and every other byte is as it
was. -/
theorem strcpy_paths_agree {m : Memory} {dest src : Word} {len : Nat} (hstr : StringAt m src len)
    (hapart : Apart dest src (len + 1)) :
    ∃ m', ReturnsAs (fun fuel => copyWords fuel m dest src) m' ∧
      ReturnsAs (fun fuel => copyBytes fuel m dest src) m' ∧
      (dest ≠ 0 → src ≠ 0 → ReturnsAs (fun fuel => strcpy fuel m dest src) m') ∧
      (∀ i ≤ len, m' (dest + BitVec.ofNat 64 i) = m (src + BitVec.ofNat 64 i)) ∧
      ∀ a, (∀ i ≤ len, a ≠ dest + BitVec.ofNat 64 i) → m' a = m a := by
  refine ⟨moved m dest src 0 (len + 1), copyWords_returns hstr hapart,
    copyBytes_returns hstr hapart, strcpy_returns hstr hapart, fun i hi => ?_, fun a ha => ?_⟩
  · exact moved_at hstr.length_lt (Nat.zero_le i) (Nat.lt_succ_of_le hi)
  · exact moved_of_ne fun i _ hi => ha i (Nat.le_of_lt_succ hi)

/-- `Hi` at 0x1000, with the bytes of its word behind the terminator not zero. -/
def greeting : Memory := fun a =>
  if a = 0x1000 then 0x48 else if a = 0x1001 then 0x69 else if a = 0x1002 then 0 else 0x55

/-- It is copied to 0x2000, and the byte behind it stays. -/
theorem strcpy_paths_agree_greeting : StringAt greeting 0x1000 2 ∧ Apart (0x2000 : Word) 0x1000 3 ∧
    ∃ m', ReturnsAs (fun fuel => strcpy fuel greeting 0x2000 0x1000) m' ∧
      m' 0x2000 = 0x48 ∧ m' 0x2001 = 0x69 ∧ m' 0x2002 = 0 ∧ m' 0x2003 = 0x55 := by
  have hstr : StringAt greeting 0x1000 2 := ⟨by decide, by decide⟩
  have hapart : Apart (0x2000 : Word) 0x1000 3 := by
    unfold Apart
    decide
  obtain ⟨m', -, -, hcall, hin, hout⟩ := strcpy_paths_agree hstr hapart
  exact ⟨hstr, hapart, m', hcall (by decide) (by decide), hin 0 (by decide), hin 1 (by decide),
    hin 2 (by decide), hout 0x2003 (by decide)⟩

/-! ## `strcat` -/

/-- `while (*dest) dest++;`. -/
def findEnd : Nat → Memory → Word → Option Word
  | 0, _, _ => none
  | fuel + 1, m, p => if m p = 0 then some p else findEnd fuel m (p + 1)

def strcat (fuel : Nat) (m : Memory) (dest src : Word) : Option Memory :=
  if dest = 0 ∨ src = 0 then some m
  else (findEnd fuel m dest).bind fun stop => strcpy fuel m stop src

theorem findEnd_eq (h : StringAt m p len) (hi : i ≤ len) (hfuel : len - i < fuel) :
    findEnd fuel m (p + BitVec.ofNat 64 i) = some (p + BitVec.ofNat 64 len) := by
  induction fuel generalizing i with
  | zero => exact absurd hfuel (Nat.not_lt_zero _)
  | succ fuel ih =>
      rw [findEnd]
      by_cases hend : i = len
      · rw [hend, if_pos h.nul]
      · rw [if_neg (h.char i (by omega))]
        rw [show p + BitVec.ofNat 64 i + 1 = _ from address_add p i 1]
        exact ih (by omega) (by omega)

theorem findEnd_returns (h : StringAt m p len) :
    ReturnsAs (fun fuel => findEnd fuel m p) (p + BitVec.ofNat 64 len) := by
  refine ⟨len + 1, fun fuel hfuel => ?_⟩
  have hend := findEnd_eq h (Nat.zero_le len) (show len - 0 < fuel by omega)
  rwa [BitVec.add_zero] at hend

/-- **`strcat`.** Where the end of `dest` has room for the string at `src`, `dest` holds both strings in
a row, and every byte but those from the old terminator to the new one is as it was. -/
theorem strcat_appends {dest src : Word} {k : Nat} (hdest : StringAt m dest k)
    (hsrc : StringAt m src len) (hwrap : dest.toNat + k + len < 2 ^ 64) (hne : dest ≠ 0)
    (hne' : src ≠ 0) (hapart : Apart (dest + BitVec.ofNat 64 k) src (len + 1)) :
    ∃ m', ReturnsAs (fun fuel => strcat fuel m dest src) m' ∧ StringAt m' dest (k + len) ∧
      (∀ i < k, m' (dest + BitVec.ofNat 64 i) = m (dest + BitVec.ofNat 64 i)) ∧
      (∀ i ≤ len, m' (dest + BitVec.ofNat 64 (k + i)) = m (src + BitVec.ofNat 64 i)) ∧
      ∀ a, (∀ i ≤ len, a ≠ dest + BitVec.ofNat 64 (k + i)) → m' a = m a := by
  have hstop : dest + BitVec.ofNat 64 k ≠ 0 := by
    intro hzero
    have hnum := address_toNat dest (i := k) (by omega)
    rw [hzero, show (0 : Word).toNat = 0 from rfl] at hnum
    exact hne (BitVec.eq_of_toNat_eq (show dest.toNat = 0 by omega))
  have hold : ∀ i < k, moved m (dest + BitVec.ofNat 64 k) src 0 (len + 1) (dest + BitVec.ofNat 64 i)
      = m (dest + BitVec.ofNat 64 i) := by
    intro i hi
    apply moved_of_ne
    intro j _ hj heq
    rw [address_add] at heq
    have := address_inj dest (by omega) (by omega) heq
    omega
  have hnew : ∀ i ≤ len, moved m (dest + BitVec.ofNat 64 k) src 0 (len + 1)
      (dest + BitVec.ofNat 64 (k + i)) = m (src + BitVec.ofNat 64 i) := by
    intro i hi
    rw [← address_add]
    exact moved_at (by omega) (Nat.zero_le i) (by omega)
  refine ⟨moved m (dest + BitVec.ofNat 64 k) src 0 (len + 1), ?_, ⟨fun i hi => ?_, ?_⟩, hold, hnew,
    fun a ha => ?_⟩
  · have hnull : ¬ (dest = 0 ∨ src = 0) := not_or.mpr ⟨hne, hne'⟩
    simp only [strcat, if_neg hnull]
    exact (findEnd_returns hdest).bind (strcpy_returns hsrc hapart hstop hne')
  · -- a character of the first string, or of the second
    by_cases hlow : i < k
    · rw [hold i hlow]
      exact hdest.char i hlow
    · have h := hnew (i - k) (by omega)
      rw [Nat.add_sub_of_le (Nat.not_lt.mp hlow)] at h
      rw [h]
      exact hsrc.char (i - k) (by omega)
  · rw [hnew len (Nat.le_refl len)]
    exact hsrc.nul
  · apply moved_of_ne
    intro i _ hi
    rw [address_add]
    exact ha i (by omega)

end Arcline
