import Mathlib.Data.Nat.Digits.Lemmas

set_option autoImplicit false

/-! # Numerals

A numeral in base `b` is a list of digits, the most significant first. Each number has one canonical
numeral: without leading zeros, and a single 0 for zero. The usual way to write a number down is a loop
that takes the last digit off until nothing is left; the digits come out last first, and go to an array
of limited size.
-/

namespace Numeral

variable {b n : Nat} {l : List Nat}

/-- The canonical numeral of a number. -/
def ofNat (b n : Nat) : List Nat := if n = 0 then [0] else (Nat.digits b n).reverse

/-- The number a numeral stands for. -/
def value (b : Nat) (l : List Nat) : Nat := l.foldl (fun n d => n * b + d) 0

structure Canonical (b : Nat) (l : List Nat) : Prop where
  ne_nil : l ≠ []
  lt : ∀ d ∈ l, d < b
  no_leading_zero : ∀ t, l = 0 :: t → t = []

theorem value_eq_ofDigits (b : Nat) (l : List Nat) : value b l = Nat.ofDigits b l.reverse := by
  rw [Nat.ofDigits_eq_foldr, List.foldr_reverse, value]
  congr 1
  funext n d
  rw [Nat.cast_id, Nat.mul_comm, Nat.add_comm]

/-- Reading the numeral back gives the number. -/
theorem value_ofNat (b n : Nat) : value b (ofNat b n) = n := by
  unfold ofNat
  split
  · rename_i hzero
    simp [value, hzero]
  · rw [value_eq_ofDigits, List.reverse_reverse, Nat.ofDigits_digits]

theorem canonical_ofNat (hb : 1 < b) (n : Nat) : Canonical b (ofNat b n) := by
  unfold ofNat
  split
  · refine ⟨by simp, fun d hd => ?_, fun t ht => ?_⟩
    · rw [List.mem_singleton.mp hd]
      omega
    · exact (List.cons.inj ht).2.symm
  · rename_i hne
    have hdigits : Nat.digits b n ≠ [] := Nat.digits_ne_nil_iff_ne_zero.mpr hne
    refine ⟨fun hnil => hdigits (List.reverse_eq_nil_iff.mp hnil), fun d hd => ?_, fun t ht => ?_⟩
    · exact Nat.digits_lt_base hb (List.mem_reverse.mp hd)
    · -- the leading digit is the last one that the digits list
      have hlast := Nat.getLast_digit_ne_zero b hne
      have hhead : (Nat.digits b n).getLast hdigits = 0 := by
        have heq : Nat.digits b n = t.reverse ++ [0] := by
          rw [← List.reverse_reverse (Nat.digits b n), ht, List.reverse_cons]
        simp only [heq, List.getLast_concat]
      exact absurd hhead hlast

/-! ## The loop -/

section Loop

variable {α δ : Type*} (pos : α → Bool) (digit : α → δ) (next : α → α)

/-- Take the last digit off while the rest is positive, with `free` cells left to put digits in. The last
digit put there comes first. There is no result where no cell is left for a digit. -/
def loop : Nat → α → List δ → Option (List δ)
  | 0, x, buf => if pos x then none else some buf
  | free + 1, x, buf => if pos x then loop free (next x) (digit x :: buf) else some buf

variable {pos digit next} {val : α → Nat} {char : Nat → δ}

/-- **The loop writes the digits down**, if there are cells for all of them. The induction is on the cells,
of which each digit takes one. -/
theorem loop_eq (hb : 1 < b) (hpos : ∀ x, pos x = decide (0 < val x))
    (hdigit : ∀ x, 0 < val x → digit x = char (val x % b))
    (hnext : ∀ x, 0 < val x → val (next x) = val x / b) {free : Nat} {x : α} (hlt : val x < b ^ free)
    (buf : List δ) :
    loop pos digit next free x buf = some ((Nat.digits b (val x)).reverse.map char ++ buf) := by
  induction free generalizing x buf with
  | zero =>
      have hzero : val x = 0 := by
        rw [Nat.pow_zero] at hlt
        omega
      rw [loop, hpos, hzero]
      simp
  | succ free ih =>
      rw [loop, hpos]
      by_cases hx : 0 < val x
      · have hquot : val (next x) < b ^ free := by
          rw [hnext x hx]
          exact Nat.div_lt_of_lt_mul (by rwa [Nat.pow_succ, Nat.mul_comm] at hlt)
        rw [if_pos (by simpa using hx), ih hquot, hnext x hx, hdigit x hx,
          Nat.digits_def' hb hx, List.reverse_cons, List.map_append, List.map_singleton,
          List.append_assoc, List.singleton_append]
      · have hzero : val x = 0 := by omega
        rw [hzero]
        simp

end Loop

end Numeral
