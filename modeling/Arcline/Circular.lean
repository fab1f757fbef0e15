import Mathlib.Data.Nat.ModEq
import Mathlib.Data.List.Range

set_option autoImplicit false

/-! # Circular arrays

An array of `n` cells that is read and written from any cell on, going on at cell 0 after the last one.
Copies between the array and other memory are plain ones inside the array; one that runs over its end
has no result.
-/

namespace Circular

variable {α : Type*} {n p k : Nat} {f f' f'' : Nat → α} {l l' : List α}

/-- The `k` cells from `p` on. -/
def slice (n : Nat) (f : Nat → α) (p k : Nat) : List α :=
  (List.range k).map fun i => f ((p + i) % n)

@[simp] theorem length_slice : (slice n f p k).length = k := by simp [slice]

theorem slice_mod (n : Nat) (f : Nat → α) (p k : Nat) : slice n f (p % n) k = slice n f p k := by
  simp only [slice, Nat.mod_add_mod]

theorem slice_add (n : Nat) (f : Nat → α) (p k j : Nat) :
    slice n f p (k + j) = slice n f p k ++ slice n f (p + k) j := by
  simp only [slice, List.range_add, List.map_append, List.map_map, Function.comp_def, Nat.add_assoc]

/-- The first cells of a slice. -/
theorem take_slice {j : Nat} (hj : j ≤ k) : (slice n f p k).take j = slice n f p j := by
  obtain ⟨i, rfl⟩ := Nat.exists_eq_add_of_le hj
  rw [slice_add, List.take_left' length_slice]

/-- At most `n` cells in a row are different ones. -/
theorem add_mod_inj {i j : Nat} (hi : i < n) (hj : j < n) (h : (p + i) % n = (p + j) % n) : i = j := by
  have hmod : i ≡ j [MOD n] := Nat.ModEq.add_left_cancel' p h
  calc i = i % n := (Nat.mod_eq_of_lt hi).symm
    _ = j % n := hmod
    _ = j := Nat.mod_eq_of_lt hj

/-! ## Plain copies -/

/-- `memcpy` of `k` cells out of the array. -/
def copyOut (n : Nat) (f : Nat → α) (p k : Nat) : Option (List α) :=
  if p + k ≤ n then some ((List.range k).map fun i => f (p + i)) else none

theorem copyOut_eq (h : p + k ≤ n) : copyOut n f p k = some (slice n f p k) := by
  rw [copyOut, if_pos h, slice]
  congr 1
  apply List.map_congr_left
  intro i hi
  have hlt := List.mem_range.mp hi
  rw [Nat.mod_eq_of_lt (by omega)]

/-- `memcpy` into the array. -/
def copyIn (n : Nat) (f : Nat → α) (p : Nat) (l : List α) : Option (Nat → α) :=
  if p + l.length ≤ n then some fun i => if p ≤ i then l[i - p]?.getD (f i) else f i else none

/-- `f'` is `f` with `l` stored from `p` on. -/
structure Stored (n : Nat) (f : Nat → α) (p : Nat) (l : List α) (f' : Nat → α) : Prop where
  inside : ∀ i (h : i < l.length), f' ((p + i) % n) = l[i]
  outside : ∀ j < n, (∀ i < l.length, (p + i) % n ≠ j) → f' j = f j

theorem exists_copyIn (h : p + l.length ≤ n) (f : Nat → α) :
    ∃ f', copyIn n f p l = some f' ∧ Stored n f p l f' := by
  refine ⟨_, if_pos h, fun i hi => ?_, fun j hj hout => ?_⟩
  · have hlt : p + i < n := by omega
    rw [Nat.mod_eq_of_lt hlt, if_pos (Nat.le_add_right p i), Nat.add_sub_cancel_left,
      List.getElem?_eq_getElem hi, Option.getD_some]
  · split
    · rename_i hle
      -- a cell of the copied part is not outside
      have hge : l.length ≤ j - p := by
        by_contra hlt
        refine hout (j - p) (by omega) ?_
        rw [Nat.add_sub_cancel' hle, Nat.mod_eq_of_lt hj]
      rw [List.getElem?_eq_none hge, Option.getD_none]
    · rfl

/-! ## Stored lists -/

theorem stored_mod : Stored n f (p % n) l f' ↔ Stored n f p l f' := by
  constructor
  · rintro ⟨hin, hout⟩
    simp only [Nat.mod_add_mod] at hin hout
    exact ⟨hin, hout⟩
  · rintro ⟨hin, hout⟩
    refine ⟨?_, ?_⟩ <;> simp only [Nat.mod_add_mod]
    · exact hin
    · exact hout

/-- Two stores, the second where the first ends, are one. -/
theorem Stored.append (h : Stored n f p l f') (h' : Stored n f' (p + l.length) l' f'')
    (hlen : l.length + l'.length ≤ n) : Stored n f p (l ++ l') f'' where
  inside i hi := by
    rw [List.length_append] at hi
    by_cases hlt : i < l.length
    · -- the second store leaves the cells of the first
      have hn : 0 < n := by omega
      rw [List.getElem_append_left hlt, ← h.inside i hlt]
      refine h'.outside _ (Nat.mod_lt _ hn) fun j hj heq => ?_
      rw [Nat.add_assoc] at heq
      have hij := add_mod_inj (by omega) (by omega) heq
      omega
    · have hinside := h'.inside (i - l.length) (by omega)
      rw [List.getElem_append_right (by omega), ← hinside]
      congr 2
      omega
  outside j hj hout := by
    have hlen' : (l ++ l').length = l.length + l'.length := List.length_append
    rw [h'.outside j hj fun i hi => ?_, h.outside j hj fun i hi => hout i (by omega)]
    rw [Nat.add_assoc]
    exact hout _ (by omega)

/-- Storing a list behind a slice appends it. -/
theorem Stored.slice_append (h : Stored n f (p + k) l f') (hlen : k + l.length ≤ n) :
    slice n f' p (k + l.length) = slice n f p k ++ l := by
  rw [slice_add]
  congr 1
  · apply List.map_congr_left
    intro i hi
    have hlt := List.mem_range.mp hi
    have hn : 0 < n := by omega
    refine h.outside _ (Nat.mod_lt _ hn) fun j hj heq => ?_
    rw [Nat.add_assoc] at heq
    have hij := add_mod_inj (by omega) (by omega) heq
    omega
  · apply List.ext_getElem length_slice
    intro i hi hi'
    simp only [slice, List.getElem_map, List.getElem_range]
    exact h.inside i hi'

end Circular
