import Mathlib.Data.List.Count
import Mathlib.Tactic.Common

set_option autoImplicit false

/-! # Tilings of an interval

A span is a start and a length. A list of spans tiles `[lo, hi)` if it covers every number of the
interval exactly once and no other number at all.
-/

namespace Tiling

/-- `a` lies in the span. -/
def covers (a : Nat) (s : Nat × Nat) : Bool := decide (s.1 ≤ a ∧ a < s.1 + s.2)

def Tiles (l : List (Nat × Nat)) (lo hi : Nat) : Prop :=
  ∀ a, l.countP (covers a) = if lo ≤ a ∧ a < hi then 1 else 0

theorem tiles_nil (lo : Nat) : Tiles [] lo lo := by
  intro a
  rw [List.countP_nil, if_neg (by omega)]

variable {l : List (Nat × Nat)} {lo hi : Nat}

theorem Tiles.perm {l' : List (Nat × Nat)} (h : Tiles l lo hi) (hp : l'.Perm l) : Tiles l' lo hi := by
  intro a
  rw [hp.countP_eq]
  exact h a

/-- Cutting a span in two. -/
theorem Tiles.split {s m n : Nat} (h : Tiles ((s, m + n) :: l) lo hi) :
    Tiles ((s, m) :: (s + m, n) :: l) lo hi := by
  intro a
  rw [← h a]
  simp only [List.countP_cons, covers, decide_eq_true_eq]
  split_ifs <;> omega

/-- A new span at the upper end. -/
theorem Tiles.extend (h : Tiles l lo hi) (hle : lo ≤ hi) (n : Nat) :
    Tiles ((hi, n) :: l) lo (hi + n) := by
  intro a
  rw [List.countP_cons, h a]
  simp only [covers, decide_eq_true_eq]
  split_ifs <;> omega

/-- Spans that are not empty lie in the interval. -/
theorem Tiles.mem_bounds {s : Nat × Nat} (h : Tiles l lo hi) (hs : s ∈ l) (hpos : 0 < s.2) :
    lo ≤ s.1 ∧ s.1 + s.2 ≤ hi := by
  have hcover : ∀ a, s.1 ≤ a → a < s.1 + s.2 → lo ≤ a ∧ a < hi := by
    intro a h1 h2
    have hcount : 0 < l.countP (covers a) :=
      List.countP_pos_iff.mpr ⟨s, hs, by simp [covers, h1, h2]⟩
    rw [h a] at hcount
    by_contra hnot
    rw [if_neg hnot] at hcount
    omega
  have hfirst := hcover s.1 (Nat.le_refl _) (by omega)
  have hlast := hcover (s.1 + s.2 - 1) (by omega) (by omega)
  omega

/-- Two spans of a tiling do not meet. -/
theorem Tiles.disjoint {s t : Nat × Nat} (h : Tiles (s :: t :: l) lo hi) (hs : 0 < s.2) (ht : 0 < t.2) :
    s.1 + s.2 ≤ t.1 ∨ t.1 + t.2 ≤ s.1 := by
  by_contra hmeet
  -- the larger of the two starts is covered twice
  have hcount := h (max s.1 t.1)
  have h1 : covers (max s.1 t.1) s = true := by simp only [covers, decide_eq_true_eq]; omega
  have h2 : covers (max s.1 t.1) t = true := by simp only [covers, decide_eq_true_eq]; omega
  rw [List.countP_cons, List.countP_cons, h1, h2] at hcount
  simp only [if_true] at hcount
  split at hcount <;> omega

end Tiling
