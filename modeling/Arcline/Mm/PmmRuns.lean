import Arcline.Mm.Reserved

set_option autoImplicit false

/-! # The page allocator under arbitrary calls

Callers may pass anything: addresses that are not aligned or lie outside of the region, pages that are
free already, counts that reach past the end. The counter and the bitmap stay in accord, and the calls
look at the bits of managed pages only.
-/

namespace Arcline

namespace Pmm

variable {p : Pmm} {g : Nat → Bool} {i n : Nat}

/-! ## The bits beyond the bitmap -/

/-- The allocator with other bits at and beyond `PMM_MAX_PAGES`, where `pmm_bitmap` ends. A function
that gives the same result for all of them neither reads nor writes there. -/
def setBeyond (p : Pmm) (g : Nat → Bool) : Pmm :=
  { p with bitmap := fun j => if j < pmmMaxPages then p.bitmap j else g j }

theorem sameRegion_setBeyond (p : Pmm) (g : Nat → Bool) : p.SameRegion (p.setBeyond g) :=
  ⟨rfl, rfl, rfl⟩

theorem setBeyond_bitmap {j : Nat} (hj : j < pmmMaxPages) : (p.setBeyond g).bitmap j = p.bitmap j :=
  if_pos hj

theorem setBeyond_of_le {j : Nat} (hj : pmmMaxPages ≤ j) : (p.setBeyond g).bitmap j = g j :=
  if_neg (Nat.not_lt.mpr hj)

/-- Two allocators that differ in the bitmap only. -/
theorem ext_bitmap {p q : Pmm} (hregion : p.SameRegion q) (hfree : q.pagesFree = p.pagesFree)
    (hbits : ∀ j, q.bitmap j = p.bitmap j) : q = p := by
  obtain ⟨bitmap, memBase, memSize, total, free⟩ := p
  obtain ⟨bitmap', memBase', memSize', total', free'⟩ := q
  obtain ⟨hb, hs, ht⟩ := hregion
  obtain rfl : bitmap' = bitmap := funext hbits
  simp only at hb hs ht hfree
  rw [hb, hs, ht, hfree]

theorem countP_setBeyond (hin : i + n ≤ pmmMaxPages) (f : Nat → Bool → Bool) :
    (List.range' i n).countP (fun j => f j ((p.setBeyond g).bitmap j)) =
      (List.range' i n).countP fun j => f j (p.bitmap j) := by
  refine List.countP_congr fun j hj => ?_
  have hj' := List.mem_range'_1.mp hj
  rw [setBeyond_bitmap (by omega)]

theorem inRun_eq_false {j : Nat} (hin : i + n ≤ j) : inRun i n j = false := by
  simp only [inRun, decide_eq_false_iff_not]
  omega

theorem reserveLoop_setBeyond (hin : i + n ≤ pmmMaxPages) :
    reserveLoop n i (p.setBeyond g) = (reserveLoop n i p).setBeyond g := by
  rw [reserveLoop_eq, reserveLoop_eq]
  refine ext_bitmap ⟨rfl, rfl, rfl⟩ ?_ fun j => ?_
  · show p.pagesFree - _ = p.pagesFree - _
    rw [countP_setBeyond hin fun _ b => !b]
  · by_cases hj : j < pmmMaxPages
    · rw [setBeyond_bitmap hj]
      simp [setBeyond_bitmap hj]
    · have hj' := Nat.le_of_not_lt hj
      rw [setBeyond_of_le hj']
      simp [setBeyond_of_le hj', inRun_eq_false (show i + n ≤ j by omega)]

theorem reserveRange_setBeyond (hcap : p.pagesTotal ≤ pmmMaxPages) (start size : Word) :
    (p.setBeyond g).reserveRange start size = (p.reserveRange start size).setBeyond g := by
  obtain ⟨i, n, hin, hrun⟩ := p.reserveRange_run start size
  rw [hrun p (.refl p), hrun _ (sameRegion_setBeyond p g)]
  exact reserveLoop_setBeyond (by omega)

theorem reserveAll_setBeyond (hcap : p.pagesTotal ≤ pmmMaxPages) (ranges : List (Word × Word)) :
    (p.setBeyond g).reserveAll ranges = (p.reserveAll ranges).setBeyond g := by
  induction ranges generalizing p with
  | nil => rfl
  | cons r ranges ih =>
      have hgrows := grows_reserveRange p r.1 r.2
      rw [reserveAll_cons, reserveAll_cons, reserveRange_setBeyond hcap, ih (hgrows.total ▸ hcap)]

theorem findRun_setBeyond {count run start : Nat} (hin : i + n ≤ pmmMaxPages) :
    (p.setBeyond g).findRun count n i run start = p.findRun count n i run start := by
  induction n generalizing i run start with
  | zero => rfl
  | succ n ih =>
      have hbit : (p.setBeyond g).testBit i = p.testBit i := setBeyond_bitmap (by omega)
      rw [findRun, findRun, hbit, ih (by omega)]
      dsimp only
      rw [ih (by omega)]

theorem findRun_le {count st : Nat} (hpos : 0 < count)
    (h : p.findRun count p.pagesTotal 0 0 0 = some st) : st + count ≤ p.pagesTotal := by
  have hspec := findRun_spec (p := p) p.pagesTotal 0 hpos (Nat.le_refl 0) (by simp)
    (fun j _ _ => by omega) (by simp) fun st hst => by omega
  rw [h] at hspec
  have hin := hspec.2.1
  omega

theorem allocRun_setBeyond (hcap : p.pagesTotal ≤ pmmMaxPages) (count : Nat) :
    (p.setBeyond g).allocRun count = ((p.allocRun count).1, (p.allocRun count).2.setBeyond g) := by
  have hfind : (p.setBeyond g).findRun count (p.setBeyond g).pagesTotal 0 0 0 =
      p.findRun count p.pagesTotal 0 0 0 :=
    findRun_setBeyond (show 0 + p.pagesTotal ≤ pmmMaxPages by omega)
  have hfree : (p.setBeyond g).pagesFree = p.pagesFree := rfl
  unfold allocRun
  rw [hfind, hfree]
  by_cases hguard : count = 0 ∨ p.pagesFree < count
  · rw [if_pos hguard, if_pos hguard]
  rw [if_neg hguard, if_neg hguard]
  cases hrun : p.findRun count p.pagesTotal 0 0 0 with
  | none => rfl
  | some st =>
      have hin := findRun_le (show 0 < count by omega) hrun
      simp only [setBits_eq]
      refine Prod.ext rfl (ext_bitmap ⟨rfl, rfl, rfl⟩ rfl fun j => ?_)
      by_cases hj : j < pmmMaxPages
      · rw [setBeyond_bitmap hj]
        simp [setBeyond_bitmap hj]
      · have hj' := Nat.le_of_not_lt hj
        rw [setBeyond_of_le hj']
        simp [setBeyond_of_le hj', inRun_eq_false (show st + count ≤ j by omega)]

theorem freeLoop_setBeyond (hcap : p.pagesTotal ≤ pmmMaxPages) (n i : Nat) :
    freeLoop n i (p.setBeyond g) = (freeLoop n i p).setBeyond g := by
  rw [freeLoop_eq, freeLoop_eq]
  -- only managed pages count, and they lie below the end of the bitmap
  have hbit : ∀ j, ((p.setBeyond g).bitmap j && decide (j < p.pagesTotal)) =
      (p.bitmap j && decide (j < p.pagesTotal)) := by
    intro j
    by_cases hj : j < p.pagesTotal
    · rw [setBeyond_bitmap (by omega)]
    · simp [hj]
  refine ext_bitmap ⟨rfl, rfl, rfl⟩ ?_ fun j => ?_
  · show p.pagesFree + _ = p.pagesFree + _
    congr 2
    funext j
    exact hbit j
  · by_cases hj : j < pmmMaxPages
    · rw [setBeyond_bitmap hj]
      show ((p.setBeyond g).bitmap j && _) = (p.bitmap j && _)
      rw [setBeyond_bitmap hj]
      rfl
    · have hj' := Nat.le_of_not_lt hj
      have hout : decide (j < p.pagesTotal) = false := by
        rw [decide_eq_false_iff_not]
        omega
      rw [setBeyond_of_le hj']
      show ((p.setBeyond g).bitmap j && !(_ && decide (j < p.pagesTotal))) = _
      rw [setBeyond_of_le hj', hout]
      simp

theorem freePages_setBeyond (hcap : p.pagesTotal ≤ pmmMaxPages) (addr : Word) (count : Nat) :
    (p.setBeyond g).freePages addr count = (p.freePages addr count).setBeyond g := by
  unfold freePages
  show (if addr = 0 ∨ count = 0 then p.setBeyond g
    else if addr < p.memBase ∨ p.memBase + p.memSize ≤ addr then p.setBeyond g
    else if pageOffset addr ≠ 0 then p.setBeyond g
    else freeLoop count (p.addrToPage addr) (p.setBeyond g)) = _
  rw [freeLoop_setBeyond hcap]
  split
  · rfl
  · split
    · rfl
    · split
      · rfl
      · rfl

/-! ## Arbitrary calls -/

/-- A call, with what it returns (NULL for a free) and the state after it. -/
def run (p : Pmm) : PmmOp → Word × Pmm
  | .allocPages count => p.allocPages count
  | .allocPage => p.allocPage
  | .freePages addr count => (0, p.freePages addr count)
  | .freePage addr => (0, p.freePage addr)

def step (p : Pmm) (op : PmmOp) : Option Pmm := some (p.run op).2

theorem run_setBeyond (hcap : p.pagesTotal ≤ pmmMaxPages) (op : PmmOp) (g : Nat → Bool) :
    (p.setBeyond g).run op = ((p.run op).1, (p.run op).2.setBeyond g) := by
  cases op with
  | allocPages count => exact allocRun_setBeyond hcap count
  | allocPage => exact allocRun_setBeyond hcap 1
  | freePages addr count => exact congrArg (Prod.mk 0) (freePages_setBeyond hcap addr count)
  | freePage addr => exact congrArg (Prod.mk 0) (freePages_setBeyond hcap addr 1)

/-- What holds between calls, whatever the callers do. -/
structure Sound (p : Pmm) : Prop where
  region : p.Region
  counted : p.Counted
  high : ∀ j, p.pagesTotal ≤ j → p.bitmap j = true
  /-- the page at NULL is never handed out -/
  null : p.memBase = 0 → p.bitmap 0 = true

theorem Sound.allocRun (h : p.Sound) (count : Nat) : (p.allocRun count).2.Sound := by
  have hcounted := h.counted.allocRun count
  rcases p.allocRun_cases count with ⟨heq, -⟩ | ⟨st, -, -, -, -, -, heq⟩
  · rw [heq]
    exact h
  · rw [heq] at hcounted ⊢
    have hsame : p.SameRegion { p with
        bitmap := fun j => p.bitmap j || inRun st count j
        pagesFree := p.pagesFree - count } := ⟨rfl, rfl, rfl⟩
    refine ⟨hsame.region h.region, hcounted, fun j hj => ?_, fun h0 => ?_⟩
    · show (p.bitmap j || _) = true
      rw [h.high j hj, Bool.true_or]
    · show (p.bitmap 0 || _) = true
      rw [h.null h0, Bool.true_or]

/-- Where the region starts at address 0, no address that is freed gives its first page. -/
theorem addrToPage_pos {addr : Word} (hbase : p.memBase = 0) (hne : addr ≠ 0)
    (haligned : pageOffset addr = 0) : 0 < p.addrToPage addr := by
  have hmod := pageOffset_eq_zero.mp haligned
  have hpos : addr.toNat ≠ 0 := fun h0 => hne (BitVec.eq_of_toNat_eq h0)
  rw [addrToPage_eq (by rw [hbase]; exact Nat.zero_le _), hbase]
  show 0 < (addr.toNat - 0) / 4096
  omega

theorem Sound.freePages (h : p.Sound) (addr : Word) (count : Nat) :
    (p.freePages addr count).Sound := by
  have hcounted := h.counted.freePages addr count
  unfold Pmm.freePages at hcounted ⊢
  split
  · exact h
  · rename_i hnull
    split
    · exact h
    · split
      · exact h
      · rename_i hin haligned
        rw [if_neg hnull, if_neg hin, if_neg haligned] at hcounted
        have hsame : p.SameRegion (p.freeLoop count (p.addrToPage addr)) := by
          rw [freeLoop_eq]
          exact ⟨rfl, rfl, rfl⟩
        have hregion := hsame.region h.region
        rw [freeLoop_eq] at hcounted hregion ⊢
        refine ⟨hregion, hcounted, fun j hj => ?_, fun h0 => ?_⟩
        · have hout : decide (j < p.pagesTotal) = false := by
            rw [decide_eq_false_iff_not]
            exact Nat.not_lt.mpr hj
          show (p.bitmap j && !(_ && decide (j < p.pagesTotal))) = true
          rw [h.high j hj, hout]
          simp
        · have hpos : 0 < p.addrToPage addr :=
            addrToPage_pos h0 (fun e => hnull (.inl e)) (not_not.mp haligned)
          have hrun : inRun (p.addrToPage addr) count 0 = false := by
            simp only [inRun, decide_eq_false_iff_not]
            omega
          show (p.bitmap 0 && !(inRun (p.addrToPage addr) count 0 && _)) = true
          rw [h.null h0, hrun]
          simp

theorem Sound.run (h : p.Sound) (op : PmmOp) : (p.run op).2.Sound := by
  cases op with
  | allocPages count => exact h.allocRun count
  | allocPage => exact h.allocRun 1
  | freePages addr count => exact h.freePages addr count
  | freePage addr => exact h.freePages addr 1

/-- `pmm_check` finds nothing. -/
theorem Sound.check (h : p.Sound) : p.check = 0 := by
  have hcount : p.pagesFree = (List.range p.pagesTotal).countP fun j => !p.bitmap j := h.counted
  have hsplit := List.length_eq_countP_add_countP (l := List.range p.pagesTotal) (p := p.bitmap)
  rw [List.length_range] at hsplit
  have hcap : p.pagesTotal ≤ 1048576 := h.region.cap
  have hset : (List.range p.pagesTotal).countP p.testBit =
      (p.pagesTotal + 2 ^ 64 - p.pagesFree) % 2 ^ 64 := by
    have hset' : (List.range p.pagesTotal).countP p.testBit =
        (List.range p.pagesTotal).countP p.bitmap := rfl
    have hclear : (List.range p.pagesTotal).countP (fun j => decide ¬ p.bitmap j = true) =
        (List.range p.pagesTotal).countP fun j => !p.bitmap j := by
      refine List.countP_congr fun j _ => ?_
      simp
    omega
  unfold Pmm.check
  rw [hset]
  simp

/-- A run that is handed out does not start at NULL. -/
theorem Sound.allocRun_null (h : p.Sound) {count : Nat} (hnull : (p.allocRun count).1 = 0) :
    (p.allocRun count).2 = p := by
  rcases p.allocRun_cases count with ⟨heq, -⟩ | ⟨st, hpos, -, hclear, hin, -, heq⟩
  · rw [heq]
  · rw [heq] at hnull
    exact absurd hnull (h.region.pageToAddr_ne_zero h.null hpos hin hclear)

end Pmm

namespace BootEnv

open Pmm

/-- The state boot leaves. -/
theorem sound_reserveAll {env : BootEnv} {fuel : Nat} {p : Pmm}
    (h : env.pmmInitFromDtb fuel = some p) (hhigh : ∀ j, p.pagesTotal ≤ j → p.bitmap j = true) :
    p.Sound := by
  obtain ⟨hregion, hcounted, -, hlow, -⟩ := init_spec h
  refine ⟨hregion, hcounted, hhigh, fun h0 => ?_⟩
  by_cases hpos : 0 < p.pagesTotal
  · refine hlow (by rw [h0]; decide) 0 hpos ?_
    unfold Touches
    rw [h0]
    decide
  · exact hhigh 0 (by omega)

/-- **The counters of the page allocator**: with a flattened tree or none, boot has a result, and after
any calls with any arguments the free count is the number of clear bits, the bits past the last page
are set, no call touches a bit at or beyond the end of the bitmap, nothing is handed out at NULL, and
`pmm_check` finds nothing. -/
theorem pmm_counters_right {env : BootEnv} (h : env.NoTree ∨ ∃ root, env.HasTree root) :
    ∃ steps, ∀ fuel, steps ≤ fuel → ∃ base size p₀, env.managedRegion fuel = some (base, size) ∧
      env.pmmInitFromDtb fuel = some p₀ ∧
      (∀ g, ((freshPmm base size).setBeyond g).reserveAll (env.bootRanges base) =
        p₀.setBeyond g) ∧
      ∀ p, Machine.Reach Pmm.step (fun _ _ => True) p₀ p →
        p.pagesFree = p.clearBits ∧
        (∀ j, p.pagesTotal ≤ j → p.bitmap j = true) ∧
        p.pagesTotal ≤ pmmMaxPages ∧
        (∀ op g, (p.setBeyond g).run op = ((p.run op).1, (p.run op).2.setBeyond g)) ∧
        (p.memBase = 0 → p.bitmap 0 = true) ∧
        (∀ count, (p.allocPages count).1 = 0 → (p.allocPages count).2 = p) ∧
        p.check = 0 := by
  obtain ⟨steps, hinit⟩ := pmmInitFromDtb_eq h
  refine ⟨steps, fun fuel hfuel => ?_⟩
  obtain ⟨base, size, hregion, hp⟩ := hinit fuel hfuel
  have hfresh := region_of_managedRegion hregion
  have hgrows := grows_reserveAll (freshPmm base size) (env.bootRanges base)
  refine ⟨base, size, _, hregion, hp, fun g => reserveAll_setBeyond hfresh.cap _, fun p hr => ?_⟩
  have hsound : p.Sound := by
    refine hr.invariant (P := Sound) (sound_reserveAll hp fun j hj => ?_) fun p op p' hp _ hs => ?_
    · refine hgrows.bits j ?_
      have hj' : ¬ j < (freshPmm base size).pagesTotal := by
        rw [← hgrows.total]
        exact Nat.not_lt.mpr hj
      show (!decide (j < (freshPmm base size).pagesTotal)) = true
      rw [decide_eq_false hj', Bool.not_false]
    · obtain rfl : (p.run op).2 = p' := Option.some.inj hs
      exact hp.run op
  exact ⟨hsound.counted, hsound.high, hsound.region.cap, run_setBeyond hsound.region.cap,
    hsound.null, fun count => hsound.allocRun_null, hsound.check⟩

/-- A machine without a device tree. -/
theorem pmm_counters_right_noTree :
    ∃ fuel p₀, ({ oneBank 0 0 with dtbPtr := 0 } : BootEnv).pmmInitFromDtb fuel = some p₀ ∧
      ∀ p, Machine.Reach Pmm.step (fun _ _ => True) p₀ p → p.check = 0 := by
  obtain ⟨steps, h⟩ := pmm_counters_right
    (show ({ oneBank 0 0 with dtbPtr := 0 } : BootEnv).NoTree ∨ _ from .inl (.inl rfl))
  obtain ⟨base, size, p₀, -, hp₀, -, hruns⟩ := h steps (Nat.le_refl steps)
  refine ⟨steps, p₀, hp₀, fun p hp => ?_⟩
  obtain ⟨-, -, -, -, -, -, hcheck⟩ := hruns p hp
  exact hcheck

end BootEnv

end Arcline
