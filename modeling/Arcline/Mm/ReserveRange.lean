import Arcline.Mm.PmmRuns
import Arcline.Mm.Reserved

set_option autoImplicit false

/-! # What `reserve_range` marks

A range that does not wrap marks the managed pages it has an address in, and no others, and the free count
goes down by the number of pages that were free before. So reservations commute: what a list of them
leaves is the union of what they touch.
-/

namespace Arcline

namespace Pmm

variable {p : Pmm} {start size : Word} {j : Nat}

instance (p : Pmm) (j start size : Nat) : Decidable (p.Touches j start size) :=
  inferInstanceAs (Decidable (_ ∧ _ ∧ _))

theorem sameRegion_reserveRange (p : Pmm) (start size : Word) :
    p.SameRegion (p.reserveRange start size) := by
  have hgrows := grows_reserveRange p start size
  exact ⟨hgrows.base, hgrows.size, hgrows.total⟩

/-- The bitmap afterwards, inside and outside of the managed pages. -/
theorem bitmap_reserveRange (hreg : p.Region) (hwrap : start.toNat + size.toNat < 2 ^ 64) (j : Nat) :
    (p.reserveRange start size).bitmap j
      = (p.bitmap j || decide (j < p.pagesTotal ∧ p.Touches j start.toNat size.toNat)) := by
  obtain ⟨i, n, hin, heq, htouch⟩ := reserveRange_touches hreg hwrap
  rw [heq, reserveLoop_eq]
  refine congrArg (p.bitmap j || ·) ?_
  by_cases hj : j < p.pagesTotal
  · rw [Bool.eq_iff_iff, htouch j hj, decide_eq_true_eq]
    exact (and_iff_right hj).symm
  · -- the run ends below `pmm_pages_total`
    have hrun : inRun i n j = false := by
      simp only [inRun, decide_eq_false_iff_not]
      omega
    rw [hrun, eq_comm, decide_eq_false_iff_not]
    exact fun h => hj h.1

/-- The bits that differ. -/
def changed (p q : Pmm) : Nat := (List.range p.pagesTotal).countP fun j => q.bitmap j != p.bitmap j

/-- Setting bits takes those that change from the clear ones. -/
theorem clearBits_add_changed {q : Pmm} (htotal : q.pagesTotal = p.pagesTotal)
    (hset : ∀ j, p.bitmap j = true → q.bitmap j = true) :
    q.clearBits + p.changed q = p.clearBits := by
  unfold clearBits changed
  rw [htotal]
  induction List.range p.pagesTotal with
  | nil => rfl
  | cons j l ih =>
      simp only [List.countP_cons]
      have hj := hset j
      cases hp : p.bitmap j with
      | true =>
          rw [hj hp]
          simpa using ih
      | false =>
          cases q.bitmap j <;> simp <;> omega

/-- The free count goes down by the bits that change. -/
theorem pagesFree_reserveRange (hcount : p.Counted) (start size : Word) :
    (p.reserveRange start size).pagesFree + p.changed (p.reserveRange start size) = p.pagesFree := by
  have hgrows := grows_reserveRange p start size
  have hafter : (p.reserveRange start size).pagesFree = (p.reserveRange start size).clearBits :=
    hcount.reserveRange start size
  rw [hafter, clearBits_add_changed hgrows.total hgrows.bits]
  exact hcount.symm

/-! ## Lists of reservations -/

/-- No range of the list wraps. -/
def NoWrap (ranges : List (Word × Word)) : Prop := ∀ r ∈ ranges, r.1.toNat + r.2.toNat < 2 ^ 64

theorem reserveAll_spec (hreg : p.Region) (hcount : p.Counted) {ranges : List (Word × Word)}
    (hwrap : NoWrap ranges) :
    p.SameRegion (p.reserveAll ranges) ∧ (p.reserveAll ranges).Counted ∧
      ∀ j, (p.reserveAll ranges).bitmap j = true ↔
        p.bitmap j = true ∨ j < p.pagesTotal ∧ ∃ r ∈ ranges, p.Touches j r.1.toNat r.2.toNat := by
  induction ranges generalizing p with
  | nil => exact ⟨.refl p, hcount, fun j => by simp [reserveAll]⟩
  | cons r ranges ih =>
      have hsame := sameRegion_reserveRange p r.1 r.2
      have hr : r.1.toNat + r.2.toNat < 2 ^ 64 := hwrap r List.mem_cons_self
      obtain ⟨hsame', hcount', hbits⟩ := ih (hsame.region hreg) (hcount.reserveRange r.1 r.2)
        fun r' hr' => hwrap r' (List.mem_cons_of_mem _ hr')
      rw [reserveAll_cons]
      refine ⟨⟨hsame'.base.trans hsame.base, hsame'.size.trans hsame.size,
        hsame'.total.trans hsame.total⟩, hcount', fun j => ?_⟩
      -- the later ranges touch the same pages, since the region is the same
      have htouch : ∀ a b : Nat, (p.reserveRange r.1 r.2).Touches j a b ↔ p.Touches j a b := by
        intro a b
        rw [Touches, Touches, hsame.base]
      rw [hbits j, bitmap_reserveRange hreg hr, Bool.or_eq_true, decide_eq_true_eq, hsame.total]
      simp only [htouch, List.exists_mem_cons_iff]
      tauto

/-- The state that a list of reservations leaves does not depend on their order. -/
theorem reserveAll_perm (hreg : p.Region) (hcount : p.Counted) {ranges ranges' : List (Word × Word)}
    (hperm : ranges.Perm ranges') (hwrap : NoWrap ranges) : p.reserveAll ranges' = p.reserveAll ranges := by
  have hwrap' : NoWrap ranges' := fun r hr => hwrap r (hperm.mem_iff.mpr hr)
  obtain ⟨hsame, hcounted, hbits⟩ := reserveAll_spec hreg hcount hwrap
  obtain ⟨hsame', hcounted', hbits'⟩ := reserveAll_spec hreg hcount hwrap'
  have hbitmap : ∀ j, (p.reserveAll ranges').bitmap j = (p.reserveAll ranges).bitmap j := by
    intro j
    rw [Bool.eq_iff_iff, hbits j, hbits' j]
    simp only [hperm.mem_iff]
  have htotal : (p.reserveAll ranges').pagesTotal = (p.reserveAll ranges).pagesTotal :=
    hsame'.total.trans hsame.total.symm
  refine ext_bitmap ⟨hsame'.base.trans hsame.base.symm, hsame'.size.trans hsame.size.symm, htotal⟩ ?_
    hbitmap
  calc (p.reserveAll ranges').pagesFree = (p.reserveAll ranges').clearBits := hcounted'
    _ = (p.reserveAll ranges).clearBits := by rw [clearBits, clearBits, htotal, funext hbitmap]
    _ = (p.reserveAll ranges).pagesFree := hcounted.symm

/-- **`reserve_range` is exact.** A range that does not wrap sets the bits of the managed pages it has an
address in and leaves every other bit as it was, and the free count goes down by the bits that change;
several ranges leave the same state in any order. -/
theorem reserve_range_exact (hreg : p.Region) (hcount : p.Counted) (start size : Word)
    (hwrap : start.toNat + size.toNat < 2 ^ 64) :
    (∀ j, (p.reserveRange start size).bitmap j
        = (p.bitmap j || decide (j < p.pagesTotal ∧ p.Touches j start.toNat size.toNat))) ∧
      (p.reserveRange start size).pagesFree + p.changed (p.reserveRange start size) = p.pagesFree ∧
      p.SameRegion (p.reserveRange start size) ∧
      ∀ ranges ranges' : List (Word × Word), ranges.Perm ranges' → NoWrap ranges →
        p.reserveAll ranges' = p.reserveAll ranges :=
  ⟨bitmap_reserveRange hreg hwrap, pagesFree_reserveRange hcount start size,
    sameRegion_reserveRange p start size, fun _ _ hperm hno => reserveAll_perm hreg hcount hperm hno⟩

/-- Sixteen pages of which the second is in use. -/
def sixteenPages : Pmm := ⟨fun j => j = 1, 0x40000000, 0x10000, 16, 15⟩

/-- A range that starts below the region and ends in its second page. -/
theorem reserve_range_exact_below :
    (sixteenPages.reserveRange 0x3FFFF800 0x1801).bitmap 0 = true ∧
      (sixteenPages.reserveRange 0x3FFFF800 0x1801).bitmap 2 = false ∧
      (sixteenPages.reserveRange 0x3FFFF800 0x1801).pagesFree
        + sixteenPages.changed (sixteenPages.reserveRange 0x3FFFF800 0x1801) = 15 := by
  have hreg : sixteenPages.Region := ⟨by decide, by decide, by decide, by decide, by decide⟩
  have hcount : sixteenPages.Counted := by
    unfold Counted
    decide
  obtain ⟨hbits, hfree, -⟩ := reserve_range_exact hreg hcount 0x3FFFF800 0x1801 (by decide)
  rw [hbits, hbits]
  exact ⟨by decide, by decide, hfree⟩

end Pmm

/-! ## Boot on a machine with one bank of RAM -/

/-- A cell of a big-endian blob. -/
theorem be32_blobByte (cells : List (BitVec 32)) (i : Nat) :
    Fdt.be32 (blobByte cells) (4 * i) = cells.getD i 0 := by
  have hbyte : ∀ k, k < 4 →
      blobByte cells (4 * i + k) = (cells.getD i 0).extractLsb' (8 * (3 - k)) 8 := by
    intro k hk
    rw [blobByte, show (4 * i + k) / 4 = i by omega, show (4 * i + k) % 4 = k by omega]
  have h0 : blobByte cells (4 * i) = (cells.getD i 0).extractLsb' 24 8 := hbyte 0 (by omega)
  rw [Fdt.be32, h0, hbyte 1 (by omega), hbyte 2 (by omega), hbyte 3 (by omega)]
  generalize cells.getD i 0 = x
  ext j hj
  simp only [BitVec.getElem_append, BitVec.getElem_extractLsb']
  split_ifs <;> (try simp [← BitVec.getLsbD_eq_getElem]) <;> congr 1 <;> omega

/-- The allocator after boot with `n` pages of RAM at `0x40000000`: the first 1 MiB is taken, with the
kernel in it, and the page of the device tree if there is RAM at `0x48000000`. -/
def oneBankPmm (size : Word) (n : Nat) : Pmm :=
  ⟨fun j => decide (j < 256) || j == 32768 || decide (n ≤ j), 0x40000000, size, n,
    n - 256 - if 32768 < n then 1 else 0⟩

theorem counted_oneBankPmm (size : Word) {n : Nat} (h : 256 ≤ n) : (oneBankPmm size n).Counted := by
  have hbits : (oneBankPmm size n).clearBits
      = (List.range n).countP fun j => !(decide (j < 256) || j == 32768) := by
    refine List.countP_congr fun j hj => ?_
    have hj' : ¬ n ≤ j := Nat.not_le.mpr (List.mem_range.mp hj)
    simp [oneBankPmm, hj']
  -- page by page above the first 1 MiB
  have hcount : ∀ k, (List.range (256 + k)).countP (fun j => !(decide (j < 256) || j == 32768))
      = k - if 32768 < 256 + k then 1 else 0 := by
    intro k
    induction k with
    | zero =>
        refine List.countP_eq_zero.mpr fun j hj => ?_
        simp [List.mem_range.mp hj]
    | succ k ih =>
        have hlast : (!(decide (256 + k < 256) || 256 + k == 32768)) = decide (256 + k ≠ 32768) := by
          rw [decide_eq_false (show ¬ 256 + k < 256 by omega), Bool.false_or, beq_eq_decide, decide_not]
        rw [← Nat.add_assoc, List.range_succ, List.countP_append, ih, List.countP_singleton, hlast]
        split_ifs <;> simp_all <;> omega
  obtain ⟨k, rfl⟩ := Nat.exists_eq_add_of_le h
  rw [Pmm.Counted, hbits, hcount]
  show 256 + k - 256 - _ = _
  rw [Nat.add_sub_cancel_left]

namespace BootEnv

open Pmm

variable {size : Word} {n : Nat}

/-- The image, the stack and the blob, then the first 1 MiB. -/
theorem bootRanges_oneBank (size : Word) :
    (oneBank 0x40000000 size).bootRanges 0x40000000 = [(0x40080000, 0x40090000 - 0x40080000),
      (0x40090000, 0x40094000 - 0x40090000), (0x48000000, 104), (0x40000000, 0x100000)] := by
  have hsize : (Fdt.totalSize (oneBank 0x40000000 size).fdt).setWidth 64 = (104 : Word) :=
    congrArg (BitVec.setWidth 64) (be32_blobByte (memoryTree 0x40000000 size) 1)
  have hptr : (oneBank 0x40000000 size).dtbPtr ≠ 0 := show (0x48000000 : Word) ≠ 0 by decide
  rw [bootRanges, if_neg hptr, hsize]
  rfl

/-- `pmm_init_from_dtb` on such a machine. -/
theorem init_oneBank (size : Word) (n : Nat)
    (hregion : (oneBank 0x40000000 size).managedRegion 20 = some (0x40000000, size))
    (hwalk : ∀ p, (oneBank 0x40000000 size).reserveReservedMemory 20 p = some p)
    (hsize : size.toNat = 4096 * n) (hmin : 256 ≤ n) (hmax : n ≤ pmmMaxPages) :
    (oneBank 0x40000000 size).pmmInitFromDtb 20 = some (oneBankPmm size n) := by
  have hinit : (oneBank 0x40000000 size).pmmInitFromDtb 20
      = some ((freshPmm 0x40000000 size).reserveAll
        ((oneBank 0x40000000 size).bootRanges 0x40000000)) := by
    rw [pmmInitFromDtb, hregion, Option.bind_some]
    dsimp only
    rw [hwalk, Option.map_some, reserveLow_eq hregion]
  rw [hinit, bootRanges_oneBank]
  generalize hranges : [((0x40080000 : Word), (0x40090000 - 0x40080000 : Word)),
    (0x40090000, 0x40094000 - 0x40090000), (0x48000000, 104), (0x40000000, 0x100000)] = ranges
  have hwrap : Pmm.NoWrap ranges := by
    rw [← hranges]
    simp only [Pmm.NoWrap, List.mem_cons, List.not_mem_nil, or_false, forall_eq_or_imp, forall_eq]
    decide
  have htotal : (freshPmm 0x40000000 size).pagesTotal = n := by
    show min (size / pageSize).toNat pmmMaxPages = n
    rw [BitVec.toNat_udiv, hsize, pageSize_toNat, Nat.mul_div_cancel_left n (by decide),
      Nat.min_eq_left hmax]
  have hfresh : ∀ j, (freshPmm 0x40000000 size).bitmap j = true ↔ n ≤ j := by
    intro j
    show (!decide (j < (freshPmm 0x40000000 size).pagesTotal)) = true ↔ _
    rw [Bool.not_eq_true', decide_eq_false_iff_not, Nat.not_lt, htotal]
  have htouch : ∀ j, (∃ r ∈ ranges, (freshPmm 0x40000000 size).Touches j r.1.toNat r.2.toNat) ↔
      j < 256 ∨ j = 32768 := by
    intro j
    have hbase : (freshPmm 0x40000000 size).memBase = 0x40000000 := rfl
    simp only [← hranges, List.exists_mem_cons_iff, List.not_mem_nil, false_and, exists_false, or_false,
      Touches, hbase]
    simp
    omega
  obtain ⟨hsame, hcounted, hbits⟩ := reserveAll_spec (region_of_managedRegion hregion)
    (counted_freshPmm 0x40000000 size) hwrap
  have hbitmap : ∀ j, ((freshPmm 0x40000000 size).reserveAll ranges).bitmap j
      = (oneBankPmm size n).bitmap j := by
    intro j
    rw [Bool.eq_iff_iff, hbits j, htotal, hfresh, htouch]
    simp [oneBankPmm]
    omega
  refine congrArg some (ext_bitmap ⟨hsame.base, hsame.size, hsame.total.trans htotal⟩ ?_ hbitmap)
  calc ((freshPmm 0x40000000 size).reserveAll ranges).pagesFree
      = ((freshPmm 0x40000000 size).reserveAll ranges).clearBits := hcounted
    _ = (oneBankPmm size n).clearBits := by
        rw [clearBits, clearBits, hsame.total, htotal, funext hbitmap]
        rfl
    _ = (oneBankPmm size n).pagesFree := (counted_oneBankPmm size hmin).symm

end BootEnv

end Arcline
