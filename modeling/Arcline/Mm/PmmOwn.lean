import Arcline.Mm.PmmInit
import Arcline.Run

set_option autoImplicit false

/-! # Who owns which page

After `pmm_init_from_dtb`, the pages handed out and not yet returned are pairwise different, managed,
and none of them belongs to the kernel image, the boot stack, the device tree or the first 1 MiB,
as long as the ranges reserved at boot do not wrap around `2^64`: `reserve_range` takes a range
whose end wraps for one that lies below the region.
-/

namespace Arcline

namespace Pmm

/-! ## Reserving at boot -/

/-- `p'` is `p` with more pages in use: the same region, no bit cleared, and a free count that is
right if it was. -/
structure Grows (p p' : Pmm) : Prop where
  base : p'.memBase = p.memBase
  size : p'.memSize = p.memSize
  total : p'.pagesTotal = p.pagesTotal
  bits : ∀ j, p.bitmap j = true → p'.bitmap j = true
  counted : p.Counted → p'.Counted

theorem Grows.refl (p : Pmm) : p.Grows p := ⟨rfl, rfl, rfl, fun _ h => h, fun h => h⟩

variable {p p' : Pmm}

theorem Grows.trans {q r : Pmm} (h : p.Grows q) (h' : q.Grows r) : p.Grows r :=
  ⟨h'.base.trans h.base, h'.size.trans h.size, h'.total.trans h.total,
    fun j hj => h'.bits j (h.bits j hj), fun hc => h'.counted (h.counted hc)⟩

theorem grows_reserveRange (p : Pmm) (start size : Word) : p.Grows (p.reserveRange start size) := by
  have hc := fun h : p.Counted => h.reserveRange start size
  obtain ⟨i, n, -, heq⟩ := p.reserveRange_run start size
  rw [heq p (.refl p)] at hc ⊢
  rw [reserveLoop_eq] at hc ⊢
  exact ⟨rfl, rfl, rfl, fun j hj => by simp [hj], hc⟩

theorem grows_allocPage (p : Pmm) : p.Grows p.allocPage.2 := by
  have hcounted := fun h : p.Counted => h.allocRun 1
  unfold allocPage
  rcases p.allocRun_cases 1 with ⟨heq, -⟩ | ⟨st, -, -, -, -, -, heq⟩
  · rw [heq]
    exact .refl p
  · rw [heq] at hcounted ⊢
    exact ⟨rfl, rfl, rfl, fun j hj => by simp [hj], hcounted⟩

theorem Grows.pageToAddr (h : p.Grows p') (j : Nat) : p'.pageToAddr j = p.pageToAddr j := by
  rw [Pmm.pageToAddr, Pmm.pageToAddr, h.base]

/-- `pmm_alloc_page` answers NULL and takes nothing, or takes one free page. -/
theorem allocPage_cases (p : Pmm) :
    p.allocPage = (0, p) ∨ ∃ j < p.pagesTotal, p.bitmap j = false ∧
      p.allocPage.1 = p.pageToAddr j ∧ p.allocPage.2.bitmap = Function.update p.bitmap j true := by
  unfold allocPage
  rcases p.allocRun_cases 1 with ⟨heq, -⟩ | ⟨j, -, -, hclear, hj, -, heq⟩
  · exact .inl heq
  · refine .inr ⟨j, by omega, hclear j (Nat.le_refl j) (by omega), by rw [heq], ?_⟩
    rw [heq]
    funext k
    rw [Function.update_apply]
    by_cases hk : k = j
    · simp [hk, inRun]
    · have hrun : inRun j 1 k = false := by
        simp only [inRun, decide_eq_false_iff_not]
        omega
      simp [hk, hrun]

/-- The page at address 0 is free: it is given before any other, and taken for NULL. -/
def NullFree (p : Pmm) : Prop := p.memBase = 0 ∧ p.bitmap 0 = false

/-- There are not `n` pages to give: too few by the free count or by the bitmap, or the first of them is
the one at address 0. -/
def Short (p : Pmm) (n : Nat) : Prop := 0 < n ∧ (p.pagesFree < n ∨ p.clearBits < n ∨ p.NullFree)

/-- `pmm_alloc_page` answers NULL only if there is no page to give. -/
theorem short_of_allocPage (hbound : p.memBase.toNat + 4096 * p.pagesTotal ≤ 2 ^ 64)
    (h : p.allocPage = (0, p')) : p.Short 1 := by
  refine ⟨Nat.one_pos, ?_⟩
  rw [allocPage] at h
  rcases p.allocRun_cases 1 with ⟨-, hzero | hfree | hnone⟩ | ⟨j, -, -, hclear, hj, -, heq⟩
  · exact absurd hzero (by simp)
  · exact .inl hfree
  · refine .inr (.inl ?_)
    by_contra hclear
    obtain ⟨st, hst, hc⟩ := exists_clear (p := p) (by omega)
    exact hnone st hst hc
  · -- the page given is at address 0
    have haddr := pageToAddr_toNat hbound (show j < p.pagesTotal by omega)
    rw [h] at heq
    rw [← (Prod.mk.inj heq).1, show (0 : Word).toNat = 0 from rfl] at haddr
    obtain rfl : j = 0 := by omega
    exact .inr (.inr ⟨BitVec.eq_of_toNat_eq (by rw [show (0 : Word).toNat = 0 from rfl]; omega),
      hclear 0 (Nat.le_refl 0) Nat.one_pos⟩)

/-- A page that is given is one less by the free count and by the bitmap. -/
theorem allocPage_given {a : Word} (h : p.allocPage = (a, p')) (hne : a ≠ 0) :
    p'.pagesFree + 1 = p.pagesFree ∧ p'.clearBits + 1 = p.clearBits ∧ ¬ p.NullFree := by
  rw [allocPage] at h
  rcases p.allocRun_cases 1 with ⟨heq, -⟩ | ⟨j, -, hfree, hclear, hj, hfirst, heq⟩
  · rw [h] at heq
    exact absurd (Prod.mk.inj heq).1 hne
  · obtain ⟨rfl, rfl⟩ := Prod.mk.inj (h.symm.trans heq)
    refine ⟨by dsimp only; omega, hclear.clearBits_take hj, fun hnull => ?_⟩
    have hj0 : j ≠ 0 := by
      rintro rfl
      exact hne (by rw [pageToAddr, hnull.1]; rfl)
    refine hfirst 0 (by omega) fun k _ hk => ?_
    rw [show k = 0 by omega]
    exact hnull.2

/-- `pmm_free_page` of a page that is in use. -/
theorem freePage_used (hr : p.Region) {j : Nat} (hj : j < p.pagesTotal) (hne : p.pageToAddr j ≠ 0)
    (hbit : p.bitmap j = true) :
    p.freePage (p.pageToAddr j) = { p with
      bitmap := Function.update p.bitmap j false
      pagesFree := p.pagesFree + 1 } := by
  have haddr := hr.pageToAddr hj
  have hbase := hr.base
  have htotal := hr.total
  have hend := BitVec.toNat_add_of_lt hr.bound
  have hin : ¬ (p.pageToAddr j < p.memBase ∨ p.memBase + p.memSize ≤ p.pageToAddr j) := by
    rw [BitVec.lt_def, BitVec.le_def, hend, haddr]
    omega
  have hoff : pageOffset (p.pageToAddr j) = 0 := by
    rw [pageOffset_eq_zero, haddr]
    omega
  rw [freePage, freePages, if_neg (fun hc => hc.elim hne (by decide)), if_neg hin,
    if_neg (not_not.mpr hoff), hr.addrToPage_pageToAddr hj, freeLoop_eq]
  congr 1
  · funext k
    by_cases hk : k = j
    · rw [hk, Function.update_self]
      simp [inRun, hj]
    · have hrun : inRun j 1 k = false := by
        simp only [inRun, decide_eq_false_iff_not]
        omega
      simp [Function.update_of_ne hk, hrun]
  · simp [hbit, hj]

theorem Grows.region (h : p.Grows p') : p.Region → p'.Region :=
  SameRegion.region ⟨h.base, h.size, h.total⟩

theorem Grows.touches (h : p.Grows p') (j start size : Nat) :
    p'.Touches j start size ↔ p.Touches j start size := by
  rw [Touches, Touches, h.base]

/-- A range that does not wrap is in use after its reservation. -/
theorem bit_of_reserveRange (hreg : p.Region) {start size : Word}
    (hwrap : start.toNat + size.toNat < 2 ^ 64) {j : Nat} (hj : j < p.pagesTotal)
    (ht : p.Touches j start.toNat size.toNat) : (p.reserveRange start size).bitmap j = true := by
  obtain ⟨i, n, -, heq, hiff⟩ := reserveRange_touches hreg hwrap
  rw [heq, reserveLoop_eq]
  simp [(hiff j hj).mpr ht]

end Pmm

namespace BootEnv

open Pmm

theorem counted_freshPmm (base size : Word) : (freshPmm base size).Counted := by
  unfold Counted clearBits freshPmm
  have : ∀ j ∈ List.range (min (size / pageSize).toNat pmmMaxPages),
      (!(!decide (j < min (size / pageSize).toNat pmmMaxPages))) = true := by
    intro j hj
    simpa using List.mem_range.mp hj
  rw [List.countP_eq_length.mpr this, List.length_range]

/-- What `pmm_init_from_dtb` accepts is a region of whole pages that does not wrap. -/
theorem region_of_managedRegion {env : BootEnv} {fuel : Nat} {r : Word × Word}
    (h : env.managedRegion fuel = some r) : (freshPmm r.1 r.2).Region := by
  have hpages : ∀ b s : Word, b.toNat % 4096 = 0 → s.toNat % 4096 = 0 →
      b.toNat + s.toNat < 2 ^ 64 → (freshPmm b s).Region := by
    intro b s hb hs hbs
    refine ⟨hb, hs, hbs, ?_, Nat.min_le_right ..⟩
    show min (s / pageSize).toNat pmmMaxPages * 4096 ≤ s.toNat
    rw [BitVec.toNat_udiv, pageSize_toNat]
    omega
  unfold managedRegion at h
  rw [Option.map_eq_some_iff] at h
  obtain ⟨found, -, h⟩ := h
  generalize orFallback (found.map Prod.snd) = q at h
  rw [wholePages] at h
  split at h
  · subst h
    exact hpages _ _ rfl rfl (by decide)
  · rename_i hlt
    subst h
    have hup : (pageUp q.1).toNat % 4096 = 0 := by
      rw [pageUp, pageDown_toNat]
      omega
    have hdown := pageDown_toNat (q.1 + q.2)
    rw [BitVec.not_le, BitVec.lt_def] at hlt
    have hsub := BitVec.toNat_sub_of_le (BitVec.le_def.mpr (Nat.le_of_lt hlt))
    refine hpages _ _ hup ?_ ?_
    · show (pageDown (q.1 + q.2) - pageUp q.1).toNat % 4096 = 0
      omega
    · show (pageUp q.1).toNat + (pageDown (q.1 + q.2) - pageUp q.1).toNat < 2 ^ 64
      have := (pageDown (q.1 + q.2)).isLt
      omega

/-- The ranges that must never be handed out, as pages of the region of `p`: the kernel image, the
boot stack, the device tree blob and the first 1 MiB. -/
def Protected (env : BootEnv) (p : Pmm) (j : Nat) : Prop :=
  p.Touches j env.image.kernelStart.toNat (env.image.kernelEnd - env.image.kernelStart).toNat ∨
  p.Touches j env.image.stackBottom.toNat (env.image.stackTop - env.image.stackBottom).toNat ∨
  (env.dtbPtr ≠ 0 ∧ p.Touches j env.dtbPtr.toNat (Fdt.totalSize env.fdt).toNat) ∨
  p.Touches j p.memBase.toNat 0x100000

theorem protected_congr {env : BootEnv} {p p' : Pmm} (h : p'.memBase = p.memBase) (j : Nat) :
    env.Protected p' j ↔ env.Protected p j := by
  simp only [Protected, Touches, h]

/-- The ranges reserved at boot end below `2^64`. -/
structure NoWrap (env : BootEnv) (base : Word) : Prop where
  low : base.toNat + 0x100000 < 2 ^ 64
  dtb : env.dtbPtr.toNat + (Fdt.totalSize env.fdt).toNat < 2 ^ 64

/-! The stages of `pmm_init_from_dtb`: each only marks pages, and marks those of its range. -/

section Stages

variable (env : BootEnv) (p : Pmm)

theorem grows_reserveImage : p.Grows (env.reserveImage p) :=
  (grows_reserveRange p _ _).trans (grows_reserveRange _ _ _)

theorem grows_reserveDtbBlob : p.Grows (env.reserveDtbBlob p) := by
  unfold reserveDtbBlob
  split
  · exact .refl p
  · exact grows_reserveRange ..

theorem grows_reserveUart : p.Grows (env.reserveUart p) := by
  unfold reserveUart
  split
  · exact .refl p
  · split
    · exact .refl p
    · exact grows_reserveRange ..

theorem grows_reserveLow : p.Grows (reserveLow p) := by
  unfold reserveLow
  split
  · exact grows_reserveRange ..
  · exact .refl p

variable {env p}

theorem grows_reserveReservedMemory {fuel : Nat} {p' : Pmm}
    (h : env.reserveReservedMemory fuel p = some p') : p.Grows p' := by
  unfold reserveReservedMemory at h
  split at h
  · exact Option.some.inj h ▸ .refl p
  · exact Fdt.reservedMemory_eq h ▸ .refl p

variable {j : Nat} (hreg : p.Region) (hj : j < p.pagesTotal)
include hreg hj

/-- The ranges of the image are given by their ends, so they do not wrap. -/
theorem bit_of_reserveImage
    (ht : p.Touches j env.image.kernelStart.toNat
        (env.image.kernelEnd - env.image.kernelStart).toNat ∨
      p.Touches j env.image.stackBottom.toNat
        (env.image.stackTop - env.image.stackBottom).toNat) :
    (env.reserveImage p).bitmap j = true := by
  have hends : ∀ a b : Word, a ≤ b → a.toNat + (b - a).toNat < 2 ^ 64 := by
    intro a b hab
    rw [BitVec.toNat_sub_of_le hab]
    have := b.isLt
    rw [BitVec.le_def] at hab
    omega
  have hkernel := grows_reserveRange p env.image.kernelStart
    (env.image.kernelEnd - env.image.kernelStart)
  rcases ht with ht | ht
  · exact (grows_reserveRange _ _ _).bits j
      (bit_of_reserveRange hreg (hends _ _ env.image.kernel_le) hj ht)
  · exact bit_of_reserveRange (hkernel.region hreg) (hends _ _ env.image.stack_le)
      (hkernel.total ▸ hj) ((hkernel.touches ..).mpr ht)

theorem bit_of_reserveDtbBlob (hptr : env.dtbPtr ≠ 0)
    (hwrap : env.dtbPtr.toNat + (Fdt.totalSize env.fdt).toNat < 2 ^ 64)
    (ht : p.Touches j env.dtbPtr.toNat (Fdt.totalSize env.fdt).toNat) :
    (env.reserveDtbBlob p).bitmap j = true := by
  have hsize : ((Fdt.totalSize env.fdt).setWidth 64).toNat = (Fdt.totalSize env.fdt).toNat := by
    rw [BitVec.toNat_setWidth]
    have := (Fdt.totalSize env.fdt).isLt
    omega
  rw [reserveDtbBlob, if_neg hptr]
  exact bit_of_reserveRange hreg (by rw [hsize]; exact hwrap) hj (by rw [hsize]; exact ht)

theorem bit_of_reserveLow (hwrap : p.memBase.toNat + 0x100000 < 2 ^ 64)
    (ht : p.Touches j p.memBase.toNat 0x100000) : (reserveLow p).bitmap j = true := by
  have hpos : p.memBase < p.memBase + p.memSize := by
    rw [BitVec.lt_def, BitVec.toNat_add_of_lt hreg.bound]
    have := hreg.total
    omega
  rw [reserveLow, if_pos hpos]
  exact bit_of_reserveRange hreg hwrap hj ht

end Stages

/-- The state `pmm_init_from_dtb` leaves: a proper region with a right free count, in which the first
1 MiB and every protected page are in use unless their ranges wrap. -/
theorem init_spec {env : BootEnv} {fuel : Nat} {p : Pmm}
    (h : env.pmmInitFromDtb fuel = some p) :
    p.Region ∧ p.Counted ∧ (∃ size, env.managedRegion fuel = some (p.memBase, size)) ∧
      (p.memBase.toNat + 0x100000 < 2 ^ 64 →
        ∀ j < p.pagesTotal, p.Touches j p.memBase.toNat 0x100000 → p.bitmap j = true) ∧
      (env.NoWrap p.memBase → ∀ j < p.pagesTotal, env.Protected p j → p.bitmap j = true) := by
  unfold pmmInitFromDtb at h
  rw [Option.bind_eq_some_iff] at h
  obtain ⟨r, hr, h⟩ := h
  rw [Option.map_eq_some_iff] at h
  obtain ⟨q, hq, rfl⟩ := h
  have hreg := region_of_managedRegion hr
  have gimage := env.grows_reserveImage (freshPmm r.1 r.2)
  have gblob := env.grows_reserveDtbBlob (env.reserveImage (freshPmm r.1 r.2))
  have guart := (grows_reserveReservedMemory hq).trans (env.grows_reserveUart q)
  have glow := grows_reserveLow (env.reserveUart q)
  have gall := (gimage.trans gblob).trans (guart.trans glow)
  have hlow : (reserveLow (env.reserveUart q)).memBase.toNat + 0x100000 < 2 ^ 64 →
      ∀ j < (reserveLow (env.reserveUart q)).pagesTotal,
        (reserveLow (env.reserveUart q)).Touches j
          (reserveLow (env.reserveUart q)).memBase.toNat 0x100000 →
        (reserveLow (env.reserveUart q)).bitmap j = true := by
    intro hwrap j hj ht
    rw [glow.touches, glow.base] at ht
    rw [glow.base] at hwrap
    exact bit_of_reserveLow (((gimage.trans gblob).trans guart).region hreg) (glow.total ▸ hj)
      hwrap ht
  refine ⟨gall.region hreg, gall.counted (counted_freshPmm ..), ⟨r.2, ?_⟩, hlow,
    fun hno j hj hprot => ?_⟩
  · rw [hr, gall.base]
    rfl
  · have hj0 : j < (freshPmm r.1 r.2).pagesTotal := gall.total ▸ hj
    have himage : (env.reserveImage (freshPmm r.1 r.2)).bitmap j = true →
        (reserveLow (env.reserveUart q)).bitmap j = true :=
      (gblob.trans (guart.trans glow)).bits j
    rcases (protected_congr gall.base j).mp hprot with ht | ht | ⟨hptr, ht⟩ | ht
    · exact himage (bit_of_reserveImage hreg hj0 (.inl ht))
    · exact himage (bit_of_reserveImage hreg hj0 (.inr ht))
    · exact (guart.trans glow).bits j
        (bit_of_reserveDtbBlob (gimage.region hreg) (gimage.total ▸ hj0) hptr hno.dtb
          ((gimage.touches ..).mpr ht))
    · refine hlow hno.low j hj ?_
      rw [gall.touches, gall.base]
      exact ht

end BootEnv

/-! ## Runs of allocations and frees -/

inductive PmmOp
  | allocPages (count : Nat)
  | allocPage
  | freePages (addr : Word) (count : Nat)
  | freePage (addr : Word)

/-- The allocator and the page numbers of the live allocations, one list for each. -/
structure PmmState where
  pmm : Pmm
  live : List (List Nat)

namespace PmmState

/-- All pages in use by callers. -/
def owned (s : PmmState) : List Nat := s.live.flatten

/-- A caller gets the pages from the returned address on, unless it is NULL. -/
def alloc (s : PmmState) (count : Nat) : PmmState :=
  let (addr, pmm) := s.pmm.allocPages count
  if addr = 0 then { s with pmm := pmm }
  else ⟨pmm, s.live ++ [List.range' (pmm.addrToPage addr) count]⟩

/-- A caller gives up `count` pages from `addr` on. -/
def free (s : PmmState) (addr : Word) (count : Nat) : PmmState :=
  ⟨s.pmm.freePages addr count,
    s.live.map fun pages => pages.filter fun j => !Pmm.inRun (s.pmm.addrToPage addr) count j⟩

def step (s : PmmState) : PmmOp → Option PmmState
  | .allocPages count => some (s.alloc count)
  | .allocPage => some (s.alloc 1)
  | .freePages addr count => some (s.free addr count)
  | .freePage addr => some (s.free addr 1)

/-- The `count` pages from `addr` on are owned. -/
def OwnsRange (s : PmmState) (addr : Word) (count : Nat) : Prop :=
  ∃ first, addr = s.pmm.pageToAddr first ∧ ∀ k < count, first + k ∈ s.owned

/-- Callers free only page ranges they own. -/
def Owns (s : PmmState) : PmmOp → Prop
  | .freePages addr count => s.OwnsRange addr count
  | .freePage addr => s.OwnsRange addr 1
  | _ => True

/-- What holds between calls, for a set `prot` of pages that are never to be handed out. -/
structure Inv (prot : Nat → Prop) (s : PmmState) : Prop where
  region : s.pmm.Region
  counted : s.pmm.Counted
  nodup : s.owned.Nodup
  used : ∀ j ∈ s.owned, j < s.pmm.pagesTotal ∧ s.pmm.bitmap j = true ∧ ¬ prot j
  kept : ∀ j < s.pmm.pagesTotal, prot j → s.pmm.bitmap j = true

variable {prot : Nat → Prop} {s : PmmState}

/-- Only what `prot` says about pages of the region matters. -/
theorem Inv.congr {prot' : Nat → Prop} (h : s.Inv prot)
    (hprot : ∀ j < s.pmm.pagesTotal, prot' j ↔ prot j) : s.Inv prot' where
  region := h.region
  counted := h.counted
  nodup := h.nodup
  used j hj := by
    obtain ⟨h1, h2, h3⟩ := h.used j hj
    exact ⟨h1, h2, fun hp => h3 ((hprot j h1).mp hp)⟩
  kept j hj hp := h.kept j hj ((hprot j hj).mp hp)

/-- A page taken by the kernel for itself is a page that no caller owns; it becomes one that is
never to be handed out. Without a free page nothing changes. -/
theorem Inv.take (h : s.Inv prot) :
    (s.pmm.allocPage = (0, s.pmm) ∧ s.pmm.pagesFree = 0) ∨
      ∃ j p', s.pmm.allocPage = (s.pmm.pageToAddr j, p') ∧ j < s.pmm.pagesTotal ∧
        s.pmm.bitmap j = false ∧ ¬ prot j ∧ p'.memBase = s.pmm.memBase ∧
        p'.pagesTotal = s.pmm.pagesTotal ∧ p'.pagesFree + 1 = s.pmm.pagesFree ∧
        PmmState.Inv (fun k => prot k ∨ k = j) ⟨p', s.live⟩ := by
  have hcounted := h.counted.allocRun 1
  rw [Pmm.allocPage]
  rcases s.pmm.allocRun_cases 1 with ⟨heq, hwhy⟩ | ⟨j, -, hfree, hclear, hj, -, heq⟩
  · refine .inl ⟨heq, ?_⟩
    by_contra hne
    obtain ⟨st, hst, hc⟩ := Pmm.exists_clear (h.counted ▸ Nat.pos_of_ne_zero hne)
    rcases hwhy with hwhy | hwhy | hwhy
    · omega
    · omega
    · exact hwhy st hst hc
  · have hbit : s.pmm.bitmap j = false := hclear j (Nat.le_refl j) (by omega)
    rw [heq] at hcounted
    refine .inr ⟨j, _, heq, by omega, hbit, fun hp => ?_, rfl, rfl, ?_, ?_⟩
    · rw [h.kept j (by omega) hp] at hbit
      exact absurd hbit (by simp)
    · show s.pmm.pagesFree - 1 + 1 = s.pmm.pagesFree
      omega
    · refine ⟨⟨h.region.base, h.region.size, h.region.bound, h.region.total, h.region.cap⟩,
        hcounted, h.nodup, fun k hk => ?_, fun k hk hp => ?_⟩
      · obtain ⟨h1, h2, h3⟩ := h.used k hk
        refine ⟨h1, by simp [h2], ?_⟩
        rintro (hp | rfl)
        · exact h3 hp
        · rw [hbit] at h2
          exact absurd h2 (by simp)
      · rcases hp with hp | rfl
        · simp [h.kept k hk hp]
        · simp [Pmm.inRun]

variable {j count : Nat} {addr : Word}

/-- The page taken may be given to a caller. -/
theorem Inv.give {p : Pmm} {live : List (List Nat)}
    (h : PmmState.Inv (fun k => prot k ∨ k = j) ⟨p, live⟩) (hj : j < p.pagesTotal) (hprot : ¬ prot j) :
    PmmState.Inv prot ⟨p, [j] :: live⟩ where
  region := h.region
  counted := h.counted
  nodup := List.nodup_cons.mpr ⟨fun hc => (h.used j hc).2.2 (.inr rfl), h.nodup⟩
  used k hk := by
    rcases List.mem_cons.mp hk with rfl | hk
    · exact ⟨hj, h.kept k hj (.inr rfl), hprot⟩
    · obtain ⟨h1, h2, h3⟩ := h.used k hk
      exact ⟨h1, h2, fun hp => h3 (.inl hp)⟩
  kept k hk hp := h.kept k hk (.inl hp)

/-- A caller gives back a page. -/
theorem Inv.giveBack {p : Pmm} {live : List (List Nat)} (h : PmmState.Inv prot ⟨p, [j] :: live⟩)
    (hne : p.pageToAddr j ≠ 0) : PmmState.Inv prot ⟨p.freePage (p.pageToAddr j), live⟩ := by
  obtain ⟨hj, hbit, hprot⟩ := h.used j List.mem_cons_self
  have hnodup := List.nodup_cons.mp h.nodup
  have hcounted := h.counted.freePages (p.pageToAddr j) 1
  have heq := Pmm.freePage_used h.region hj hne hbit
  rw [show p.freePages (p.pageToAddr j) 1 = p.freePage (p.pageToAddr j) from rfl] at hcounted
  rw [heq] at hcounted ⊢
  refine ⟨⟨h.region.base, h.region.size, h.region.bound, h.region.total, h.region.cap⟩, hcounted,
    hnodup.2, fun k hk => ?_, fun k hk hp => ?_⟩
  · obtain ⟨h1, h2, h3⟩ := h.used k (List.mem_cons_of_mem j hk)
    have hkj : k ≠ j := fun e => hnodup.1 (e ▸ hk)
    exact ⟨h1, (Function.update_of_ne hkj _ _).trans h2, h3⟩
  · have hkj : k ≠ j := fun e => hprot (e ▸ hp)
    exact (Function.update_of_ne hkj _ _).trans (h.kept k hk hp)

theorem Inv.alloc (h : s.Inv prot) (count : Nat) :
    (s.alloc count).Inv prot ∧ (s.alloc count).pmm.memBase = s.pmm.memBase ∧
      (s.alloc count).pmm.pagesTotal = s.pmm.pagesTotal := by
  have hcounted := h.counted.allocRun count
  unfold PmmState.alloc Pmm.allocPages
  rcases s.pmm.allocRun_cases count with ⟨heq, -⟩ | ⟨st, -, -, hclear, hin, -, heq⟩
  · rw [heq]
    exact ⟨⟨h.region, h.counted, h.nodup, h.used, h.kept⟩, rfl, rfl⟩
  rw [heq] at hcounted ⊢
  set p' : Pmm := { s.pmm with
    bitmap := fun j => s.pmm.bitmap j || Pmm.inRun st count j
    pagesFree := s.pmm.pagesFree - count } with hp'
  have hregion : p'.Region := ⟨h.region.base, h.region.size, h.region.bound, h.region.total,
    h.region.cap⟩
  have hused : ∀ j ∈ s.owned, j < p'.pagesTotal ∧ p'.bitmap j = true ∧ ¬ prot j := by
    intro j hj
    obtain ⟨h1, h2, h3⟩ := h.used j hj
    exact ⟨h1, by simp [hp', h2], h3⟩
  have hkept : ∀ j < p'.pagesTotal, prot j → p'.bitmap j = true := by
    intro j hj hp
    simp [hp', h.kept j hj hp]
  dsimp only
  split
  · exact ⟨⟨hregion, hcounted, h.nodup, hused, hkept⟩, rfl, rfl⟩
  · rename_i hne
    -- the new pages were free, so no caller had them and they are not protected
    have hpage : ∀ j ∈ List.range' (p'.addrToPage (s.pmm.pageToAddr st)) count,
        j < s.pmm.pagesTotal ∧ s.pmm.bitmap j = false ∧ Pmm.inRun st count j = true := by
      intro j hj
      have hcount : 0 < count := by
        have := List.mem_range'_1.mp hj
        omega
      have hst : p'.addrToPage (s.pmm.pageToAddr st) = st :=
        h.region.addrToPage_pageToAddr (by omega)
      rw [hst] at hj
      have := List.mem_range'_1.mp hj
      exact ⟨by omega, hclear j (by omega) (by omega), Pmm.inRun_of_mem hj⟩
    have howned : ∀ j, j ∈ (⟨p', s.live ++
        [List.range' (p'.addrToPage (s.pmm.pageToAddr st)) count]⟩ : PmmState).owned ↔
        j ∈ s.owned ∨ j ∈ List.range' (p'.addrToPage (s.pmm.pageToAddr st)) count := by
      intro j
      simp [owned]
    refine ⟨⟨hregion, hcounted, ?_, fun j hj => ?_, hkept⟩, rfl, rfl⟩
    · have hflat : (⟨p', s.live ++ [List.range' (p'.addrToPage (s.pmm.pageToAddr st)) count]⟩ :
          PmmState).owned = s.owned ++
            List.range' (p'.addrToPage (s.pmm.pageToAddr st)) count := by simp [owned]
      rw [hflat, List.nodup_append]
      refine ⟨h.nodup, List.nodup_range', fun a ha b hb hab => ?_⟩
      have h1 := (h.used a ha).2.1
      rw [hab, (hpage b hb).2.1] at h1
      exact absurd h1 (by simp)
    · rcases (howned j).mp hj with hj | hj
      · exact hused j hj
      · obtain ⟨h1, h2, h3⟩ := hpage j hj
        refine ⟨h1, by simp [hp', h3], fun hp => ?_⟩
        rw [h.kept j h1 hp] at h2
        exact absurd h2 (by simp)

/-- Freeing clears at most the bits of the run. -/
theorem freePages_bits (p : Pmm) (addr : Word) (count : Nat) :
    (p.freePages addr count).memBase = p.memBase ∧ (p.freePages addr count).memSize = p.memSize ∧
      (p.freePages addr count).pagesTotal = p.pagesTotal ∧
      ∀ j, p.bitmap j = true → Pmm.inRun (p.addrToPage addr) count j = false →
        (p.freePages addr count).bitmap j = true := by
  unfold Pmm.freePages
  split
  · exact ⟨rfl, rfl, rfl, fun j hj _ => hj⟩
  · split
    · exact ⟨rfl, rfl, rfl, fun j hj _ => hj⟩
    · split
      · exact ⟨rfl, rfl, rfl, fun j hj _ => hj⟩
      · rw [Pmm.freeLoop_eq]
        exact ⟨rfl, rfl, rfl, fun j hj hn => by simp [hj, hn]⟩

/-- Every page of a run that a caller may free is owned. -/
theorem Inv.owned_of_inRun (h : s.Inv prot) (hown : s.OwnsRange addr count)
    (hj : Pmm.inRun (s.pmm.addrToPage addr) count j = true) : j ∈ s.owned := by
  obtain ⟨first, haddr, hpages⟩ := hown
  simp only [Pmm.inRun, decide_eq_true_eq] at hj
  have hfirst := hpages 0 (by omega)
  have hpage : s.pmm.addrToPage addr = first := by
    rw [haddr]
    exact h.region.addrToPage_pageToAddr (h.used _ hfirst).1
  rw [hpage] at hj
  have hmem := hpages (j - first) (by omega)
  rwa [show first + (j - first) = j by omega] at hmem

theorem Inv.free (h : s.Inv prot) (hown : s.OwnsRange addr count) :
    (s.free addr count).Inv prot ∧ (s.free addr count).pmm.memBase = s.pmm.memBase ∧
      (s.free addr count).pmm.pagesTotal = s.pmm.pagesTotal := by
  obtain ⟨hbase, hsize, htotal, hbits⟩ := freePages_bits s.pmm addr count
  have howned : ∀ j, j ∈ (s.free addr count).owned ↔
      j ∈ s.owned ∧ Pmm.inRun (s.pmm.addrToPage addr) count j = false := by
    intro j
    simp only [owned, PmmState.free, List.mem_flatten, List.mem_map]
    constructor
    · rintro ⟨_, ⟨l, hl, rfl⟩, hj⟩
      obtain ⟨hj, hn⟩ := List.mem_filter.mp hj
      exact ⟨⟨l, hl, hj⟩, by simpa using hn⟩
    · rintro ⟨⟨l, hl, hj⟩, hn⟩
      exact ⟨_, ⟨l, hl, rfl⟩, List.mem_filter.mpr ⟨hj, by simp [hn]⟩⟩
  have hrun := fun j => h.owned_of_inRun hown (j := j)
  refine ⟨⟨?_, h.counted.freePages addr count, ?_, fun j hj => ?_, fun j hj hp => ?_⟩, hbase, htotal⟩
  · refine ⟨?_, ?_, ?_, ?_, ?_⟩
    · exact hbase ▸ h.region.base
    · exact hsize ▸ h.region.size
    · show (s.pmm.freePages addr count).memBase.toNat + _ < _
      rw [hbase]
      exact hsize ▸ h.region.bound
    · show (s.pmm.freePages addr count).pagesTotal * 4096 ≤ _
      rw [htotal]
      exact hsize ▸ h.region.total
    · exact htotal ▸ h.region.cap
  · have hflat : (s.free addr count).owned
        = s.owned.filter fun j => !Pmm.inRun (s.pmm.addrToPage addr) count j := by
      simp only [owned, PmmState.free, List.filter_flatten]
    rw [hflat]
    exact h.nodup.filter _
  · obtain ⟨hj, hn⟩ := (howned j).mp hj
    obtain ⟨h1, h2, h3⟩ := h.used j hj
    exact ⟨htotal ▸ h1, hbits j h2 hn, h3⟩
  · have hj' : j < s.pmm.pagesTotal := htotal ▸ hj
    refine hbits j (h.kept j hj' hp) ?_
    cases hin : Pmm.inRun (s.pmm.addrToPage addr) count j with
    | false => rfl
    | true => exact absurd hp (h.used j (hrun j hin)).2.2

/-- Pages only change hands between the callers and the free ones. -/
theorem Inv.alloc_pages (h : s.Inv prot) (count : Nat) :
    (∀ j, (s.alloc count).pmm.bitmap j = false → s.pmm.bitmap j = false) ∧
      ∀ j ∈ (s.alloc count).owned, j ∈ s.owned ∨ s.pmm.bitmap j = false := by
  unfold PmmState.alloc Pmm.allocPages
  rcases s.pmm.allocRun_cases count with ⟨heq, -⟩ | ⟨st, hpos, -, hclear, hin, -, heq⟩
  · rw [heq]
    exact ⟨fun j hj => hj, fun j hj => .inl hj⟩
  rw [heq]
  dsimp only
  have hbits : ∀ j, (s.pmm.bitmap j || Pmm.inRun st count j) = false → s.pmm.bitmap j = false :=
    fun j hj => (Bool.or_eq_false_iff.mp hj).1
  split
  · exact ⟨hbits, fun j hj => .inl hj⟩
  · refine ⟨hbits, fun j hj => ?_⟩
    have hst : Pmm.addrToPage { s.pmm with
        bitmap := fun j => s.pmm.bitmap j || Pmm.inRun st count j
        pagesFree := s.pmm.pagesFree - count } (s.pmm.pageToAddr st) = st :=
      h.region.addrToPage_pageToAddr (by omega)
    simp only [owned, List.flatten_append, List.flatten_singleton, List.mem_append] at hj
    rcases hj with hj | hj
    · exact .inl hj
    · rw [hst] at hj
      have hrange := List.mem_range'_1.mp hj
      exact .inr (hclear j (by omega) (by omega))

theorem Inv.free_pages (h : s.Inv prot) (hown : s.OwnsRange addr count) :
    (∀ j, (s.free addr count).pmm.bitmap j = false → s.pmm.bitmap j = false ∨ j ∈ s.owned) ∧
      ∀ j ∈ (s.free addr count).owned, j ∈ s.owned := by
  constructor
  · intro j hj
    obtain ⟨-, -, -, hbits⟩ := freePages_bits s.pmm addr count
    cases hold : s.pmm.bitmap j with
    | false => exact .inl rfl
    | true =>
        cases hrun : Pmm.inRun (s.pmm.addrToPage addr) count j with
        | true => exact .inr (h.owned_of_inRun hown hrun)
        | false => exact absurd (hj.symm.trans (hbits j hold hrun)) (by simp)
  · intro j hj
    simp only [owned, PmmState.free, List.mem_flatten, List.mem_map] at hj ⊢
    obtain ⟨_, ⟨l, hl, rfl⟩, hj⟩ := hj
    exact ⟨l, hl, (List.mem_filter.mp hj).1⟩

theorem Inv.step_pages (h : s.Inv prot) {op : PmmOp} (hown : s.Owns op) {s' : PmmState}
    (hs : s.step op = some s') :
    (∀ j, s'.pmm.bitmap j = false → s.pmm.bitmap j = false ∨ j ∈ s.owned) ∧
      ∀ j ∈ s'.owned, j ∈ s.owned ∨ s.pmm.bitmap j = false := by
  cases op with
  | allocPages count =>
      obtain rfl := Option.some.inj hs
      obtain ⟨hfree, howned⟩ := h.alloc_pages count
      exact ⟨fun j hj => .inl (hfree j hj), howned⟩
  | allocPage =>
      obtain rfl := Option.some.inj hs
      obtain ⟨hfree, howned⟩ := h.alloc_pages 1
      exact ⟨fun j hj => .inl (hfree j hj), howned⟩
  | freePages addr count =>
      obtain rfl := Option.some.inj hs
      obtain ⟨hfree, howned⟩ := h.free_pages hown
      exact ⟨hfree, fun j hj => .inl (howned j hj)⟩
  | freePage addr =>
      obtain rfl := Option.some.inj hs
      obtain ⟨hfree, howned⟩ := h.free_pages hown
      exact ⟨hfree, fun j hj => .inl (howned j hj)⟩

theorem Inv.step (h : s.Inv prot) {op : PmmOp} (hown : s.Owns op) {s' : PmmState}
    (hs : s.step op = some s') :
    s'.Inv prot ∧ s'.pmm.memBase = s.pmm.memBase ∧ s'.pmm.pagesTotal = s.pmm.pagesTotal := by
  cases op with
  | allocPages count => exact Option.some.inj hs ▸ h.alloc count
  | allocPage => exact Option.some.inj hs ▸ h.alloc 1
  | freePages addr count => exact Option.some.inj hs ▸ h.free hown
  | freePage addr => exact Option.some.inj hs ▸ h.free hown

end PmmState

/-- Page `j` of the region lies in the managed region. -/
def Pmm.PageInside (p : Pmm) (j : Nat) : Prop :=
  j < p.pagesTotal ∧ p.memBase.toNat + 4096 * (j + 1) ≤ p.memBase.toNat + p.memSize.toNat

/-- **Ownership.** If the ranges reserved at boot end below `2^64`, then in every run of allocations
and of frees of owned ranges the live allocations are pairwise disjoint, lie inside the managed region
and never touch a protected page. -/
theorem pmm_live_disjoint {env : BootEnv} {fuel : Nat} {p : Pmm} {base size : Word}
    (hinit : env.pmmInitFromDtb fuel = some p) (hregion : env.managedRegion fuel = some (base, size))
    (hwrap : env.NoWrap base) {s : PmmState}
    (hreach : Machine.Reach PmmState.step PmmState.Owns ⟨p, []⟩ s) :
    s.owned.Nodup ∧ ∀ j ∈ s.owned, s.pmm.PageInside j ∧ ¬ env.Protected s.pmm j := by
  obtain ⟨hreg, hcounted, ⟨_, hbase⟩, -, hprot⟩ := BootEnv.init_spec hinit
  obtain ⟨rfl, -⟩ := Prod.mk.inj (Option.some.inj (hbase.symm.trans hregion))
  have hinv : s.Inv (env.Protected p) ∧ s.pmm.memBase = p.memBase := by
    refine hreach.invariant
      (P := fun s => PmmState.Inv (env.Protected p) s ∧ s.pmm.memBase = p.memBase) ?_ ?_
    · exact ⟨⟨hreg, hcounted, List.nodup_nil, by simp [PmmState.owned], hprot hwrap⟩, rfl⟩
    · rintro s op s' ⟨hinv, hbase⟩ hown hs
      obtain ⟨hinv', hbase', -⟩ := hinv.step hown hs
      exact ⟨hinv', hbase'.trans hbase⟩
  obtain ⟨hinv, hbase⟩ := hinv
  refine ⟨hinv.nodup, fun j hj => ?_⟩
  obtain ⟨h1, -, h3⟩ := hinv.used j hj
  refine ⟨⟨h1, ?_⟩, fun hp => h3 ((BootEnv.protected_congr hbase j).mp hp)⟩
  have := hinv.region.total
  omega

/-! ## A tree with one memory node -/

/-- The cells of a tree whose only node below the root is `memory`, with one `reg` tuple. -/
def memoryTree (base size : Word) : List (BitVec 32) :=
  [Fdt.magic, 104, 40, 100, 0, 17, 16, 0, 0, 0,
    Fdt.beginNode, 0, Fdt.beginNode, 0x6d656d6f, 0x72790000,
    Fdt.prop, 16, 0, base.extractLsb' 32 32, base.extractLsb' 0 32,
      size.extractLsb' 32 32, size.extractLsb' 0 32,
    Fdt.endNode, Fdt.endNode, Fdt.tokenEnd, 0x72656700]

/-- The byte at an offset of a big-endian blob. -/
def blobByte (cells : List (BitVec 32)) (off : Nat) : Byte :=
  (cells.getD (off / 4) 0).extractLsb' (8 * (3 - off % 4)) 8

/-- A machine with one bank of RAM, its kernel at `0x40080000` and its device tree at
`0x48000000`. -/
def oneBank (base size : Word) : BootEnv where
  image := ⟨0x40080000, 0x40090000, 0x40090000, 0x40094000, by decide, by decide⟩
  dtbPtr := 0x48000000
  fdt := blobByte (memoryTree base size)
  uartBase := none

/-- Two pages of a 4 MiB bank, taken right above its first 1 MiB. -/
theorem pmm_live_disjoint_oneBank :
    ∃ p s, (oneBank 0x40000000 0x400000).pmmInitFromDtb 20 = some p ∧
      Machine.Reach PmmState.step PmmState.Owns ⟨p, []⟩ s ∧ s.owned = [256, 257] ∧ s.owned.Nodup ∧
      ∀ j ∈ s.owned, s.pmm.PageInside j ∧ ¬ (oneBank 0x40000000 0x400000).Protected s.pmm j := by
  have hrun : ((oneBank 0x40000000 0x400000).pmmInitFromDtb 20).map
      (fun p => (PmmState.alloc ⟨p, []⟩ 2).owned) = some [256, 257] := by decide +kernel
  obtain ⟨p, hp, howned⟩ := Option.map_eq_some_iff.mp hrun
  have hreach : Machine.Reach PmmState.step PmmState.Owns ⟨p, []⟩ (PmmState.alloc ⟨p, []⟩ 2) :=
    .next (.allocPages 2) .start trivial rfl
  exact ⟨p, _, hp, hreach, howned, pmm_live_disjoint hp
    (show (oneBank 0x40000000 0x400000).managedRegion 20 = some (0x40000000, 0x400000) by decide)
    ⟨by decide, by decide⟩ hreach⟩

/-- A region that starts less than 1 MiB below `2^64`: the end of its first 1 MiB wraps around, and
`reserve_range` takes it for a range below the region. The first page handed out is the first page of
the region, inside the 1 MiB kept back. -/
theorem pmm_hands_out_first_page :
    ∃ env fuel p s, BootEnv.pmmInitFromDtb env fuel = some p ∧
      Machine.Reach PmmState.step PmmState.Owns ⟨p, []⟩ s ∧ ∃ j ∈ s.owned, env.Protected s.pmm j := by
  have hrun : ((oneBank 0xFFFFFFFFFFF80000 0x7F000).pmmInitFromDtb 20).map
      (fun p => (PmmState.alloc ⟨p, []⟩ 1).owned) = some [0] := by decide +kernel
  obtain ⟨p, hp, howned⟩ := Option.map_eq_some_iff.mp hrun
  refine ⟨_, _, p, PmmState.alloc ⟨p, []⟩ 1, hp, .next .allocPage .start trivial rfl, 0, ?_, ?_⟩
  · rw [howned]
    exact List.mem_singleton.mpr rfl
  · exact .inr (.inr (.inr ⟨by decide, by omega, by omega⟩))

end Arcline
