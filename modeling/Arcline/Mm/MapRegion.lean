import Arcline.Mm.Window

set_option autoImplicit false

/-! # Mapping a region to the higher half

`mmu_map_region` rounds the start of a region down and its size up, each on its own: a region that
starts inside a page may reach one page further than the rounded size. The pages it goes over get an
entry made of the page and `attrs`, so `attrs` has to leave the address alone and to make the entry a
page descriptor. The flush behind it compares with an end that is 0 if the last page is the last one of
the address space.
-/

namespace Arcline

open Radix

namespace Mmu

/-! ## The pages of a region -/

theorem kernelBase_toNat : kernelBase.toNat = 0xFFFFFF8000000000 := by decide

theorem kernelBase_add {pa : Word} (h : pa.toNat < 2 ^ 39) :
    (kernelBase + pa).toNat = 0xFFFFFF8000000000 + pa.toNat := by
  rw [BitVec.toNat_add, kernelBase_toNat]
  omega

/-- Page `i` of a region, from the page of its first address on. -/
def regionPage (pa : Word) (i : Nat) : Word := pageDown pa + BitVec.ofNat 64 (4096 * i)

/-- The pages `mmu_map_region` goes over, as pairs of a virtual and a physical address. -/
def regionPages (pa size : Word) : List (Word × Word) :=
  (pageOffsets (pageDown (size + (pageSize - 1)))).map fun off =>
    (kernelBase + pageDown pa + off, pageDown pa + off)

variable {pa size : Word}

theorem size_toNat (size : Word) (h : size.toNat < 2 ^ 39) :
    (pageDown (size + (pageSize - 1))).toNat = 4096 * ((size.toNat + 4095) / 4096) := by
  have hsum : (size + (pageSize - 1)).toNat = size.toNat + 4095 := by
    rw [BitVec.toNat_add, show (pageSize - 1).toNat = 4095 by decide]
    omega
  rw [pageDown_toNat, hsum, Nat.mul_comm]

theorem regionPage_toNat (pa : Word) (i : Nat) (h : pa.toNat + 4096 * i < 2 ^ 64) :
    (regionPage pa i).toNat = 4096 * (pa.toNat / 4096 + i) := by
  rw [regionPage, BitVec.toNat_add, pageDown_toNat, BitVec.toNat_ofNat]
  omega

theorem mem_regionPages (pa : Word) (h : size.toNat < 2 ^ 39) {x : Word × Word} :
    x ∈ regionPages pa size ↔
      ∃ i, 4096 * i < size.toNat ∧ x = (kernelBase + regionPage pa i, regionPage pa i) := by
  simp only [regionPages, List.mem_map, mem_pageOffsets, size_toNat size h]
  constructor
  · rintro ⟨off, ⟨i, hi, rfl⟩, rfl⟩
    exact ⟨i, by omega, by rw [regionPage, BitVec.add_assoc, Nat.mul_comm]⟩
  · rintro ⟨i, hi, rfl⟩
    exact ⟨_, ⟨i, by omega, rfl⟩, by rw [regionPage, BitVec.add_assoc, Nat.mul_comm]⟩

/-- An address of the higher half lies in the page of its physical address. -/
theorem pageOf_kernelBase {a : Word} (h : a.toNat < 2 ^ 39) :
    (pageOf (kernelBase + a)).toNat = 0xFF8000000 + a.toNat / 4096 := by
  rw [pageOf_toNat, kernelBase_add h]
  omega

theorem pageOf_region {a : Word} (ha : a.toNat < 2 ^ 39) {i : Nat}
    (hi : 4096 * (pa.toNat / 4096 + i) < 2 ^ 39) :
    pageOf (kernelBase + regionPage pa i) = pageOf (kernelBase + a) ↔
      a.toNat / 4096 = pa.toNat / 4096 + i := by
  have hpage := regionPage_toNat pa i (by omega)
  rw [← BitVec.toNat_inj, pageOf_kernelBase (by omega), pageOf_kernelBase ha, hpage]
  omega

theorem regionPages_distinct (h : pa.toNat + size.toNat < 2 ^ 39) :
    (regionPages pa size).Pairwise fun x y => pageOf x.1 ≠ pageOf y.1 := by
  rw [regionPages, pageOffsets, size_toNat size (by omega), List.map_map, List.pairwise_map]
  have hrange : (List.range ((4096 * ((size.toNat + 4095) / 4096) + 4095) / 4096)).Pairwise
      fun i j => i < j := List.pairwise_lt_range
  refine hrange.imp_of_mem fun {i j} hi hj hij hpage => ?_
  have hi := List.mem_range.mp hi
  have hj := List.mem_range.mp hj
  simp only [Function.comp_apply, BitVec.add_assoc, Nat.mul_comm _ 4096] at hpage
  have hnum := congrArg BitVec.toNat hpage
  have hnat : ∀ k, 4096 * k < size.toNat →
      (pageOf (kernelBase + regionPage pa k)).toNat = 0xFF8000000 + pa.toNat / 4096 + k := by
    intro k hk
    have hk' := regionPage_toNat pa k (by omega)
    rw [pageOf_kernelBase (by omega), hk']
    omega
  have hi' := hnat i (by omega)
  have hj' := hnat j (by omega)
  rw [regionPage] at hi' hj'
  omega

/-! ## What the call does -/

theorem mapPagesUntil_rc (m : Mmu) (r attrs : Word) (pages : List (Word × Word)) :
    (m.mapPagesUntil r attrs pages).1 = 0 ∨ (m.mapPagesUntil r attrs pages).1 < 0 := by
  induction pages generalizing m with
  | nil => exact .inl rfl
  | cons x pages ih =>
      obtain ⟨va, pa⟩ := x
      rw [mapPagesUntil]
      split
      · exact ih _
      · exact .inr (show (-1 : Int) < 0 by decide)

variable {roots : Set Word} {live : List (List Nat)} {m : Mmu} {attrs : Word}

/-! The loop makes no TLB invalidation. -/

theorem ensureTable_tlbi (m : Mmu) (table idx : Word) :
    (m.ensureTable table idx).2.tlbi = m.tlbi := by
  unfold ensureTable allocTable
  dsimp only
  split
  · rfl
  · split
    · rfl
    · rfl

theorem mapPage_tlbi (m : Mmu) (pgd va pa attrs : Word) :
    (m.mapPage pgd va pa attrs).2.tlbi = m.tlbi := by
  have hpud := m.ensureTable_tlbi pgd (pgdIndex va)
  unfold mapPage
  split
  · rename_i heq
    rwa [heq] at hpud
  · rename_i pud m₁ heq
    rw [heq] at hpud
    have hpmd := m₁.ensureTable_tlbi pud (pudIndex va)
    split
    · rename_i heq
      rw [heq] at hpmd
      exact hpmd.trans hpud
    · rename_i pmd m₂ heq
      rw [heq] at hpmd
      have hpte := m₂.ensureTable_tlbi pmd (pmdIndex va)
      split
      · rename_i heq
        rw [heq] at hpte
        exact hpte.trans (hpmd.trans hpud)
      · rename_i heq
        rw [heq] at hpte
        exact hpte.trans (hpmd.trans hpud)

theorem mapPagesUntil_tlbi (m : Mmu) (r attrs : Word) (pages : List (Word × Word)) :
    (m.mapPagesUntil r attrs pages).2.tlbi = m.tlbi := by
  induction pages generalizing m with
  | nil => rfl
  | cons x pages ih =>
      obtain ⟨va, pa⟩ := x
      have hfirst := m.mapPage_tlbi r va pa attrs
      rw [mapPagesUntil]
      split
      · rename_i heq
        rw [heq] at hfirst
        exact (ih _).trans hfirst
      · rename_i heq
        rw [heq] at hfirst
        exact hfirst

/-- A call that succeeds, as a loop over pages and a flush. -/
theorem mapRegion_zero (hrc : (m.mapRegion pa size attrs).1 = 0) :
    m.ttbr1Pgd ≠ 0 ∧ (m.mapPagesUntil m.ttbr1Pgd attrs (regionPages pa size)).1 = 0 ∧
      (m.mapRegion pa size attrs).2 =
        (m.mapPagesUntil m.ttbr1Pgd attrs (regionPages pa size)).2.tlbFlushRange
          (kernelBase + pageDown pa) (pageDown (size + (pageSize - 1))) := by
  unfold mapRegion at hrc ⊢
  by_cases hzero : m.ttbr1Pgd = 0
  · rw [if_pos hzero] at hrc
    exact absurd hrc (show (-1 : Int) ≠ 0 by decide)
  · rw [if_neg hzero] at hrc ⊢
    rcases m.mapPagesUntil_rc m.ttbr1Pgd attrs (regionPages pa size) with hok | hneg
    · refine ⟨hzero, hok, ?_⟩
      unfold regionPages at hok ⊢
      dsimp only
      rw [if_neg (by rw [hok]; decide)]
    · unfold regionPages at hneg
      dsimp only at hrc
      rw [if_pos hneg] at hrc
      exact absurd hrc (show (-1 : Int) ≠ 0 by decide)

/-- With free pages for the tables of the region the call succeeds. -/
theorem Good.mapRegion_succeeds (h : m.Good roots live) (hne : m.ttbr1Pgd ≠ 0)
    (hroom : (listPlaces (regionPages pa size)).card ≤ m.pmm.pagesFree) :
    (m.mapRegion pa size attrs).1 = 0 := by
  have hmissing := m.missing_le m.ttbr1Pgd (listPlaces (regionPages pa size))
  have hzero := h.inv.mapPagesUntil_room (h.rooted.ttbr1Pgd hne) attrs
    (fun x hx q hq => mem_listPlaces.mpr ⟨x, hx, hq⟩) length_listPlaces
    (show m.missing m.ttbr1Pgd (listPlaces (regionPages pa size)) ≤ m.pmm.pagesFree by omega)
  unfold regionPages at hzero
  rw [Mmu.mapRegion, if_neg hne]
  dsimp only
  rw [if_neg (by rw [hzero]; decide)]

/-- What a call that succeeds does to the tables under TTBR1 and to the pages passed to a TLB
invalidation. -/
structure RegionCall (m m' : Mmu) (pa size attrs : Word) : Prop where
  ttbr1 : m'.ttbr1 = m.ttbr1
  entry : ∀ x ∈ regionPages pa size, m'.leaf m.ttbr1 x.1 = some (pageDescriptor x.2 attrs)
  other : ∀ va, (∀ x ∈ regionPages pa size, pageOf x.1 ≠ pageOf va) →
    m'.leaf m.ttbr1 va = m.leaf m.ttbr1 va
  tlbi : m'.tlbi = (m.tlbFlushRange (kernelBase + pageDown pa) (pageDown (size + (pageSize - 1)))).tlbi

theorem Good.regionCall (h : m.Good roots live) (hsame : m.ttbr1 = m.ttbr1Pgd)
    (hb : pa.toNat + size.toNat < 2 ^ 39) (hrc : (m.mapRegion pa size attrs).1 = 0) :
    RegionCall m (m.mapRegion pa size attrs).2 pa size attrs := by
  obtain ⟨hne, hok, heq⟩ := mapRegion_zero hrc
  have hroot := h.rooted.ttbr1Pgd hne
  have hedit := h.inv.mapPagesUntil_edits (S := {n | ∃ x ∈ regionPages pa size, pageOf x.1 = n})
    hroot attrs fun x hx => ⟨x, hx, rfl⟩
  rw [heq]
  refine ⟨hedit.ttbr1, ?_, ?_, ?_⟩
  · rw [hsame]
    exact h.inv.mapPagesUntil_mapped hroot attrs (regionPages_distinct hb) hok
  · intro va hva
    rw [hsame]
    refine hedit.leaf m.ttbr1Pgd hroot va ?_
    rintro ⟨-, x, hx, hpage⟩
    exact hva x hx hpage
  · rw [Mmu.tlbFlushRange, Mmu.tlbFlushRange, mapPagesUntil_tlbi]

/-! ## Translations -/

/-- TTBR1 translates `va` to `a`: the walk ends in a page descriptor, and the offset in the page is
kept. -/
def Translates (m : Mmu) (va a : Word) : Prop :=
  ∃ d, m.leaf m.ttbr1 va = some d ∧ d &&& ptePage ≠ 0 ∧ outputAddress d + pageOffset va = a

/-- In the higher half an address is translated to itself just if its page is. -/
theorem translates_iff {a q : Word} (ha : a.toNat < 2 ^ 39) (hq : q.toNat = 4096 * (a.toNat / 4096)) :
    m.Translates (kernelBase + a) a ↔
      ∃ d, m.leaf m.ttbr1 (kernelBase + q) = some d ∧ d &&& ptePage ≠ 0 ∧ outputAddress d = q := by
  have hpage : pageOf (kernelBase + a) = pageOf (kernelBase + q) := by
    rw [← BitVec.toNat_inj, pageOf_kernelBase ha, pageOf_kernelBase (by omega)]
    omega
  have hoff : (pageOffset (kernelBase + a)).toNat = a.toNat % 4096 := by
    rw [pageOffset_toNat, kernelBase_add ha]
    omega
  have hout : ∀ d, outputAddress d + pageOffset (kernelBase + a) = a ↔ outputAddress d = q := by
    intro d
    have hd := outputAddress_toNat d
    rw [← BitVec.toNat_inj, ← BitVec.toNat_inj, BitVec.toNat_add, hoff, hq]
    omega
  unfold Translates
  simp only [hout, leaf_eq_pageMap, hpage]

/-- The output address of the entry `mmu_map_page` makes. -/
theorem outputAddress_pageDescriptor (pa attrs : Word) (hal : pa.toNat % 4096 = 0)
    (hlt : pa.toNat < 2 ^ 48) :
    outputAddress (pageDescriptor pa attrs) = pa ||| (attrs &&& outputMask) := by
  have hdown : pageDown pa = pa := by
    apply BitVec.eq_of_toNat_eq
    rw [pageDown_toNat]
    omega
  have hpa : pa &&& outputMask = pa := outputAddress_of_page hal hlt
  rw [outputAddress, pageDescriptor_and, hdown, hpa]
  simp [pteAf, pteValid, outputMask]

theorem pageDescriptor_ptePage {pa : Word} (attrs : Word) :
    pageDescriptor pa attrs &&& ptePage = attrs &&& ptePage := by
  have hdown : pageDown pa &&& ptePage = 0 := by
    rw [pageDown, BitVec.and_assoc, show ~~~(pageSize - 1) &&& ptePage = 0 by decide]
    exact BitVec.and_zero
  rw [pageDescriptor_and, hdown]
  simp [pteAf, pteValid, ptePage]

/-! ## When the region is mapped -/

/-- What `mmu_map_region` is for: every address of the region is translated, and every page that was
given an entry has been passed to a TLB invalidation. -/
structure RegionMapped (m m' : Mmu) (pa size : Word) : Prop where
  translated : ∀ a, pa ≤ a → a < pa + size → m'.Translates (kernelBase + a) a
  flushed : ∃ passed, m'.tlbi = passed ++ m.tlbi ∧ ∀ x ∈ regionPages pa size, x.1 ∈ passed

/-- The attributes make a page descriptor and leave the addresses of the pages alone; the rounded size
covers the offset of `pa` as well, or the last page is translated already; and the last page is not the
last one of the address space. -/
structure RegionFits (m : Mmu) (pa size attrs : Word) : Prop where
  page : attrs &&& ptePage ≠ 0
  bits : ∀ i, 4096 * i < size.toNat → regionPage pa i ||| (attrs &&& outputMask) = regionPage pa i
  last : pa.toNat % 4096 + size.toNat ≤ (pageUp size).toNat ∨
    m.Translates (kernelBase + pageDown (pa + (size - 1))) (pageDown (pa + (size - 1)))
  room : (pageDown pa).toNat + (pageUp size).toNat < 2 ^ 39

/-- The page of the last address of a region. -/
theorem lastPage_toNat (hb : pa.toNat + size.toNat < 2 ^ 39) (hpos : size.toNat ≠ 0) :
    (pageDown (pa + (size - 1))).toNat = 4096 * ((pa.toNat + size.toNat - 1) / 4096) := by
  have hadd : (pa + (size - 1)).toNat = pa.toNat + size.toNat - 1 := by bv_omega
  rw [pageDown_toNat, hadd, Nat.mul_comm]

/-- An address of the region in its page `i`: the start of the region, or that of the page. -/
theorem exists_mem_page (hb : pa.toNat + size.toNat < 2 ^ 39) {i : Nat} (hi : 4096 * i < size.toNat) :
    ∃ a : Word, pa ≤ a ∧ a < pa + size ∧ a.toNat / 4096 = pa.toNat / 4096 + i := by
  have hsum : (pa + size).toNat = pa.toNat + size.toNat := BitVec.toNat_add_of_lt (by omega)
  have hq := regionPage_toNat pa i (by omega)
  cases i with
  | zero => exact ⟨pa, BitVec.le_refl pa, by rw [BitVec.lt_def, hsum]; omega, (Nat.add_zero _).symm⟩
  | succ i =>
      refine ⟨regionPage pa (i + 1), ?_, ?_, by omega⟩
      · rw [BitVec.le_def]
        omega
      · rw [BitVec.lt_def, hsum]
        omega

section Call

variable {m' : Mmu} (hcall : RegionCall m m' pa size attrs) (hb : pa.toNat + size.toNat < 2 ^ 39)

include hcall hb

/-- An address in one of the pages the call goes over. -/
theorem translates_covered {a : Word} {i : Nat} (ha : a.toNat / 4096 = pa.toNat / 4096 + i)
    (hi : 4096 * i < size.toNat) :
    m'.Translates (kernelBase + a) a ↔
      attrs &&& ptePage ≠ 0 ∧ regionPage pa i ||| (attrs &&& outputMask) = regionPage pa i := by
  have hq := regionPage_toNat pa i (by omega)
  have hpage := hcall.entry _ ((mem_regionPages pa (by omega)).mpr ⟨i, hi, rfl⟩)
  have hout := outputAddress_pageDescriptor (regionPage pa i) attrs (by omega) (by omega)
  rw [translates_iff (q := regionPage pa i) (by omega) (by omega), hcall.ttbr1, hpage]
  simp only [Option.some.injEq, exists_eq_left', pageDescriptor_ptePage, hout]

/-- An address in a page behind them. -/
theorem translates_behind {a q : Word} (ha : a.toNat < 2 ^ 39) (hq : q.toNat = 4096 * (a.toNat / 4096))
    (hbehind : ∀ i, 4096 * i < size.toNat → a.toNat / 4096 ≠ pa.toNat / 4096 + i) :
    m'.Translates (kernelBase + a) a ↔ m.Translates (kernelBase + q) q := by
  have hleaf : m'.leaf m.ttbr1 (kernelBase + q) = m.leaf m.ttbr1 (kernelBase + q) := by
    refine hcall.other _ fun x hx hpage => ?_
    obtain ⟨i, hi, rfl⟩ := (mem_regionPages pa (by omega)).mp hx
    have hat := (pageOf_region (a := q) (by omega) (by omega)).mp hpage
    exact hbehind i hi (by omega)
  rw [translates_iff ha hq, translates_iff (q := q) (by omega) (by omega), hcall.ttbr1, hleaf]

/-- The pages are flushed unless the last one is the last of the address space. -/
theorem flushed_iff (hpos : size.toNat ≠ 0) :
    (∃ passed, m'.tlbi = passed ++ m.tlbi ∧ ∀ x ∈ regionPages pa size, x.1 ∈ passed) ↔
      (pageDown pa).toNat + (pageUp size).toNat < 2 ^ 39 := by
  have hround := size_toNat size (by omega)
  have hup := pageUp_toNat (x := size) (by omega)
  have hdown := pageDown_toNat pa
  have hva : (kernelBase + pageDown pa).toNat = 0xFFFFFF8000000000 + (pageDown pa).toNat :=
    kernelBase_add (by omega)
  -- the end that the flush compares with
  have hend : kernelBase + pageDown pa < kernelBase + pageDown pa + pageDown (size + (pageSize - 1)) ↔
      (pageDown pa).toNat + (pageUp size).toNat < 2 ^ 39 := by
    rw [BitVec.lt_def, BitVec.toNat_add _ (pageDown (size + (pageSize - 1))), hva]
    omega
  rw [hcall.tlbi, tlbFlushRange]
  simp only [hend]
  by_cases hroom : (pageDown pa).toNat + (pageUp size).toNat < 2 ^ 39
  · refine iff_of_true ⟨_, rfl, ?_⟩ hroom
    intro x hx
    obtain ⟨off, hoff, rfl⟩ := List.mem_map.mp hx
    rw [if_pos hroom, List.mem_reverse]
    exact List.mem_map.mpr ⟨off, hoff, rfl⟩
  · refine iff_of_false ?_ hroom
    rintro ⟨passed, happ, hall⟩
    rw [if_neg hroom] at happ
    have hnil : passed = [] := (List.append_cancel_right happ).symm
    have hfirst := hall _ ((mem_regionPages pa (by omega)).mpr ⟨0, by omega, rfl⟩)
    rw [hnil] at hfirst
    exact List.not_mem_nil hfirst

/-- Nothing is asked for an empty region. -/
theorem regionMapped_empty (hsize : size = 0) : RegionMapped m m' pa size := by
  subst hsize
  refine ⟨fun a hle hlt => ?_, _, hcall.tlbi, fun x hx => ?_⟩
  · rw [show pa + 0 = pa from BitVec.add_zero pa] at hlt
    exact absurd hle (BitVec.not_le.mpr hlt)
  · obtain ⟨i, hi, -⟩ := (mem_regionPages pa (by decide)).mp hx
    exact absurd hi (Nat.not_lt_zero _)

theorem RegionMapped.fits (h : RegionMapped m m' pa size) (hpos : size.toNat ≠ 0) :
    m.RegionFits pa size attrs := by
  have hsum : (pa + size).toNat = pa.toNat + size.toNat := BitVec.toNat_add_of_lt (by omega)
  have hup := pageUp_toNat (x := size) (by omega)
  have hlast := lastPage_toNat hb hpos
  refine ⟨?_, fun i hi => ?_, ?_, (flushed_iff hcall hb hpos).mp h.flushed⟩
  · -- the first address
    have hfirst := h.translated pa (BitVec.le_refl pa) (by rw [BitVec.lt_def, hsum]; omega)
    exact ((translates_covered hcall hb (i := 0) (Nat.add_zero _).symm (by omega)).mp hfirst).1
  · obtain ⟨a, hle, hlt, hat⟩ := exists_mem_page hb hi
    exact ((translates_covered hcall hb hat hi).mp (h.translated a hle hlt)).2
  · by_cases hcover : pa.toNat % 4096 + size.toNat ≤ (pageUp size).toNat
    · exact .inl hcover
    · -- the page behind the rounded size
      have hge : pa ≤ pageDown (pa + (size - 1)) := by
        rw [BitVec.le_def]
        omega
      have hlt : pageDown (pa + (size - 1)) < pa + size := by
        rw [BitVec.lt_def, hsum]
        omega
      refine .inr ((translates_behind hcall hb (by omega) (by omega) fun i hi => ?_).mp
        (h.translated _ hge hlt))
      omega

theorem RegionFits.mapped (h : m.RegionFits pa size attrs) (hpos : size.toNat ≠ 0) :
    RegionMapped m m' pa size := by
  have hsum : (pa + size).toNat = pa.toNat + size.toNat := BitVec.toNat_add_of_lt (by omega)
  have hup := pageUp_toNat (x := size) (by omega)
  have hlast := lastPage_toNat hb hpos
  refine ⟨fun a hle hlt => ?_, (flushed_iff hcall hb hpos).mpr h.room⟩
  rw [BitVec.le_def] at hle
  rw [BitVec.lt_def, hsum] at hlt
  obtain ⟨i, hi⟩ : ∃ i, a.toNat / 4096 = pa.toNat / 4096 + i :=
    ⟨a.toNat / 4096 - pa.toNat / 4096, by omega⟩
  by_cases hin : 4096 * i < size.toNat
  · exact (translates_covered hcall hb hi hin).mpr ⟨h.page, h.bits i hin⟩
  · rcases h.last with hcover | hdone
    · omega
    · refine (translates_behind hcall hb (by omega) (by omega) fun k hk => ?_).mpr hdone
      omega

theorem regionMapped_iff :
    RegionMapped m m' pa size ↔ size = 0 ∨ m.RegionFits pa size attrs := by
  by_cases hsize : size = 0
  · exact iff_of_true (regionMapped_empty hcall hb hsize) (.inl hsize)
  · have hpos : size.toNat ≠ 0 := fun h0 => hsize (BitVec.eq_of_toNat_eq h0)
    rw [or_iff_right hsize]
    exact ⟨fun h => h.fits hcall hb hpos, fun h => h.mapped hcall hb hpos⟩

end Call

end Mmu

namespace MmSys

open Mmu

/-- **Mapping a region.** In every state reached after boot, a call of `mmu_map_region` that returns 0
maps the whole region and flushes the pages it mapped just if the region is empty or fits. -/
theorem map_region_iff {env : BootEnv} {fuel : Nat} {p : Pmm}
    (hinit : env.pmmInitFromDtb fuel = some p) {mem : Word → Word} {s : MmSys}
    (hreach : Machine.Reach step Owns (boot p mem env.image) s) {pa size attrs : Word}
    (hwrap : kernelBase.toNat + pa.toNat + size.toNat < 2 ^ 64)
    (hrc : (s.mm.mmu.mapRegion pa size attrs).1 = 0) :
    RegionMapped s.mm.mmu (s.mm.mmu.mapRegion pa size attrs).2 pa size ↔
      size = 0 ∨ s.mm.mmu.RegionFits pa size attrs := by
  obtain ⟨roots, hgood, hparted⟩ := parted_boot hinit mem env.image
  have hsince := since_of_reach hgood hparted hreach
  have hsame : s.mm.mmu.ttbr1 = s.mm.mmu.ttbr1Pgd := by
    rw [hsince.ttbr1, hsince.ttbr1Pgd, hparted.pgd]
  have hb : pa.toNat + size.toNat < 2 ^ 39 := by
    rw [kernelBase_toNat] at hwrap
    clear hrc
    omega
  exact regionMapped_iff (hsince.good.regionCall hsame hb hrc) hb

/-! ## Regions of a machine with 1 GiB of RAM -/

/-- After boot the first pages of the higher half are not mapped, and small regions can be. -/
theorem boot_oneGiB :
    ∃ p, (oneBank 0x40000000 0x40000000).pmmInitFromDtb 20 = some p ∧
      (boot p (fun _ => 0) (oneBank 0x40000000 0x40000000).image).mm.mmu.leaf
        (boot p (fun _ => 0) (oneBank 0x40000000 0x40000000).image).mm.mmu.ttbr1
        (kernelBase + 0x2000) = none ∧
      ∀ pa size attrs, (regionPages pa size).length ≤ 4 →
        ((boot p (fun _ => 0) (oneBank 0x40000000 0x40000000).image).mm.mmu.mapRegion pa size attrs).1
          = 0 := by
  obtain ⟨p, hinit, hfree, -⟩ := init_oneGiB
  obtain ⟨roots, hgood, htables⟩ := good_boot hinit (fun _ => 0) (oneBank 0x40000000 0x40000000).image
  obtain ⟨hne, hnone⟩ := htables (by omega)
  have hboot := boot_free hinit (fun _ => 0) (oneBank 0x40000000 0x40000000).image
  have hhigh : (highPages (oneBank 0x40000000 0x40000000).image).length = 20 := by decide +kernel
  refine ⟨p, hinit, ?_, fun pa size attrs hlen => ?_⟩
  · have hpath : tablePath (kernelBase + 0x2000) = [511, 0, 0] := by decide
    rw [leaf_eq, hpath, hnone [511, 0, 0] (List.cons_ne_nil _ _) (Nat.le_refl 3) (by decide +kernel)]
    rfl
  · have hcard := card_listPlaces_le (regionPages pa size)
    exact hgood.mapRegion_succeeds hne (by omega)

theorem map_region_page :
    ∃ p, (oneBank 0x40000000 0x40000000).pmmInitFromDtb 20 = some p ∧
      RegionMapped (boot p (fun _ => 0) (oneBank 0x40000000 0x40000000).image).mm.mmu
        ((boot p (fun _ => 0) (oneBank 0x40000000 0x40000000).image).mm.mmu.mapRegion 0x1800 0x800
          bootAttrs).2 0x1800 0x800 := by
  obtain ⟨p, hinit, -, hmap⟩ := boot_oneGiB
  refine ⟨p, hinit, (map_region_iff hinit .start (by decide) (hmap _ _ _ (by decide))).mpr (.inr ?_)⟩
  refine ⟨by decide, fun i hi => ?_, .inl (by decide), by decide⟩
  rw [show bootAttrs &&& outputMask = 0 by decide]
  exact BitVec.or_zero

/-- Two bytes across the end of a page: the second page is left out. -/
theorem map_region_misses_page :
    ∃ p, (oneBank 0x40000000 0x40000000).pmmInitFromDtb 20 = some p ∧
      ((boot p (fun _ => 0) (oneBank 0x40000000 0x40000000).image).mm.mmu.mapRegion 0x1FFF 2
        bootAttrs).1 = 0 ∧
      ¬ ((boot p (fun _ => 0) (oneBank 0x40000000 0x40000000).image).mm.mmu.mapRegion 0x1FFF 2
        bootAttrs).2.Translates (kernelBase + 0x2000) 0x2000 := by
  obtain ⟨p, hinit, hleaf, hmap⟩ := boot_oneGiB
  obtain ⟨roots, hgood, -⟩ := good_boot hinit (fun _ => 0) (oneBank 0x40000000 0x40000000).image
  have hrc := hmap 0x1FFF 2 bootAttrs (by decide)
  have hcall := hgood.regionCall rfl (by decide) hrc
  refine ⟨p, hinit, hrc, ?_⟩
  rw [translates_behind hcall (by decide) (q := 0x2000) (by decide) (by decide)]
  · rintro ⟨d, hd, -⟩
    rw [hleaf] at hd
    exact absurd hd.symm (Option.some_ne_none d)
  · intro i hi
    have hzero : i = 0 := by
      have : 4096 * i < 2 := hi
      omega
    rw [hzero]
    decide

end MmSys

end Arcline
