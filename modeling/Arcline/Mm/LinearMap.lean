import Arcline.Mm.MapRegion
import Arcline.Mm.VmallocPages

set_option autoImplicit false

/-! # The linear map of physical memory

After `mmu_enable`, `kmain` maps physical memory to the higher half: `mmu_map_region(0, mem_size, attrs)`
with `mem_size` the number of managed pages times their size. That is the range from 0 on, and not the
range from the base of RAM on. So the managed pages are mapped if RAM starts at 0, and no page beyond
`mem_size` is. Where the map reaches into the arena of `vmalloc`, which starts 2 GiB above the base of the
higher half, the areas there replace it.
-/

namespace Arcline

open Radix

namespace Mmu

def kmainAttrs : Word := ptePage ||| pteShInner ||| pteAttrIdx mairIdxNormal

/-- `kmain` maps all physical memory to the higher half. -/
def kmainMap (m : Mmu) : Int × Mmu :=
  m.mapRegion 0 (BitVec.ofNat 64 m.pmm.pagesTotal * 4096) kmainAttrs

/-- TTBR1 translates every managed page, moved to the higher half, to itself. -/
def LinearMap (m : Mmu) : Prop :=
  ∀ j < m.pmm.pagesTotal, ∃ d, m.leaf m.ttbr1 (kernelBase + m.pmm.pageToAddr j) = some d ∧
    outputAddress d = m.pmm.pageToAddr j

/-- The pages of the map, for `n` managed pages. -/
def linearPages (n : Nat) : List (Word × Word) :=
  (List.range n).map fun i => (kernelBase + BitVec.ofNat 64 (i * 4096), BitVec.ofNat 64 (i * 4096))

/-! ## The pages of the map -/

theorem regionPages_zero {n : Nat} (hn : n * 4096 < 2 ^ 39) :
    regionPages 0 (BitVec.ofNat 64 n * 4096) = linearPages n := by
  have hsize : (BitVec.ofNat 64 n * 4096 : Word).toNat = n * 4096 := by
    rw [BitVec.toNat_mul, BitVec.toNat_ofNat, show (4096 : Word).toNat = 4096 from rfl]
    omega
  have hcount : (4096 * (((BitVec.ofNat 64 n * 4096 : Word).toNat + 4095) / 4096) + 4095) / 4096 = n := by
    rw [hsize]
    omega
  have hzero : pageDown 0 = 0 := by decide
  rw [regionPages, pageOffsets, size_toNat _ (by omega), hcount, List.map_map, linearPages]
  refine List.map_congr_left fun i _ => ?_
  rw [Function.comp_apply, hzero]
  simp

theorem mem_linearPages {n : Nat} {x : Word × Word} :
    x ∈ linearPages n ↔
      ∃ i < n, x = (kernelBase + BitVec.ofNat 64 (i * 4096), BitVec.ofNat 64 (i * 4096)) := by
  simp only [linearPages, List.mem_map, List.mem_range]
  exact exists_congr fun i => and_congr_right fun _ => eq_comm

/-- In the higher half a page needs the tables it needs at its own address, under the last entry of
the root. -/
theorem tablePlaces_kernelBase {pa : Word} (h : pa.toNat < 2 ^ 39) :
    tablePlaces (kernelBase + pa) = (tablePlaces pa).map fun q => 511 :: q.tail := by
  have hadd := kernelBase_add h
  have h39 : (kernelBase + pa).extractLsb' 39 9 = 511 := by
    apply BitVec.eq_of_toNat_eq
    rw [BitVec.extractLsb'_toNat, Nat.shiftRight_eq_div_pow, hadd]
    show _ = 511
    omega
  have h30 : (kernelBase + pa).extractLsb' 30 9 = pa.extractLsb' 30 9 := by
    apply BitVec.eq_of_toNat_eq
    rw [BitVec.extractLsb'_toNat, BitVec.extractLsb'_toNat, Nat.shiftRight_eq_div_pow,
      Nat.shiftRight_eq_div_pow, hadd]
    omega
  have h21 : (kernelBase + pa).extractLsb' 21 9 = pa.extractLsb' 21 9 := by
    apply BitVec.eq_of_toNat_eq
    rw [BitVec.extractLsb'_toNat, BitVec.extractLsb'_toNat, Nat.shiftRight_eq_div_pow,
      Nat.shiftRight_eq_div_pow, hadd]
    omega
  simp only [tablePlaces, tablePath, h39, h30, h21, List.map_cons, List.map_nil, List.tail_cons]

/-- So the map of 2 GiB needs as many tables as the identity map. -/
theorem card_linearPages_le {n : Nat} (hn : n * 4096 ≤ 0x80000000) :
    (listPlaces (linearPages n)).card ≤ 1027 := by
  have hsub : listPlaces (linearPages n)
      ⊆ (listPlaces lowPages).image fun q : List Index => 511 :: q.tail := by
    intro q hq
    obtain ⟨x, hx, hq⟩ := mem_listPlaces.mp hq
    obtain ⟨i, hi, rfl⟩ := mem_linearPages.mp hx
    have hnat : (BitVec.ofNat 64 (i * 4096)).toNat = i * 4096 := by
      rw [BitVec.toNat_ofNat]
      omega
    rw [tablePlaces_kernelBase (by rw [hnat]; omega)] at hq
    obtain ⟨q', hq', rfl⟩ := List.mem_map.mp hq
    have hlow : (BitVec.ofNat 64 (i * 4096), BitVec.ofNat 64 (i * 4096)) ∈ lowPages :=
      mem_lowPages (by omega) (by omega)
    exact Finset.mem_image.mpr ⟨q', mem_listPlaces.mpr ⟨_, hlow, hq'⟩, rfl⟩
  calc (listPlaces (linearPages n)).card
      ≤ ((listPlaces lowPages).image fun q : List Index => 511 :: q.tail).card :=
        Finset.card_le_card hsub
    _ ≤ (listPlaces lowPages).card := Finset.card_image_le
    _ ≤ 1027 := card_lowPages_le

/-! ## `kmain` -/

variable {roots : Set Word} {live : List (List Nat)} {m : Mmu}

/-- If the call succeeds, all its pages are mapped, and nothing else under TTBR1 changes. -/
theorem Good.kmainMap (h : m.Good roots live) (hsame : m.ttbr1 = m.ttbr1Pgd)
    (htotal : m.pmm.pagesTotal ≤ 2 ^ 20) (hrc : m.kmainMap.1 = 0) :
    m.ttbr1 ∈ roots ∧ m.kmainMap.2.Good roots live ∧ m.kmainMap.2.ttbr1 = m.ttbr1 ∧
      m.kmainMap.2.pmm.memBase = m.pmm.memBase ∧ m.kmainMap.2.pmm.pagesTotal = m.pmm.pagesTotal ∧
      (∀ x ∈ linearPages m.pmm.pagesTotal,
        m.kmainMap.2.leaf m.ttbr1 x.1 = some (pageDescriptor x.2 kmainAttrs)) ∧
      ∀ va, (∀ x ∈ linearPages m.pmm.pagesTotal, pageOf x.1 ≠ pageOf va) →
        m.kmainMap.2.leaf m.ttbr1 va = m.leaf m.ttbr1 va := by
  have hgood : m.kmainMap.2.Good roots live := h.mapRegion 0 _ kmainAttrs
  have hedits : Edits roots m.ttbr1Pgd Set.univ m m.kmainMap.2 := h.mapRegion_edits 0 _ kmainAttrs
  have hsize : (BitVec.ofNat 64 m.pmm.pagesTotal * 4096 : Word).toNat = m.pmm.pagesTotal * 4096 := by
    rw [BitVec.toNat_mul, BitVec.toNat_ofNat, show (4096 : Word).toNat = 4096 from rfl]
    omega
  have hb : (0 : Word).toNat + (BitVec.ofNat 64 m.pmm.pagesTotal * 4096 : Word).toNat < 2 ^ 39 := by
    rw [hsize, show (0 : Word).toNat = 0 from rfl]
    omega
  have hcall := h.regionCall hsame hb hrc
  have hpages := regionPages_zero (n := m.pmm.pagesTotal) (by omega)
  refine ⟨?_, hgood, hedits.ttbr1, hedits.takes.grows.base, hedits.takes.grows.total, ?_, ?_⟩
  · exact hsame ▸ h.rooted.ttbr1Pgd (mapRegion_zero hrc).1
  · exact hpages ▸ hcall.entry
  · exact hpages ▸ hcall.other

/-- With enough pages for the tables the call succeeds, and takes no other pages. -/
theorem Good.kmainMap_succeeds (h : m.Good roots live) (hne : m.ttbr1Pgd ≠ 0)
    (htotal : m.pmm.pagesTotal * 4096 ≤ 0x80000000) (hroom : 1027 ≤ m.pmm.pagesFree) :
    m.kmainMap.1 = 0 ∧ m.pmm.pagesFree ≤ m.kmainMap.2.pmm.pagesFree + 1027 := by
  have hcard := card_linearPages_le htotal
  have hpages := regionPages_zero (n := m.pmm.pagesTotal) (by omega)
  have hrc : m.kmainMap.1 = 0 := h.mapRegion_succeeds hne (by rw [hpages]; omega)
  obtain ⟨-, -, heq⟩ := mapRegion_zero hrc
  have hfree := h.inv.mapPagesList_free (h.rooted.ttbr1Pgd hne) kmainAttrs (linearPages m.pmm.pagesTotal)
  refine ⟨hrc, ?_⟩
  rw [Mmu.kmainMap, heq, hpages]
  exact hfree.trans (Nat.add_le_add_left hcard _)

end Mmu

namespace KmemSys

open Mmu

variable {steps : Nat} {s : KmemSys}

/-- Calls of `vmalloc` and `vfree`. -/
def Heap : KmemOp → Prop
  | .heap _ => True
  | .mm _ => False

/-- The tables after `kmain` has mapped physical memory. -/
def kmainBoot (p : Pmm) (mem : Word → Word) (img : Image) : Int × Mmu :=
  ((⟨p, mem, 0, 0, 0, 0, []⟩ : Mmu).init img).enable.kmainMap

/-- If the map was made there were pages for the two roots. -/
theorem enabled_cases {env : BootEnv} {fuel : Nat} {p : Pmm} (hinit : env.pmmInitFromDtb fuel = some p)
    {mem : Word → Word} (hmap : (kmainBoot p mem env.image).1 = 0) :
    ∃ m roots, ((⟨p, mem, 0, 0, 0, 0, []⟩ : Mmu).init env.image).enable = m ∧ m.Good roots [] ∧
      m.ttbr1 = m.ttbr1Pgd ∧ m.pmm.memBase = p.memBase ∧ m.pmm.pagesTotal = p.pagesTotal := by
  rcases (MmSys.inv_initial hinit mem).init_cases env.image with
    ⟨-, -, hpgd, -⟩ | ⟨m, t0, t1, htwo, heq⟩
  · rw [kmainBoot] at hmap
    generalize (⟨p, mem, 0, 0, 0, 0, []⟩ : Mmu).init env.image = m at hpgd hmap
    have hrc : m.enable.kmainMap.1 = -1 := by
      rw [kmainMap, mapRegion, if_pos (show m.enable.ttbr1Pgd = 0 from hpgd)]
    exact absurd (hrc.symm.trans hmap) (by decide)
  · obtain ⟨hgood, -, hbase, htotal⟩ := htwo.mapBoot rfl env.image
    exact ⟨_, {t1, t0}, rfl, heq ▸ hgood.enable, rfl, heq ▸ hbase, heq ▸ htotal⟩

/-- Addresses of the map below 2 GiB are off the arena. -/
theorem not_mem_arena {pa : Word} (h : pa.toNat < 0x80000000) : pageOf (kernelBase + pa) ∉ arena := by
  rintro ⟨va, hlo, hhi, heq⟩
  have hnum := congrArg BitVec.toNat heq
  rw [pageOf_toNat, pageOf_toNat, kernelBase_add (by omega)] at hnum
  have hstart : vmallocStart.toNat = 0xFFFFFF8080000000 := by decide
  have hend : vmallocEnd.toNat = 0xFFFFFF80C0000000 := by decide
  omega

/-- **The linear map covers managed memory and stays**: if RAM starts at 0 and ends at 2 GiB or below,
in every run of `vmalloc` and `vfree` after a boot in which the map was made. -/
theorem linear_map_kept {env : BootEnv} {fuel : Nat} {p : Pmm}
    (hinit : env.pmmInitFromDtb fuel = some p) (hbase : p.memBase = 0)
    (htop : p.pagesTotal * 4096 ≤ 0x80000000) {mem : Word → Word}
    (hmap : (kmainBoot p mem env.image).1 = 0)
    (hreach : Machine.Reach (step steps) (fun s op => Heap op ∧ s.Valid op ∧ s.Safe steps op)
      (boot (kmainBoot p mem env.image).2) s) : s.mm.mmu.LinearMap := by
  obtain ⟨m, roots, heq, hgood, hsame, hbase', htotal'⟩ := enabled_cases hinit hmap
  rw [kmainBoot, heq] at hmap hreach
  have hcap : m.pmm.pagesTotal ≤ 2 ^ 20 := by omega
  obtain ⟨hroot, hgood', httbr, hbase₁, htotal₁, hmapped, -⟩ := hgood.kmainMap hsame hcap hmap
  generalize m.kmainMap.2 = m₁ at hreach hgood' httbr hbase₁ htotal₁ hmapped
  -- the frame of the run never changes, and it has the state after boot to compare with
  obtain ⟨F, hboot, hroots, hstart⟩ := inv_boot hgood'
  have hinv : ∃ own, s.Inv F own := by
    refine hreach.invariant (P := fun s : KmemSys => ∃ own, s.Inv F own) ⟨[], hboot⟩ ?_
    rintro s op s' ⟨own, hinv⟩ ⟨hheap, hvalid, hsafe⟩ hs
    cases op with
    | mm op => exact absurd hheap id
    | heap op =>
        cases op with
        | vmalloc size => exact hinv.vmalloc_step hsafe hs
        | vfree ptr size => exact hinv.vfree_step hvalid hsafe hs
  obtain ⟨own, hinv⟩ := hinv
  have hkeeps := hinv.backed.keeps
  rw [hroots, hstart, hinv.space] at hkeeps
  intro j hj
  have hj' : j < p.pagesTotal := by
    rw [hkeeps.total] at hj
    omega
  have hnat : (BitVec.ofNat 64 (j * 4096)).toNat = j * 4096 := by
    rw [BitVec.toNat_ofNat]
    omega
  have haddr : s.mm.mmu.pmm.pageToAddr j = BitVec.ofNat 64 (j * 4096) := by
    have hregion : (s.mm.mmu.pmm.pageToAddr j).toNat = s.mm.mmu.pmm.memBase.toNat + 4096 * j :=
      hinv.backed.good.inv.pmm.region.pageToAddr hj
    have hzero : s.mm.mmu.pmm.memBase.toNat = 0 := by
      rw [hkeeps.base, hbase₁, hbase', hbase]
      rfl
    apply BitVec.eq_of_toNat_eq
    omega
  have hleaf : s.mm.mmu.leaf s.mm.mmu.ttbr1 (kernelBase + BitVec.ofNat 64 (j * 4096))
      = some (pageDescriptor (BitVec.ofNat 64 (j * 4096)) kmainAttrs) := by
    have hout : pageOf (kernelBase + BitVec.ofNat 64 (j * 4096)) ∉ arena := not_mem_arena (by omega)
    rw [hkeeps.ttbr1, httbr, hkeeps.leaf m.ttbr1 hroot _ fun hc => hout hc.2]
    have hcount : j < m.pmm.pagesTotal := by omega
    exact hmapped (kernelBase + BitVec.ofNat 64 (j * 4096), BitVec.ofNat 64 (j * 4096))
      (mem_linearPages.mpr ⟨j, hcount, rfl⟩)
  have hfree : kmainAttrs &&& outputMask = 0 := by decide
  rw [haddr]
  exact ⟨_, hleaf, (pageDescriptor_fields (by omega) (by omega) hfree).1⟩

/-- With pages for the tables of both maps, the calls of `mmu_init` and of `kmain` succeed, and leave the
other pages free. -/
theorem kmainBoot_succeeds {env : BootEnv} {fuel : Nat} {p : Pmm}
    (hinit : env.pmmInitFromDtb fuel = some p) (mem : Word → Word) (img : Image)
    (hroom : 2056 + 3 * (highPages img).length ≤ p.pagesFree)
    (htop : p.pagesTotal * 4096 ≤ 0x80000000) :
    (kmainBoot p mem img).1 = 0 ∧ (∃ roots, (kmainBoot p mem img).2.Good roots []) ∧
      p.pagesFree ≤ (kmainBoot p mem img).2.pmm.pagesFree + 2056 + 3 * (highPages img).length := by
  have hmmu : kmainBoot p mem img = (MmSys.boot p mem img).mm.mmu.kmainMap := rfl
  have hsame : (MmSys.boot p mem img).mm.mmu.ttbr1 = (MmSys.boot p mem img).mm.mmu.ttbr1Pgd := rfl
  have hfree := MmSys.boot_free hinit mem img
  obtain ⟨-, -, htables⟩ := MmSys.good_boot hinit mem img
  have hne := (htables (by omega)).1
  rcases MmSys.boot_cases hinit mem img with ⟨hfew, -⟩ | ⟨-, t0, t1, -, -, hgood, -, -, -, -, htotal⟩
  · omega
  · rw [hmmu]
    rw [hsame] at hne
    obtain ⟨hrc, htaken⟩ := hgood.kmainMap_succeeds hne (by rw [htotal]; exact htop) (by omega)
    exact ⟨hrc, ⟨_, hgood.mapRegion 0 _ kmainAttrs⟩, by omega⟩

/-- A page is allocated and freed again. -/
theorem exists_vmalloc_vfree {roots : Set Word} {mmu : Mmu} (hgood : mmu.Good roots [])
    (hfree : 12 ≤ mmu.pmm.pagesFree) :
    ∃ s₁ s₂, (boot mmu).step 600 (.heap (.vmalloc 4096)) = some s₁ ∧
      s₁.sys.live = [(0xFFFFFF8080001000, 4096)] ∧
      s₁.step 600 (.heap (.vfree 0xFFFFFF8080001000 4096)) = some s₂ ∧
      Machine.Reach (step 600) (fun s op => Heap op ∧ s.Valid op ∧ s.Safe 600 op) (boot mmu) s₂ := by
  obtain ⟨F, hinv, -, -⟩ := inv_boot hgood
  obtain ⟨hsafe, k, -, hs₁, hapart⟩ := exists_first hgood hfree
  obtain ⟨own, hinv₁⟩ := hinv.vmalloc_step hsafe hs₁
  obtain ⟨k', hvfree, -⟩ := hinv₁.exists_vfree List.mem_cons_self hapart
    (show freePoolCap + 1 < 600 by rw [freePoolCap]; decide)
  have hs₂ : step 600 ⟨⟨k, [(0xFFFFFF8080001000, 4096)]⟩, []⟩ (.heap (.vfree 0xFFFFFF8080001000 4096))
      = some ⟨⟨k', []⟩, []⟩ := by
    rw [step, VmallocSys.step, hvfree]
    rfl
  refine ⟨_, _, hs₁, rfl, hs₂, ?_⟩
  exact .next (.heap (.vfree _ _)) (.next (.heap (.vmalloc 4096)) .start ⟨trivial, trivial, hsafe⟩ hs₁)
    ⟨trivial, List.mem_cons_self, hapart⟩ hs₂

/-- A machine with 1 GiB of RAM at address 0, after a page has been allocated and freed. -/
theorem linear_map_kept_at_zero :
    ∃ p s₁ s₂, (oneBank 0 0x40000000).pmmInitFromDtb 20 = some p ∧
      (kmainBoot p (fun _ => 0) (oneBank 0 0x40000000).image).1 = 0 ∧
      (boot (kmainBoot p (fun _ => 0) (oneBank 0 0x40000000).image).2).step 600 (.heap (.vmalloc 4096))
        = some s₁ ∧ s₁.sys.live = [(0xFFFFFF8080001000, 4096)] ∧
      s₁.step 600 (.heap (.vfree 0xFFFFFF8080001000 4096)) = some s₂ ∧ s₂.mm.mmu.LinearMap := by
  have hrun : ((oneBank 0 0x40000000).pmmInitFromDtb 20).map
      (fun p => (p.pagesFree, p.pagesTotal, p.memBase)) = some (261888, 262144, 0) := by
    decide +kernel
  obtain ⟨p, hinit, hp⟩ := Option.map_eq_some_iff.mp hrun
  simp only [Prod.mk.injEq] at hp
  obtain ⟨hfree, htotal, hbase⟩ := hp
  have hhigh : (highPages (oneBank 0 0x40000000).image).length = 20 := by decide +kernel
  obtain ⟨hmap, ⟨roots, hgood⟩, hleft⟩ := kmainBoot_succeeds hinit (fun _ => 0)
    (oneBank 0 0x40000000).image (by omega) (by omega)
  obtain ⟨s₁, s₂, hs₁, hlive, hs₂, hreach⟩ := exists_vmalloc_vfree hgood (by omega)
  exact ⟨p, s₁, s₂, hinit, hmap, hs₁, hlive, hs₂,
    linear_map_kept hinit hbase (by omega) hmap hreach⟩

/-- A machine with 1 GiB of RAM at 1 GiB: the map is made of the GiB below. The last page is not
mapped. -/
theorem linear_map_misses_ram :
    ∃ p, (oneBank 0x40000000 0x40000000).pmmInitFromDtb 20 = some p ∧
      (kmainBoot p (fun _ => 0) (oneBank 0x40000000 0x40000000).image).1 = 0 ∧
      ¬ (boot (kmainBoot p (fun _ => 0) (oneBank 0x40000000 0x40000000).image).2).mm.mmu.LinearMap := by
  obtain ⟨p, hinit, hfree, hbase, htotal⟩ := MmSys.init_oneGiB
  have hhigh : (highPages (oneBank 0x40000000 0x40000000).image).length = 20 := by decide +kernel
  obtain ⟨hmap, -, -⟩ := kmainBoot_succeeds hinit (fun _ => 0) (oneBank 0x40000000 0x40000000).image
    (by omega) (by omega)
  refine ⟨p, hinit, hmap, fun hlinear => ?_⟩
  obtain ⟨-, -, htables⟩ := MmSys.good_boot hinit (fun _ => 0) (oneBank 0x40000000 0x40000000).image
  obtain ⟨hne, hnone⟩ := htables (by omega)
  -- the image is in the first 2 MiB of RAM
  have hwalk := hnone [511, 1, 511] (List.cons_ne_nil _ _) (Nat.le_refl 3) (by decide +kernel)
  rcases MmSys.boot_cases hinit (fun _ => 0) (oneBank 0x40000000 0x40000000).image with
    ⟨hfew, -⟩ | ⟨-, t0, t1, -, -, hgood, -, -, -, hbase', htotal'⟩
  · omega
  have hmmu : kmainBoot p (fun _ => 0) (oneBank 0x40000000 0x40000000).image
      = (MmSys.boot p (fun _ => 0) (oneBank 0x40000000 0x40000000).image).mm.mmu.kmainMap := rfl
  have hsame : (MmSys.boot p (fun _ => 0) (oneBank 0x40000000 0x40000000).image).mm.mmu.ttbr1
      = (MmSys.boot p (fun _ => 0) (oneBank 0x40000000 0x40000000).image).mm.mmu.ttbr1Pgd := rfl
  rw [hmmu] at hlinear hmap
  generalize (MmSys.boot p (fun _ => 0) (oneBank 0x40000000 0x40000000).image).mm.mmu = m
    at hlinear hmap hne hwalk hgood hbase' htotal' hsame
  have hcap : m.pmm.pagesTotal ≤ 2 ^ 20 := by omega
  obtain ⟨-, hgood', httbr, hbase₁, htotal₁, -, hother⟩ := hgood.kmainMap hsame hcap hmap
  have hlast : 262143 < m.kmainMap.2.pmm.pagesTotal := by omega
  have haddr : m.kmainMap.2.pmm.pageToAddr 262143 = 0x7FFFF000 := by
    apply BitVec.eq_of_toNat_eq
    rw [hgood'.inv.pmm.region.pageToAddr hlast, hbase₁, hbase', hbase]
    rfl
  have hpath : tablePath (kernelBase + 0x7FFFF000) = [511, 1, 511] := by decide
  -- the page is behind the first GiB, and it was not mapped before
  have hunmapped : m.kmainMap.2.leaf m.ttbr1 (kernelBase + 0x7FFFF000) = none := by
    rw [hother _ fun x hx hpage => ?_, leaf_eq, hpath, hwalk]
    · rfl
    · obtain ⟨i, hi, rfl⟩ := mem_linearPages.mp hx
      have hnat : (BitVec.ofNat 64 (i * 4096)).toNat = i * 4096 := by
        rw [BitVec.toNat_ofNat]
        omega
      have hnum := congrArg BitVec.toNat hpage
      rw [pageOf_kernelBase (by omega), pageOf_kernelBase (by decide), hnat,
        show (0x7FFFF000 : Word).toNat = 0x7FFFF000 from rfl] at hnum
      omega
  obtain ⟨d, hleaf, -⟩ := hlinear 262143 hlast
  rw [show (boot m.kmainMap.2).mm.mmu = m.kmainMap.2 from rfl, haddr, httbr, hunmapped] at hleaf
  exact absurd hleaf.symm (Option.some_ne_none d)

end KmemSys

end Arcline
