import Arcline.Mm.KmemRuns
import Arcline.Mm.VmallocBounds

set_option autoImplicit false

/-! # What `vmalloc` and `vfree` do to areas and physical pages

Three results over the runs of the allocator. The pages of a region that `vmalloc` returns are areas of
their own with physical pages of their own, and guard pages on both sides. A `vmalloc` that returns NULL
leaves areas and pages as they were. A `vfree` takes away the areas of the region and returns their pages,
and nothing else.

All three fail in runs with sizes near `2^64`: `(size + 4095) / 4096` and `total_size` wrap, so that the
region is smaller than the pages mapped from its start on. They also fail once the pool of areas is used
up, since `vmalloc` ignores what `vmm_map` returns.
-/

namespace Arcline

open Mmu

/-- `a` is an area of one page at `va`, with a page in use behind it that is no table. -/
structure Mm.HasPage (m : Mm) (va : Word) (a : Vma) : Prop where
  mem : a ∈ m.vmm.areas
  va : a.va = va
  size : a.size = 4096
  page : ∃ j ∈ m.mmu.held, a.pa = m.mmu.pmm.pageToAddr j

/-- The data pages of an allocation. -/
def pageCount (size : Word) : Nat := (size.toNat + 4095) / 4096

/-- The region of an allocation: readable and writable data pages between guard pages that are not
writable, no physical page behind two of them. -/
structure RegionAreas (m : Mm) (ptr size : Word) (lower upper : Vma) (data : List Vma) : Prop where
  before : m.HasPage (ptr - guardSize) lower ∧ lower.attrs &&& vmmAttrW = 0
  after : m.HasPage (ptr + BitVec.ofNat 64 (pageCount size) * 4096) upper ∧ upper.attrs &&& vmmAttrW = 0
  count : data.length = pageCount size
  pages : ∀ i a, data[i]? = some a → m.HasPage (ptr + BitVec.ofNat 64 i * 4096) a ∧
    a.attrs &&& vmmAttrR ≠ 0 ∧ a.attrs &&& vmmAttrW ≠ 0
  distinct : ((lower :: upper :: data).map Vma.pa).Nodup

/-- What a caller of `vmalloc` relies on: the region does not wrap, it is mapped, and its physical
pages were not in use before. -/
structure Allocated (m m' : Mm) (ptr size : Word) : Prop where
  fits : 4096 ≤ ptr.toNat ∧ ptr.toNat + pageCount size * 4096 + 4096 < 2 ^ 64
  region : ∃ lower upper data, RegionAreas m' ptr size lower upper data ∧
    ∀ a ∈ lower :: upper :: data, ∀ j ∈ m.mmu.held, a.pa ≠ m.mmu.pmm.pageToAddr j

/-- `vfree` takes away the areas of the region and returns their pages, and nothing else. -/
def Freed (m m' : Mm) (ptr size : Word) : Prop :=
  ∃ lower upper data, RegionAreas m ptr size lower upper data ∧
    m'.vmm.areas = m.vmm.areas \ {a | a ∈ lower :: upper :: data} ∧
    m'.mmu.held = m.mmu.held \ {j | ∃ a ∈ lower :: upper :: data, a.pa = m.mmu.pmm.pageToAddr j} ∧
    m'.mmu.pmm.pagesFree = m.mmu.pmm.pagesFree + (pageCount size + 2)

namespace KmemSys

variable {steps : Nat} {s : KmemSys} {F : Frame} {own rest xs : List PageArea} {m m' : Mm}
  {ptr size : Word}

/-! ## Areas of the list -/

theorem hasPage_of_backed (h : Backed F own m) {x : PageArea} (hx : x ∈ own) :
    m.HasPage x.va (F.vma x) where
  mem := h.mem_areas.mpr (.inr ⟨x, hx, rfl⟩)
  va := rfl
  size := rfl
  page := ⟨x.page, (h.held x.page).mpr (.inr ⟨x, hx, rfl⟩), (h.addr x).symm⟩

/-- The pages of a region on the list are mapped as they should be. -/
theorem regionAreas_of_backed (h : Backed F (xs ++ rest) m)
    (hxs : xs.map PageArea.slot = regionSlots (ptr, size)) (hsize : regionSize size < 2 ^ 64) :
    ∃ g ds g', xs = g :: (ds ++ [g']) ∧
      RegionAreas m ptr size (F.vma g) (F.vma g') (ds.map F.vma) := by
  obtain ⟨g, ds, g', rfl, hgva, hgattrs, hg'va, hg'attrs, hlen, hds⟩ := region_parts hxs
  have hcount : (dataPages size).toNat = pageCount size := dataPages_toNat hsize
  have hpages : dataPages size = BitVec.ofNat 64 (pageCount size) := by
    rw [← hcount, BitVec.ofNat_toNat, BitVec.setWidth_eq]
  have hmem : ∀ x ∈ g :: (ds ++ [g']), x ∈ g :: (ds ++ [g']) ++ rest :=
    fun x hx => List.mem_append_left _ hx
  refine ⟨g, ds, g', rfl, ⟨⟨hgva ▸ hasPage_of_backed h (hmem g (by simp)), ?_⟩, ⟨?_, ?_⟩, ?_,
    fun i a ha => ?_, ?_⟩⟩
  · show g.attrs &&& vmmAttrW = 0
    rw [hgattrs]
    decide
  · rw [← hpages, ← hg'va]
    exact hasPage_of_backed h (hmem g' (by simp))
  · show g'.attrs &&& vmmAttrW = 0
    rw [hg'attrs]
    decide
  · rw [List.length_map, hlen, hcount]
  · rw [List.getElem?_map] at ha
    obtain ⟨x, hx, rfl⟩ := Option.map_eq_some_iff.mp ha
    -- the slot of the page is the one of its index
    have hslot : (ds.map PageArea.slot)[i]? = some x.slot := by
      rw [List.getElem?_map, hx, Option.map_some]
    rw [hds, getElem?_slots] at hslot
    obtain ⟨attrs, hattrs, heq⟩ := Option.map_eq_some_iff.mp hslot
    have hdata : attrs = Mm.dataAttrs := List.eq_of_mem_replicate (List.mem_of_getElem? hattrs)
    have hva : x.va = ptr + BitVec.ofNat 64 i * 4096 := (congrArg Prod.fst heq).symm
    have hxattrs : x.attrs = Mm.dataAttrs := (congrArg Prod.snd heq).symm.trans hdata
    have hx' : x ∈ g :: (ds ++ [g']) := by simp [List.mem_of_getElem? hx]
    refine ⟨hva ▸ hasPage_of_backed h (hmem x hx'), ?_⟩
    show x.attrs &&& vmmAttrR ≠ 0 ∧ x.attrs &&& vmmAttrW ≠ 0
    rw [hxattrs]
    decide
  · have hall := h.nodup_pa
    rw [List.map_append, List.map_append] at hall
    refine List.Perm.nodup ?_ (List.nodup_append.mp hall).1
    simp only [List.map_cons, List.map_append, List.map_nil]
    exact (List.perm_append_singleton _ _).cons _

/-- Two states with one frame and one list have the same areas and the same pages in use. -/
theorem same_of_backed (h : Backed F own m) (h' : Backed F own m') :
    m'.vmm.areas = m.vmm.areas ∧ m'.mmu.held = m.mmu.held := by
  constructor
  · ext a
    rw [h.mem_areas, h'.mem_areas]
  · ext j
    rw [h.held, h'.held]

/-- The pages of new areas were not in use. -/
theorem fresh_of_backed (h : Backed F own m) (h' : Backed F (xs ++ own) m') {x : PageArea}
    (hx : x ∈ xs) {j : Nat} (hj : j ∈ m.mmu.held) : (F.vma x).pa ≠ m.mmu.pmm.pageToAddr j := by
  intro heq
  have htotal : m.mmu.pmm.pagesTotal = m'.mmu.pmm.pagesTotal :=
    h.keeps.total.trans h'.keeps.total.symm
  have hpage : x.page = j := by
    have hlt : x.page < m.mmu.pmm.pagesTotal := htotal ▸ h'.page_lt (List.mem_append_left _ hx)
    have haddr : m.mmu.pmm.pageToAddr x.page = m.mmu.pmm.pageToAddr j := (h.addr x).trans heq
    have hregion := h.good.inv.pmm.region
    calc x.page = m.mmu.pmm.addrToPage (m.mmu.pmm.pageToAddr x.page) :=
          (hregion.addrToPage_pageToAddr hlt).symm
      _ = m.mmu.pmm.addrToPage (m.mmu.pmm.pageToAddr j) := by rw [haddr]
      _ = j := hregion.addrToPage_pageToAddr hj.1
  rcases (h.held j).mp hj with hheld | ⟨y, hy, hyj⟩
  · exact h'.fresh x (List.mem_append_left _ hx) (hpage ▸ hheld)
  · have hnodup := h'.nodup_page
    rw [List.map_append] at hnodup
    exact (List.nodup_append.mp hnodup).2.2 x.page (List.mem_map_of_mem hx) y.page
      (List.mem_map_of_mem hy) (hpage.trans hyj.symm)

/-! ## Small machines -/

/-- The tables before `mmu_init`. -/
def idle (p : Pmm) : Mmu := ⟨p, fun _ => 0, 0, 0, 0, 0, []⟩

theorem started_idle (p : Pmm) (img : Image) : Started p (fun _ => 0) img (idle p) := .inl rfl

/-- Without tables the pages in use are those whose bit is set. -/
theorem mem_held_idle {m : Mmu} (h : m.ttbr1 = 0) {j : Nat} :
    j ∈ m.held ↔ j < m.pmm.pagesTotal ∧ m.pmm.bitmap j = true :=
  ⟨fun hj => ⟨hj.1, hj.2.1⟩, fun hj => ⟨hj.1, hj.2, fun hc => hc.1 h⟩⟩

/-- The pool is full at the start. -/
theorem room_boot {mmu : Mmu} (h : (dataPages size).toNat + 2 ≤ vmaPoolCap) : (boot mmu).Room size := by
  have hnone : (boot mmu).mm.vmm.areas = ∅ := by
    have hareas := (Mm.booted_refines mmu).areas_eq
    rw [show AddressSpace.empty.areas = ∅ from rfl, Finset.coe_empty] at hareas
    exact hareas
  rw [Room, hnone, Set.ncard_empty]
  omega

theorem one_page_room : (dataPages 4096).toNat + 2 ≤ vmaPoolCap := by
  rw [vmaPoolCap]
  decide

/-- The area that `find_exact` and the check of the size find. -/
def lookup (v : Vmm) (va size : Word) : Option Vma :=
  match v.findRange va size with
  | some (.ok n) => some (v.tree.val n)
  | _ => none

/-- `vfree` is given a live allocation other than the one at `ptr`. -/
def apartFrom (ptr : Word) (s : KmemSys) : KmemOp → Bool
  | .heap (.vmalloc _) => true
  | .heap (.vfree q size) => decide (q ≠ ptr) && decide ((q, size) ∈ s.sys.live)
  | .mm _ => false

theorem valid_of_apartFrom {s : KmemSys} {op : KmemOp} (h : apartFrom ptr s op = true) :
    s.Valid op ∧ ∀ size, op ≠ .heap (.vfree ptr size) := by
  cases op with
  | heap op =>
      cases op with
      | vmalloc size => exact ⟨trivial, fun _ hc => nomatch hc⟩
      | vfree q size =>
          simp only [apartFrom, Bool.and_eq_true, decide_eq_true_eq] at h
          refine ⟨h.2, fun size' hc => h.1 ?_⟩
          injection hc with hc
          injection hc
  | mm op => exact absurd h (by simp [apartFrom])

/-- A machine with ten free pages. -/
theorem init_tenPages :
    (oneBank 0x40000000 0x10A000).pmmInitFromDtb 20 = some (oneBankPmm 0x10A000 266) :=
  BootEnv.init_oneBank _ _ (by decide +kernel) (fun _ => rfl) (by decide) (by decide) (by decide)

/-- The first allocation of a page, where there are pages for its tables. No block is free then. -/
theorem exists_first {roots : Set Word} {mmu : Mmu} (hgood : mmu.Good roots [])
    (hfree : 12 ≤ mmu.pmm.pagesFree) :
    (boot mmu).Safe 600 (.heap (.vmalloc 4096)) ∧
      ∃ k, (boot mmu).sys.kmem.vmalloc 600 4096 = some (0xFFFFFF8080001000, k) ∧
        (boot mmu).step 600 (.heap (.vmalloc 4096)) = some ⟨⟨k, [(0xFFFFFF8080001000, 4096)]⟩, []⟩ ∧
        k.vm.Apart k.vm.freeBlocks (0xFFFFFF8080001000 - guardSize) (totalSize 4096) := by
  obtain ⟨F, hinv, -, -⟩ := inv_boot hgood
  have hwrap : (boot mmu).NoWrap 4096 := by
    show vmallocStart.toNat + regionSize 4096 < 2 ^ 64
    decide
  have hroom : (boot mmu).Room 4096 := room_boot one_page_room
  have hfind : (boot mmu).sys.kmem.vm.findFreeSpace 600 (totalSize 4096) = some (vmallocStart,
      { Vmalloc.boot with vmallocNext := vmallocStart + totalSize 4096 }) :=
    VmallocSys.findFreeSpace_boot (by decide)
  rcases hinv.populate hwrap hroom hfind with ⟨hzero, -⟩ |
    ⟨-, -, -, -, ⟨xs, m, hpop, -, -, -⟩ | ⟨m, -, -, hfew⟩⟩
  · exact absurd hzero (by decide)
  · have hpop : (boot mmu).sys.kmem.mm.populate vmallocStart (dataPages 4096) = some (true, m) := hpop
    have hcall : (boot mmu).sys.kmem.vmalloc 600 4096 = some (0xFFFFFF8080001000,
        ⟨m, { Vmalloc.boot with vmallocNext := vmallocStart + totalSize 4096 }⟩) := by
      rw [Kmem.vmalloc, if_neg (by decide), hfind, Option.bind_some, if_neg (by decide), hpop,
        Option.bind_some, if_pos rfl]
      rfl
    refine ⟨⟨⟨hwrap, ?_⟩, hroom⟩, _, hcall, ?_, ?_⟩
    · rintro base v ⟨hbase, -, m', hnone⟩
      obtain ⟨rfl, rfl⟩ := Prod.mk.inj (Option.some.inj (hfind.symm.trans hbase))
      exact absurd (hpop.symm.trans hnone) (by simp)
    · rw [step, VmallocSys.step, hcall]
      rfl
    · intro b hb
      have hnil : b ∈ Linked.nodes Vmalloc.boot.next freePoolCap none := hb
      rw [Linked.Chain.nodes_eq (Linked.chain_nil.mpr rfl) (Nat.zero_le _)] at hnil
      exact absurd hnil List.not_mem_nil
  · have hpages : (dataPages 4096).toNat = 1 := by decide
    have hfew : mmu.pmm.pagesFree < 4 * ((dataPages 4096).toNat + 2) := hfew
    omega

/-- A machine with 1 GiB of RAM, before `mmu_init`. -/
theorem good_idle :
    ∃ p roots, (oneBank 0x40000000 0x40000000).pmmInitFromDtb 20 = some p ∧ (idle p).Good roots [] ∧
      12 ≤ (idle p).pmm.pagesFree := by
  obtain ⟨p, hp, hfree, -⟩ := MmSys.init_oneGiB
  obtain ⟨roots, hgood⟩ := good_started hp (started_idle p _)
  exact ⟨p, roots, hp, hgood, hfree.symm ▸ (by decide)⟩

/-! ## `vmalloc` that succeeds -/

/-- **A pointer returned by `vmalloc` is the start of a region of its own**: in every run in which sizes
do not wrap, no region is put back next to a free block and the pool of areas is not used up. -/
theorem vmalloc_allocates {env : BootEnv} {fuel : Nat} {p : Pmm}
    (hinit : env.pmmInitFromDtb fuel = some p) {mem : Word → Word} {mmu : Mmu}
    (hstart : Started p mem env.image mmu)
    (hreach : Machine.Reach (step steps) (fun s op => s.Valid op ∧ s.Safe steps op) (boot mmu) s)
    (hwrap : s.NoWrap size) (hroom : s.Room size) {k : Kmem}
    (hcall : s.sys.kmem.vmalloc steps size = some (ptr, k)) (hptr : ptr ≠ 0) :
    Allocated s.mm k.mm ptr size := by
  obtain ⟨F, own, hinv⟩ := inv_of_reach hinit hstart hreach
  have hregion : regionSize size < 2 ^ 64 := Nat.lt_of_le_of_lt (Nat.le_add_left _ _) hwrap
  rcases hinv.vmalloc_cases hwrap hroom hcall with ⟨hzero, -⟩ |
    ⟨-, -, hpaged, ⟨blocks, free, lost, hv⟩, xs, hslots, hbacked, -⟩
  · exact absurd hzero hptr
  obtain ⟨g, ds, g', rfl, hareas⟩ := regionAreas_of_backed hbacked hslots hregion
  refine ⟨?_, F.vma g, F.vma g', ds.map F.vma, hareas, fun a ha j hj => ?_⟩
  · have hbound : vmallocStart.toNat ≤ ptr.toNat - 4096 ∧
        ptr.toNat - 4096 + regionSize size ≤ k.vm.vmallocNext.toNat :=
      hv.tiles.mem_bounds (s := region (ptr, size))
        (List.mem_append_left _ List.mem_cons_self) (regionSize_pos size)
    have hlow : (4096 : Nat) ≤ vmallocStart.toNat := by decide
    have htop := hpaged.top
    have hend : vmallocEnd.toNat < 2 ^ 64 := vmallocEnd.isLt
    rw [regionSize] at hbound
    rw [pageCount]
    omega
  · -- `a` is the area of one of the new pages
    have hx : ∃ x ∈ g :: (ds ++ [g']), F.vma x = a := by
      rcases List.mem_cons.mp ha with rfl | ha
      · exact ⟨g, by simp, rfl⟩
      rcases List.mem_cons.mp ha with rfl | ha
      · exact ⟨g', by simp, rfl⟩
      · obtain ⟨x, hx, rfl⟩ := List.mem_map.mp ha
        exact ⟨x, by simp [hx], rfl⟩
    obtain ⟨x, hx, rfl⟩ := hx
    exact fresh_of_backed hinv.backed hbacked hx hj

/-- The first allocation. -/
theorem vmalloc_allocates_first :
    ∃ p k, (oneBank 0x40000000 0x40000000).pmmInitFromDtb 20 = some p ∧
      (boot (idle p)).sys.kmem.vmalloc 600 4096 = some (0xFFFFFF8080001000, k) ∧
      Allocated (boot (idle p)).mm k.mm 0xFFFFFF8080001000 4096 := by
  obtain ⟨p, roots, hp, hgood, hfree⟩ := good_idle
  obtain ⟨⟨⟨hwrap, -⟩, hroom⟩, k, hcall, -, -⟩ := exists_first hgood hfree
  exact ⟨p, k, hp, hcall,
    vmalloc_allocates hp (started_idle p _) .start hwrap hroom hcall (by decide)⟩

/-- The largest size there is: `size + 4095` wraps, no data page is mapped, and at the pointer that
`vmalloc` returns there is the second guard page. -/
theorem vmalloc_maps_no_page :
    ∃ p k, (oneBank 0x40000000 0x10A000).pmmInitFromDtb 20 = some p ∧
      (boot (idle p)).sys.kmem.vmalloc 600 0xFFFFFFFFFFFFFFFF = some (0xFFFFFF8080001000, k) ∧
      lookup k.mm.vmm 0xFFFFFF8080001000 4096
        = some ⟨0xFFFFFF8080001000, 0x40101000, 4096, Mm.guardAttrs⟩ ∧
      k.mm.mmu.pmm.pagesFree = 8 ∧
      ¬ Allocated (boot (idle p)).mm k.mm 0xFFFFFF8080001000 0xFFFFFFFFFFFFFFFF := by
  have hrun : (((oneBank 0x40000000 0x10A000).pmmInitFromDtb 20).bind fun p =>
      ((boot (idle p)).sys.kmem.vmalloc 600 0xFFFFFFFFFFFFFFFF).map fun r =>
        (r.1, lookup r.2.mm.vmm 0xFFFFFF8080001000 4096, r.2.mm.mmu.pmm.pagesFree))
      = some (0xFFFFFF8080001000,
        some ⟨0xFFFFFF8080001000, 0x40101000, 4096, Mm.guardAttrs⟩, 8) := by
    rw [init_tenPages]
    decide +kernel
  obtain ⟨p, hp, hrun⟩ := Option.bind_eq_some_iff.mp hrun
  obtain ⟨⟨ptr, k⟩, hcall, heq⟩ := Option.map_eq_some_iff.mp hrun
  simp only [Prod.mk.injEq] at heq
  obtain ⟨rfl, hlookup, hfree⟩ := heq
  refine ⟨p, k, hp, hcall, hlookup, hfree, fun hall => ?_⟩
  have hfits := hall.fits.2
  exact absurd hfits (by rw [pageCount]; decide)

/-! ## `vmalloc` that fails -/

/-- **A `vmalloc` that returns NULL changes no area and no page in use**, tables aside. -/
theorem vmalloc_null_restores {env : BootEnv} {fuel : Nat} {p : Pmm}
    (hinit : env.pmmInitFromDtb fuel = some p) {mem : Word → Word} {mmu : Mmu}
    (hstart : Started p mem env.image mmu)
    (hreach : Machine.Reach (step steps) (fun s op => s.Valid op ∧ s.Safe steps op) (boot mmu) s)
    (hwrap : s.NoWrap size) (hroom : s.Room size) {k : Kmem}
    (hcall : s.sys.kmem.vmalloc steps size = some (0, k)) :
    k.mm.vmm.areas = s.mm.vmm.areas ∧ k.mm.mmu.held = s.mm.mmu.held := by
  obtain ⟨F, own, hinv⟩ := inv_of_reach hinit hstart hreach
  rcases hinv.vmalloc_cases hwrap hroom hcall with ⟨-, hbacked, -⟩ | ⟨hne, -⟩
  · exact same_of_backed hinv.backed hbacked
  · exact absurd rfl hne

/-- One page, on a machine with two free pages: the second guard page is missing. -/
theorem vmalloc_null_restores_first :
    ∃ p k, (oneBank 0x40000000 0x102000).pmmInitFromDtb 20 = some p ∧
      (boot (idle p)).sys.kmem.vmalloc 600 4096 = some (0, k) ∧
      k.mm.vmm.areas = (boot (idle p)).mm.vmm.areas ∧
      k.mm.mmu.held = (boot (idle p)).mm.mmu.held := by
  have hrun : (((oneBank 0x40000000 0x102000).pmmInitFromDtb 20).bind fun p =>
      ((boot (idle p)).sys.kmem.vmalloc 600 4096).map fun r => r.1) = some 0 := by
    rw [BootEnv.init_oneBank 0x102000 258 (by decide +kernel) (fun _ => rfl) (by decide) (by decide)
      (by decide)]
    decide +kernel
  obtain ⟨p, hp, hrun⟩ := Option.bind_eq_some_iff.mp hrun
  obtain ⟨⟨ptr, k⟩, hcall, rfl⟩ := Option.map_eq_some_iff.mp hrun
  have hwrap : (boot (idle p)).NoWrap 4096 := by
    show vmallocStart.toNat + regionSize 4096 < 2 ^ 64
    decide
  exact ⟨p, k, hp, hcall, vmalloc_null_restores hp (started_idle p _) .start hwrap
    (room_boot one_page_room) hcall⟩

/-- Two regions; the first one is freed, and made again one page smaller, so that a free block of one
page is left between them. -/
def besideRegion : List KmemOp :=
  [.heap (.vfree 0xFFFFFF8080001000 8192), .heap (.vmalloc 4096)]

/-- The run of two regions, and calls beside the second one: its pages 260 to 262 and their areas, first
after it is allocated, then around a `vmalloc` of `2^64 - 8191` bytes, and around its `vfree`. -/
theorem exists_beside :
    ∃ p s₀ s k k', (oneBank 0x40000000 0x10A000).pmmInitFromDtb 20 = some p ∧
      Machine.runWhile (step 600) (apartFrom 0xFFFFFF8080005000) (boot (idle p))
        [.heap (.vmalloc 8192), .heap (.vmalloc 4096)] = some s₀ ∧
      Machine.runWhile (step 600) (apartFrom 0xFFFFFF8080005000) s₀ besideRegion = some s ∧
      s.sys.kmem.vmalloc 600 0xFFFFFFFFFFFFE001 = some (0, k) ∧
      k.vfree 600 0xFFFFFF8080005000 4096 = some k' ∧
      [0xFFFFFF8080004000, 0xFFFFFF8080005000, 0xFFFFFF8080006000].map (lookup s₀.mm.vmm · 4096)
        = [some ⟨0xFFFFFF8080004000, 0x40104000, 4096, Mm.guardAttrs⟩,
          some ⟨0xFFFFFF8080005000, 0x40105000, 4096, Mm.dataAttrs⟩,
          some ⟨0xFFFFFF8080006000, 0x40106000, 4096, Mm.guardAttrs⟩] ∧
      (0xFFFFFF8080005000, 4096) ∈ s₀.sys.live ∧ s.mm.mmu.ttbr1 = 0 ∧
      260 < s.mm.mmu.pmm.pagesTotal ∧ s.mm.mmu.pmm.bitmap 260 = true ∧
      k.mm.mmu.pmm.bitmap 260 = false ∧ k.mm.mmu.pmm.pagesFree = 4 ∧ k'.mm.mmu.pmm.pagesFree = 4 := by
  have hrun : (((oneBank 0x40000000 0x10A000).pmmInitFromDtb 20).bind fun p =>
      (Machine.runWhile (step 600) (apartFrom 0xFFFFFF8080005000) (boot (idle p))
        [.heap (.vmalloc 8192), .heap (.vmalloc 4096)]).bind fun s₀ =>
      (Machine.runWhile (step 600) (apartFrom 0xFFFFFF8080005000) s₀ besideRegion).bind fun s =>
      (s.sys.kmem.vmalloc 600 0xFFFFFFFFFFFFE001).bind fun r =>
      (r.2.vfree 600 0xFFFFFF8080005000 4096).map fun k =>
        ([0xFFFFFF8080004000, 0xFFFFFF8080005000, 0xFFFFFF8080006000].map (lookup s₀.mm.vmm · 4096),
          [decide ((0xFFFFFF8080005000, 4096) ∈ s₀.sys.live), decide (r.1 = 0),
            decide (s.mm.mmu.ttbr1 = 0), decide (260 < s.mm.mmu.pmm.pagesTotal),
            s.mm.mmu.pmm.bitmap 260, r.2.mm.mmu.pmm.bitmap 260],
          [r.2.mm.mmu.pmm.pagesFree, k.mm.mmu.pmm.pagesFree]))
      = some ([some ⟨0xFFFFFF8080004000, 0x40104000, 4096, Mm.guardAttrs⟩,
          some ⟨0xFFFFFF8080005000, 0x40105000, 4096, Mm.dataAttrs⟩,
          some ⟨0xFFFFFF8080006000, 0x40106000, 4096, Mm.guardAttrs⟩],
        [true, true, true, true, true, false], [4, 4]) := by
    rw [init_tenPages]
    decide +kernel
  obtain ⟨p, hp, hrun⟩ := Option.bind_eq_some_iff.mp hrun
  obtain ⟨s₀, hs₀, hrun⟩ := Option.bind_eq_some_iff.mp hrun
  obtain ⟨s, hs, hrun⟩ := Option.bind_eq_some_iff.mp hrun
  obtain ⟨⟨ptr, k⟩, hcall, hrun⟩ := Option.bind_eq_some_iff.mp hrun
  obtain ⟨k', hfree, heq⟩ := Option.map_eq_some_iff.mp hrun
  simp only [Prod.mk.injEq] at heq
  obtain ⟨hareas, hbits, hcounts⟩ := heq
  simp only [List.cons.injEq, and_true, decide_eq_true_eq] at hbits hcounts
  obtain ⟨hlive, rfl, httbr, htotal, hbit, hbit'⟩ := hbits
  exact ⟨p, s₀, s, k, k', hp, hs₀, hs, hcall, hfree, hareas, hlive, httbr, htotal, hbit, hbit', hcounts⟩

/-- For `2^64 - 8191` bytes `total_size` wraps to one page, and `vmalloc` gets the block before the
second region. The areas of that region are in the way of its pages, so `vmm_map` fails, and when the
pages run out the areas and pages it takes back are those of the second region. -/
theorem vmalloc_null_unmaps_others :
    ∃ p s k, (oneBank 0x40000000 0x10A000).pmmInitFromDtb 20 = some p ∧
      Machine.Reach (step 600) (fun s op => s.Valid op) (boot (idle p)) s ∧
      s.sys.kmem.vmalloc 600 0xFFFFFFFFFFFFE001 = some (0, k) ∧
      (260 ∈ s.mm.mmu.held ∧ 260 ∉ k.mm.mmu.held) ∧
      ¬ (k.mm.vmm.areas = s.mm.vmm.areas ∧ k.mm.mmu.held = s.mm.mmu.held) := by
  obtain ⟨p, s₀, s, k, k', hp, hs₀, hs, hcall, -, -, -, httbr, htotal, hbit, hbit', -⟩ := exists_beside
  have hreach : ∀ {s s' : KmemSys} {ops : List KmemOp},
      Machine.runWhile (step 600) (apartFrom 0xFFFFFF8080005000) s ops = some s' →
        Machine.Reach (step 600) (fun s op => s.Valid op) s s' :=
    fun h => Machine.reach_of_runWhile (fun s op h => (valid_of_apartFrom h).1) h
  have hbefore : 260 ∈ s.mm.mmu.held := (mem_held_idle httbr).mpr ⟨htotal, hbit⟩
  have hafter : 260 ∉ k.mm.mmu.held := fun hc => absurd (hbit'.symm.trans hc.2.1) (by simp)
  refine ⟨p, s, k, hp, (hreach hs₀).trans (hreach hs), hcall, ⟨hbefore, hafter⟩, fun hsame => hafter ?_⟩
  rw [hsame.2]
  exact hbefore

/-! ## `vfree` -/

/-- The areas that stay when `xs` is taken off the list. -/
theorem areas_of_backed_append (h : Backed F (xs ++ rest) m) (h' : Backed F rest m') {a : Vma} :
    a ∈ m'.vmm.areas ↔ a ∈ m.vmm.areas ∧ ¬ ∃ x ∈ xs, F.vma x = a := by
  rw [h'.mem_areas, h.mem_areas]
  have hnodup := h.nodup_vma
  rw [List.map_append] at hnodup
  constructor
  · rintro (ha | ⟨y, hy, rfl⟩)
    · refine ⟨.inl ha, ?_⟩
      rintro ⟨x, hx, rfl⟩
      exact h.apart x (List.mem_append_left _ hx) ha
    · refine ⟨.inr ⟨y, List.mem_append_right _ hy, rfl⟩, ?_⟩
      rintro ⟨x, hx, heq⟩
      exact (List.nodup_append.mp hnodup).2.2 _ (List.mem_map_of_mem hx) _ (List.mem_map_of_mem hy) heq
  · rintro ⟨ha | ⟨y, hy, rfl⟩, hno⟩
    · exact .inl ha
    · rcases List.mem_append.mp hy with hy | hy
      · exact absurd ⟨y, hy, rfl⟩ hno
      · exact .inr ⟨y, hy, rfl⟩

/-- The pages that stay in use. -/
theorem held_of_backed_append (h : Backed F (xs ++ rest) m) (h' : Backed F rest m') {j : Nat} :
    j ∈ m'.mmu.held ↔ j ∈ m.mmu.held ∧ ¬ ∃ x ∈ xs, F.addr x = m.mmu.pmm.pageToAddr j := by
  have haddr : m'.mmu.pmm.pageToAddr j = m.mmu.pmm.pageToAddr j :=
    (h'.addr ⟨0, j, 0⟩).trans (h.addr ⟨0, j, 0⟩).symm
  constructor
  · intro hj
    refine ⟨?_, ?_⟩
    · rcases (h'.held j).mp hj with hj | ⟨y, hy, hyj⟩
      · exact (h.held j).mpr (.inl hj)
      · exact (h.held j).mpr (.inr ⟨y, List.mem_append_right _ hy, hyj⟩)
    · rintro ⟨x, hx, hpa⟩
      exact fresh_of_backed h' h hx hj (hpa.trans haddr.symm)
  · rintro ⟨hj, hno⟩
    rcases (h.held j).mp hj with hj | ⟨y, hy, rfl⟩
    · exact (h'.held j).mpr (.inl hj)
    · rcases List.mem_append.mp hy with hy | hy
      · exact absurd ⟨y, hy, (h.addr y).symm⟩ hno
      · exact (h'.held _).mpr (.inr ⟨y, hy, rfl⟩)

/-- What is left when the pages of a region are taken off the list. -/
theorem freed_of_backed (h : Backed F (xs ++ rest) m) (h' : Backed F rest m')
    (hxs : xs.map PageArea.slot = regionSlots (ptr, size)) (hsize : regionSize size < 2 ^ 64)
    (hfree : m'.mmu.pmm.pagesFree = m.mmu.pmm.pagesFree + (pageCount size + 2)) :
    Freed m m' ptr size := by
  obtain ⟨g, ds, g', rfl, hareas⟩ := regionAreas_of_backed h hxs hsize
  have hmem : ∀ a, a ∈ F.vma g :: F.vma g' :: ds.map F.vma ↔
      ∃ x ∈ g :: (ds ++ [g']), F.vma x = a := by
    intro a
    simp only [List.mem_cons, List.mem_map, List.mem_append, List.not_mem_nil, or_false]
    constructor
    · rintro (rfl | rfl | ⟨x, hx, rfl⟩)
      · exact ⟨g, .inl rfl, rfl⟩
      · exact ⟨g', .inr (.inr rfl), rfl⟩
      · exact ⟨x, .inr (.inl hx), rfl⟩
    · rintro ⟨x, rfl | hx | rfl, rfl⟩
      · exact .inl rfl
      · exact .inr (.inr ⟨x, hx, rfl⟩)
      · exact .inr (.inl rfl)
  refine ⟨F.vma g, F.vma g', ds.map F.vma, hareas, ?_, ?_, hfree⟩
  · ext a
    rw [Set.mem_sdiff, areas_of_backed_append h h']
    show _ ↔ _ ∧ ¬ a ∈ F.vma g :: F.vma g' :: ds.map F.vma
    rw [hmem]
  · ext j
    have hpage : (∃ a ∈ F.vma g :: F.vma g' :: ds.map F.vma, a.pa = m.mmu.pmm.pageToAddr j) ↔
        ∃ x ∈ g :: (ds ++ [g']), F.addr x = m.mmu.pmm.pageToAddr j := by
      constructor
      · rintro ⟨a, ha, hpa⟩
        obtain ⟨x, hx, rfl⟩ := (hmem a).mp ha
        exact ⟨x, hx, hpa⟩
      · rintro ⟨x, hx, hpa⟩
        exact ⟨F.vma x, (hmem _).mpr ⟨x, hx, rfl⟩, hpa⟩
    rw [Set.mem_sdiff, held_of_backed_append h h']
    show _ ↔ _ ∧ ¬ ∃ a ∈ F.vma g :: F.vma g' :: ds.map F.vma, a.pa = m.mmu.pmm.pageToAddr j
    rw [hpage]

/-- `vfree` of a live allocation that is not next to a free block. -/
theorem Inv.exists_vfree (h : s.Inv F own) (hlive : (ptr, size) ∈ s.sys.live)
    (hsafe : s.Safe steps (.heap (.vfree ptr size))) (hsteps : freePoolCap + 1 < steps) :
    ∃ k, s.sys.kmem.vfree steps ptr size = some k ∧ Freed s.mm k.mm ptr size := by
  obtain ⟨xs, rest, hperm, hxs, -⟩ := h.split_region hlive
  obtain ⟨hptr, -, hpos, blocks, free, lost, hv⟩ := h.span_live hlive
  have hbacked := h.backed.perm hperm.symm
  obtain ⟨m', hfree, hbacked', hcount⟩ := vfree_backed hbacked hxs hptr (h.sizes _ hlive) steps
  have hapart : s.vm.Apart s.vm.freeBlocks (ptr - guardSize) (totalSize size) := hsafe
  rw [hv.freeBlocks_eq] at hapart
  obtain ⟨vm, hadd⟩ := hv.addFreeSpace_ends hpos hapart hsteps
  have hregion : regionSize size < 2 ^ 64 := by
    have hbounds : ptr.toNat - 4096 + regionSize size ≤ vmallocEnd.toNat := (h.region_bounds hlive).2
    have hend : vmallocEnd.toNat < 2 ^ 64 := vmallocEnd.isLt
    omega
  refine ⟨⟨m', vm⟩, ?_, freed_of_backed hbacked hbacked' hxs hregion ?_⟩
  · rw [hfree, show s.sys.kmem.vm = s.vm from rfl, hadd, Option.map_some]
  · rw [hcount, dataPages_toNat hregion]
    rfl

/-- **`vfree` undoes `vmalloc`**: in every run as above, a `vfree` of a live allocation that is not next
to a free block returns, takes away the areas of the region and returns their pages, and nothing else;
and right after a `vmalloc` it restores areas and pages in use. -/
theorem vfree_undoes_vmalloc {env : BootEnv} {fuel : Nat} {p : Pmm}
    (hinit : env.pmmInitFromDtb fuel = some p) {mem : Word → Word} {mmu : Mmu}
    (hstart : Started p mem env.image mmu)
    (hreach : Machine.Reach (step steps) (fun s op => s.Valid op ∧ s.Safe steps op) (boot mmu) s)
    (hsteps : freePoolCap + 1 < steps) :
    (∀ ptr size, (ptr, size) ∈ s.sys.live → s.Safe steps (.heap (.vfree ptr size)) →
      ∃ k, s.sys.kmem.vfree steps ptr size = some k ∧ Freed s.mm k.mm ptr size) ∧
    ∀ size ptr k, s.NoWrap size → s.Room size → s.sys.kmem.vmalloc steps size = some (ptr, k) →
      ptr ≠ 0 → k.vm.Apart k.vm.freeBlocks (ptr - guardSize) (totalSize size) →
      ∃ k', k.vfree steps ptr size = some k' ∧
        k'.mm.vmm.areas = s.mm.vmm.areas ∧ k'.mm.mmu.held = s.mm.mmu.held := by
  obtain ⟨F, own, hinv⟩ := inv_of_reach hinit hstart hreach
  constructor
  · exact fun ptr size hlive hsafe => hinv.exists_vfree hlive hsafe hsteps
  · intro size ptr k hwrap hroom hcall hptr hapart
    have hregion : regionSize size < 2 ^ 64 := Nat.lt_of_le_of_lt (Nat.le_add_left _ _) hwrap
    rcases hinv.vmalloc_cases hwrap hroom hcall with ⟨hzero, -⟩ |
      ⟨-, hsize, hpaged, ⟨blocks, free, lost, hv⟩, xs, hslots, hbacked, -⟩
    · exact absurd hzero hptr
    obtain ⟨m', hfree, hbacked', -⟩ := vfree_backed hbacked hslots hptr hsize steps
    obtain ⟨-, -, -, hheld⟩ := VmallocSys.region_live hv
    rw [hv.freeBlocks_eq] at hapart
    obtain ⟨vm, hadd⟩ := hheld.addFreeSpace_ends
      (by rw [totalSize_toNat hregion]; exact regionSize_pos size) hapart hsteps
    refine ⟨⟨m', vm⟩, ?_, same_of_backed hinv.backed hbacked'⟩
    rw [hfree, hadd, Option.map_some]

/-- One page is allocated and freed. -/
theorem vfree_undoes_vmalloc_first :
    ∃ p k k', (oneBank 0x40000000 0x40000000).pmmInitFromDtb 20 = some p ∧
      (boot (idle p)).sys.kmem.vmalloc 600 4096 = some (0xFFFFFF8080001000, k) ∧
      k.vfree 600 0xFFFFFF8080001000 4096 = some k' ∧ Freed k.mm k'.mm 0xFFFFFF8080001000 4096 ∧
      k'.mm.vmm.areas = (boot (idle p)).mm.vmm.areas ∧
      k'.mm.mmu.held = (boot (idle p)).mm.mmu.held := by
  obtain ⟨p, roots, hp, hgood, hpages⟩ := good_idle
  obtain ⟨hsafe, k, hcall, hstep, hapart⟩ := exists_first hgood hpages
  have hsteps : freePoolCap + 1 < 600 := by
    rw [freePoolCap]
    decide
  have hreach : Machine.Reach (step 600) (fun s op => s.Valid op ∧ s.Safe 600 op) (boot (idle p))
      ⟨⟨k, [(0xFFFFFF8080001000, 4096)]⟩, []⟩ := .next (.heap (.vmalloc 4096)) .start ⟨trivial, hsafe⟩ hstep
  obtain ⟨k₁, hfree, hfreed⟩ := (vfree_undoes_vmalloc hp (started_idle p _) hreach hsteps).1
    0xFFFFFF8080001000 4096 List.mem_cons_self hapart
  obtain ⟨k₂, hfree', hsame⟩ := (vfree_undoes_vmalloc hp (started_idle p _) .start hsteps).2
    4096 0xFFFFFF8080001000 k hsafe.1.1 hsafe.2 hcall (by decide) hapart
  obtain rfl := Option.some.inj (hfree.symm.trans hfree')
  exact ⟨p, k, k₁, hp, hcall, hfree, hfreed, hsame⟩

/-- A region is allocated and its areas are in place. After calls on other regions only, of which the
last is the `vmalloc` that fails above, `vfree` of the region returns no page at all. -/
theorem vfree_returns_no_page :
    ∃ p s₀ s k, (oneBank 0x40000000 0x10A000).pmmInitFromDtb 20 = some p ∧
      Machine.Reach (step 600) (fun s op => s.Valid op) (boot (idle p)) s₀ ∧
      (0xFFFFFF8080005000, 4096) ∈ s₀.sys.live ∧
      lookup s₀.mm.vmm 0xFFFFFF8080004000 4096
        = some ⟨0xFFFFFF8080004000, 0x40104000, 4096, Mm.guardAttrs⟩ ∧
      lookup s₀.mm.vmm 0xFFFFFF8080005000 4096
        = some ⟨0xFFFFFF8080005000, 0x40105000, 4096, Mm.dataAttrs⟩ ∧
      lookup s₀.mm.vmm 0xFFFFFF8080006000 4096
        = some ⟨0xFFFFFF8080006000, 0x40106000, 4096, Mm.guardAttrs⟩ ∧
      Machine.Reach (step 600)
        (fun s op => s.Valid op ∧ ∀ size, op ≠ .heap (.vfree 0xFFFFFF8080005000 size)) s₀ s ∧
      s.sys.kmem.vfree 600 0xFFFFFF8080005000 4096 = some k ∧
      k.mm.mmu.pmm.pagesFree = s.mm.mmu.pmm.pagesFree ∧
      ¬ Freed s.mm k.mm 0xFFFFFF8080005000 4096 := by
  obtain ⟨p, s₀, s, k, k', hp, hs₀, hs, hcall, hfree, hareas, hlive, -, -, -, -, hbefore, hafter⟩ :=
    exists_beside
  simp only [List.map_cons, List.map_nil, List.cons.injEq, and_true] at hareas
  obtain ⟨hlower, hdata, hupper⟩ := hareas
  have hstep : s.step 600 (.heap (.vmalloc 0xFFFFFFFFFFFFE001)) = some ⟨⟨k, s.sys.live⟩, s.pages⟩ := by
    rw [step, VmallocSys.step, hcall]
    rfl
  have hreach : Machine.Reach (step 600)
      (fun s op => s.Valid op ∧ ∀ size, op ≠ .heap (.vfree 0xFFFFFF8080005000 size)) s₀
      ⟨⟨k, s.sys.live⟩, s.pages⟩ :=
    .next (.heap (.vmalloc 0xFFFFFFFFFFFFE001))
      (Machine.reach_of_runWhile (fun s op h => valid_of_apartFrom h) hs)
      ⟨trivial, fun _ hc => nomatch hc⟩ hstep
  refine ⟨p, s₀, _, k', hp, Machine.reach_of_runWhile (fun s op h => (valid_of_apartFrom h).1) hs₀, hlive,
    hlower, hdata, hupper, hreach, hfree, hafter.trans hbefore.symm, ?_⟩
  rintro ⟨lower, upper, data, -, -, -, hcount⟩
  rw [hafter, show KmemSys.mm ⟨⟨k, s.sys.live⟩, s.pages⟩ = k.mm from rfl, hbefore] at hcount
  omega

end KmemSys

end Arcline
