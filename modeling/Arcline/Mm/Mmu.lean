import Arcline.Mm.Pmm

set_option autoImplicit false

/-! # Page tables

Four levels of 512-entry tables; a virtual address selects an entry of each by its bits 47:39,
38:30, 29:21 and 20:12. Tables are pages of the physical allocator and are accessed at their
physical addresses. Memory is a map from addresses to 64-bit words; the entry `idx` of a table is the
word at `table + 8 * idx`.
-/

namespace Arcline

def pteValid : Word := 1 <<< 0
def pteTable : Word := 1 <<< 1
def ptePage : Word := 1 <<< 1
def pteAf : Word := 1 <<< 10
def pteRo : Word := 1 <<< 7
def pteShInner : Word := 3 <<< 8
def ptePxn : Word := 1 <<< 53
def pteUxn : Word := 1 <<< 54
def pteAttrIdx (x : Word) : Word := x <<< 2
def mairIdxDevice : Word := 0
def mairIdxNormal : Word := 2

/-- `VMM_KERNEL_VIRT_BASE`. -/
def kernelBase : Word := 0xFFFFFF8000000000

/-- The page tables and what their code uses: the page allocator, physical memory, the two root
tables as `mmu_init` leaves them, the two translation base registers, and the pages passed to a TLB
invalidation, last first. -/
structure Mmu where
  pmm : Pmm
  mem : Word → Word
  ttbr0Pgd : Word
  ttbr1Pgd : Word
  ttbr0 : Word
  ttbr1 : Word
  tlbi : List Word

def pgdIndex (va : Word) : Word := (va >>> 39) &&& 0x1FF
def pudIndex (va : Word) : Word := (va >>> 30) &&& 0x1FF
def pmdIndex (va : Word) : Word := (va >>> 21) &&& 0x1FF
def pteIndex (va : Word) : Word := (va >>> 12) &&& 0x1FF

/-- The address of an entry of a table. -/
def entryAddr (table idx : Word) : Word := table + 8 * idx

/-- `memset(p, 0, MMU_PAGE_SIZE)`. -/
def zeroPage (mem : Word → Word) (p : Word) : Word → Word :=
  fun a => if (a - p) < pageSize then 0 else mem a

namespace Mmu

def entry (m : Mmu) (table idx : Word) : Word := m.mem (entryAddr table idx)

def setEntry (m : Mmu) (table idx v : Word) : Mmu :=
  { m with mem := Function.update m.mem (entryAddr table idx) v }

/-- `alloc_table`: a zeroed page, or NULL. -/
def allocTable (m : Mmu) : Word × Mmu :=
  let (p, pmm) := m.pmm.allocPage
  let m := { m with pmm := pmm }
  if p = 0 then (0, m) else (p, { m with mem := zeroPage m.mem p })

/-- The table an entry points to, if the entry is valid. -/
def nextTable (m : Mmu) (table idx : Word) : Option Word :=
  if m.entry table idx &&& pteValid ≠ 0 then some (pageDown (m.entry table idx)) else none

/-- One level of `mmu_map_page`: follow the entry, after giving it a fresh table if it is not
valid; no table if there is no page left. -/
def ensureTable (m : Mmu) (table idx : Word) : Option Word × Mmu :=
  if m.entry table idx &&& pteValid ≠ 0 then (some (pageDown (m.entry table idx)), m)
  else
    let (t, m) := m.allocTable
    if t = 0 then (none, m)
    else
      let m := m.setEntry table idx (t ||| pteTable ||| pteValid)
      (some (pageDown (m.entry table idx)), m)

/-- `mmu_map_page`. -/
def mapPage (m : Mmu) (pgd va pa attrs : Word) : Int × Mmu :=
  match m.ensureTable pgd (pgdIndex va) with
  | (none, m) => (-1, m)
  | (some pud, m) =>
      match m.ensureTable pud (pudIndex va) with
      | (none, m) => (-1, m)
      | (some pmd, m) =>
          match m.ensureTable pmd (pmdIndex va) with
          | (none, m) => (-1, m)
          | (some pte, m) =>
              (0, m.setEntry pte (pteIndex va) (pageDown pa ||| attrs ||| pteAf ||| pteValid))

/-- The last-level table a walk from `pgd` reaches. -/
def leafTable (m : Mmu) (pgd va : Word) : Option Word :=
  ((m.nextTable pgd (pgdIndex va)).bind fun pud => m.nextTable pud (pudIndex va)).bind fun pmd =>
    m.nextTable pmd (pmdIndex va)

/-- `mmu_unmap_page`. -/
def unmapPage (m : Mmu) (pgd va : Word) : Int × Mmu :=
  match m.leafTable pgd va with
  | none => (-1, m)
  | some pte =>
      if m.entry pte (pteIndex va) &&& pteValid = 0 then (-1, m)
      else (0, m.setEntry pte (pteIndex va) 0)

/-- `mmu_update_page_attrs`. -/
def updatePageAttrs (m : Mmu) (pgd va attrs : Word) : Int × Mmu :=
  match m.leafTable pgd va with
  | none => (-1, m)
  | some pte =>
      if m.entry pte (pteIndex va) &&& pteValid = 0 then (-1, m)
      else
        let pa := pageDown (m.entry pte (pteIndex va))
        (0, m.setEntry pte (pteIndex va) (pa ||| attrs ||| pteAf ||| pteValid))

/-- `tlb_flush_range`: the pages from `va` up to `va + size`, which may wrap. -/
def tlbFlushRange (m : Mmu) (va size : Word) : Mmu :=
  { m with
    tlbi := ((pageOffsets (if va < va + size then size else 0)).map fun off => va + off).reverse
      ++ m.tlbi }

/-- The loop over the pages of a range that stops at the first page that cannot be mapped. -/
def mapPagesUntil (pgd : Word) (attrs : Word) : List (Word × Word) → Mmu → Int × Mmu
  | [], m => (0, m)
  | (va, pa) :: rest, m =>
      match m.mapPage pgd va pa attrs with
      | (0, m) => mapPagesUntil pgd attrs rest m
      | (_, m) => (-1, m)

end Mmu

/-- The addresses `start, start + 4096, …` below `stop`. -/
def pagesFrom (start stop : Word) : List Word :=
  (List.range ((stop.toNat - start.toNat + 4095) / 4096)).map fun i =>
    start + BitVec.ofNat 64 (i * 4096)

/-- Linker symbols: the kernel image and the boot stack. -/
structure Image where
  kernelStart : Word
  kernelEnd : Word
  stackBottom : Word
  stackTop : Word
  kernel_le : kernelStart ≤ kernelEnd
  stack_le : stackBottom ≤ stackTop

namespace Mmu

/-- `PTE_PAGE | PTE_SH_INNER | PTE_ATTR_IDX(MAIR_IDX_NORMAL)`, for the boot mappings. -/
def bootAttrs : Word := ptePage ||| pteShInner ||| pteAttrIdx mairIdxNormal

/-- The mappings `mmu_init` makes: the identity map of the first 2 GiB, then the kernel image and
the boot stack in the higher half. -/
def mapBoot (m : Mmu) (t0 t1 : Word) (img : Image) : Mmu :=
  let kstart := pageDown img.kernelStart
  let kend := pageUp img.kernelEnd
  let stackStart := pageDown img.stackBottom
  let stackEnd := pageUp img.stackTop
  let high := fun pa : Word => (kernelBase + pa, pa)
  let m := (m.mapPagesUntil t0 bootAttrs ((pagesFrom 0 0x80000000).map fun pa => (pa, pa))).2
  let (rc, m) := m.mapPagesUntil t1 bootAttrs ((pagesFrom kstart kend).map high)
  if rc < 0 then m
  else (m.mapPagesUntil t1 bootAttrs ((pagesFrom stackStart stackEnd).map high)).2

/-- `mmu_init`. -/
def init (m : Mmu) (img : Image) : Mmu :=
  let (t0, m) := m.allocTable
  let m := { m with ttbr0Pgd := t0 }
  let (t1, m) := m.allocTable
  let m := { m with ttbr1Pgd := t1 }
  if t0 = 0 ∨ t1 = 0 then m else m.mapBoot t0 t1 img

/-- `mmu_enable`, of which only the translation base registers matter here. -/
def enable (m : Mmu) : Mmu := { m with ttbr0 := m.ttbr0Pgd, ttbr1 := m.ttbr1Pgd }

/-- `mmu_map_region`. -/
def mapRegion (m : Mmu) (pa size attrs : Word) : Int × Mmu :=
  if m.ttbr1Pgd = 0 then (-1, m)
  else
    let paAligned := pageDown pa
    let sizeAligned := pageDown (size + (pageSize - 1))
    let pages := (pageOffsets sizeAligned).map fun off =>
      (kernelBase + paAligned + off, paAligned + off)
    let (rc, m) := m.mapPagesUntil m.ttbr1Pgd attrs pages
    if rc < 0 then (-1, m) else (0, m.tlbFlushRange (kernelBase + paAligned) sizeAligned)

end Mmu

end Arcline
