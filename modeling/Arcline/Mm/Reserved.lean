import Arcline.Mm.DeviceTree
import Arcline.Mm.PmmOwn

set_option autoImplicit false

/-! # What boot reserves

On a flattened tree `pmm_init_from_dtb` has a result: all pages of the managed region are free but
those of the kernel image, the boot stack, the device tree blob, the UART and the first 1 MiB. The
regions below `/reserved-memory` are not among them.
-/

namespace Arcline

/-! ## The regions of a tree -/

namespace Fdt

/-- A big-endian number. -/
def beNat (bytes : List Byte) : Nat := bytes.foldl (fun n b => 256 * n + b.toNat) 0

/-- `count` tuples of an address and a size, with so many cells each. -/
def regTuples (addrCells sizeCells : Nat) : Nat → List Byte → List (Nat × Nat)
  | 0, _ => []
  | count + 1, data =>
      let rest := data.drop (4 * addrCells)
      (beNat (data.take (4 * addrCells)), beNat (rest.take (4 * sizeCells))) ::
        regTuples addrCells sizeCells count (rest.drop (4 * sizeCells))

namespace Node

def prop? (n : Node) (name : String) : Option (List Byte) :=
  (n.props.find? fun q => q.name == bytesOf name).map Property.data

/-- A cell count, or the default of the source. -/
def cells (n : Node) (name : String) : Nat :=
  ((n.prop? name).map fun data => beNat (data.take 4)).getD 2

/-- The regions in the `reg` property of a child of the node. -/
def regionsOf (n child : Node) : List (Nat × Nat) :=
  let addrCells := n.cells "#address-cells"
  let sizeCells := n.cells "#size-cells"
  let data := (child.prop? "reg").getD []
  regTuples addrCells sizeCells (data.length / (4 * (addrCells + sizeCells))) data

/-- The regions of all children of `/reserved-memory`. -/
def reservedRegions (root : Node) : List (Nat × Nat) :=
  (root.children.filter fun n => n.name == bytesOf "reserved-memory").flatMap fun n =>
    n.children.flatMap n.regionsOf

end Node

end Fdt

/-! ## The pages in use after boot -/

namespace Pmm

variable {p q : Pmm} {j : Nat}

def reserveAll (p : Pmm) (ranges : List (Word × Word)) : Pmm :=
  ranges.foldl (fun p r => p.reserveRange r.1 r.2) p

theorem reserveAll_nil (p : Pmm) : p.reserveAll [] = p := rfl

theorem reserveAll_cons (p : Pmm) (r : Word × Word) (ranges : List (Word × Word)) :
    p.reserveAll (r :: ranges) = (p.reserveRange r.1 r.2).reserveAll ranges := rfl

theorem reserveAll_append (p : Pmm) (l l' : List (Word × Word)) :
    p.reserveAll (l ++ l') = (p.reserveAll l).reserveAll l' := by
  rw [reserveAll, reserveAll, reserveAll, List.foldl_append]

theorem grows_reserveAll (p : Pmm) (ranges : List (Word × Word)) : p.Grows (p.reserveAll ranges) := by
  induction ranges generalizing p with
  | nil => exact .refl p
  | cons r ranges ih => exact (grows_reserveRange p r.1 r.2).trans (ih _)

/-- A page is in use after the reservations if it was before, or if one of them alone marks it. -/
theorem bitmap_reserveAll (hsame : p.SameRegion q) (hj : p.bitmap j = false)
    (ranges : List (Word × Word)) :
    (q.reserveAll ranges).bitmap j = true ↔
      q.bitmap j = true ∨ ∃ r ∈ ranges, (p.reserveRange r.1 r.2).bitmap j = true := by
  induction ranges generalizing q with
  | nil => simp [reserveAll]
  | cons r ranges ih =>
      obtain ⟨i, n, -, hrun⟩ := p.reserveRange_run r.1 r.2
      have hp : (p.reserveRange r.1 r.2).bitmap j = inRun i n j := by
        rw [hrun p (.refl p), reserveLoop_eq]
        simp [hj]
      have hq : (q.reserveRange r.1 r.2).bitmap j = (q.bitmap j || inRun i n j) := by
        rw [hrun q hsame, reserveLoop_eq]
      have hsame' : p.SameRegion (q.reserveRange r.1 r.2) := by
        have hgrows := grows_reserveRange q r.1 r.2
        exact ⟨hgrows.base.trans hsame.base, hgrows.size.trans hsame.size,
          hgrows.total.trans hsame.total⟩
      rw [reserveAll_cons, ih hsame', hq, Bool.or_eq_true, List.exists_mem_cons_iff, hp, or_assoc]

end Pmm

namespace BootEnv

open Pmm

/-- The blob at `dtb_ptr` is the flattened form of a tree. -/
structure HasTree (env : BootEnv) (root : Fdt.Node) : Prop where
  ptr : env.dtbPtr ≠ 0
  magic : Fdt.be32 env.fdt 0 = Fdt.magic
  encodes : Fdt.Encodes env.fdt (Fdt.offStruct env.fdt).toNat root.tokens

/-- There is no device tree. -/
def NoTree (env : BootEnv) : Prop := env.dtbPtr = 0 ∨ Fdt.be32 env.fdt 0 ≠ Fdt.magic

/-- The page of the UART. -/
def uartRanges (env : BootEnv) : List (Word × Word) :=
  match env.uartBase with
  | none => []
  | some base => if base = 0 then [] else [(pageDown base, pageSize)]

/-- The ranges reserved at boot: the kernel image, the boot stack, the blob of the tree, the UART, and
the first 1 MiB of the region. -/
def bootRanges (env : BootEnv) (base : Word) : List (Word × Word) :=
  (env.image.kernelStart, env.image.kernelEnd - env.image.kernelStart) ::
  (env.image.stackBottom, env.image.stackTop - env.image.stackBottom) ::
  ((if env.dtbPtr = 0 then [] else [(env.dtbPtr, (Fdt.totalSize env.fdt).setWidth 64)]) ++
    (env.uartRanges ++ [(base, 0x100000)]))

/-- Page `j` is in one of the ranges reserved at boot. -/
def BootReserved (env : BootEnv) (base size : Word) (j : Nat) : Prop :=
  ∃ r ∈ env.bootRanges base, ((freshPmm base size).reserveRange r.1 r.2).bitmap j = true

/-- The managed region is not empty. -/
theorem managedRegion_lt {env : BootEnv} {fuel : Nat} {r : Word × Word}
    (h : env.managedRegion fuel = some r) : r.1 < r.1 + r.2 := by
  unfold managedRegion at h
  obtain ⟨found, -, rfl⟩ := Option.map_eq_some_iff.mp h
  generalize orFallback (found.map Prod.snd) = q
  rw [wholePages]
  split
  · decide
  · rename_i hlt
    show pageUp q.1 < pageUp q.1 + (pageDown (q.1 + q.2) - pageUp q.1)
    rw [BitVec.add_comm, BitVec.sub_add_cancel]
    exact BitVec.not_le.mp hlt

/-- The stages of `pmm_init_from_dtb` that reserve something. -/
theorem reserveLow_eq {env : BootEnv} {fuel : Nat} {base size : Word}
    (hregion : env.managedRegion fuel = some (base, size)) :
    reserveLow (env.reserveUart (env.reserveDtbBlob (env.reserveImage (freshPmm base size)))) =
      (freshPmm base size).reserveAll (env.bootRanges base) := by
  have himage : ∀ p, env.reserveImage p =
      p.reserveAll [(env.image.kernelStart, env.image.kernelEnd - env.image.kernelStart),
        (env.image.stackBottom, env.image.stackTop - env.image.stackBottom)] := fun _ => rfl
  have hblob : ∀ p, env.reserveDtbBlob p =
      p.reserveAll (if env.dtbPtr = 0 then []
        else [(env.dtbPtr, (Fdt.totalSize env.fdt).setWidth 64)]) := by
    intro p
    unfold reserveDtbBlob
    split
    · rfl
    · rw [reserveAll_cons, reserveAll_nil]
  have huart : ∀ p, env.reserveUart p = p.reserveAll env.uartRanges := by
    intro p
    unfold reserveUart uartRanges
    cases env.uartBase with
    | none => rfl
    | some u =>
        dsimp only
        split
        · rfl
        · rw [reserveAll_cons, reserveAll_nil]
  set p := env.reserveUart (env.reserveDtbBlob (env.reserveImage (freshPmm base size))) with hp
  have hgrows : (freshPmm base size).Grows p :=
    ((env.grows_reserveImage _).trans (env.grows_reserveDtbBlob _)).trans (env.grows_reserveUart _)
  have hlow : reserveLow p = p.reserveAll [(base, 0x100000)] := by
    have hlt : (freshPmm base size).memBase <
        (freshPmm base size).memBase + (freshPmm base size).memSize := managedRegion_lt hregion
    unfold reserveLow
    rw [hgrows.base, hgrows.size, if_pos hlt, reserveAll_cons, reserveAll_nil]
    dsimp only [freshPmm]
  rw [hlow, hp, huart, hblob, himage, ← reserveAll_append, ← reserveAll_append,
    ← reserveAll_append]
  unfold bootRanges
  rw [List.cons_append, List.cons_append, List.nil_append]

/-- **Boot.** With a flattened tree or none, `pmm_init_from_dtb` has a result: the pages of the managed
region are free but for the ranges reserved at boot. -/
theorem pmmInitFromDtb_eq {env : BootEnv} (h : env.NoTree ∨ ∃ root, env.HasTree root) :
    ∃ steps, ∀ fuel, steps ≤ fuel → ∃ base size, env.managedRegion fuel = some (base, size) ∧
      env.pmmInitFromDtb fuel = some ((freshPmm base size).reserveAll (env.bootRanges base)) := by
  have hwalks : Fuel.Returns (fun fuel => env.managedRegion fuel) ∧
      ∀ p, Fuel.ReturnsAs (fun fuel => env.reserveReservedMemory fuel p) p := by
    rcases h with hno | ⟨root, htree⟩
    · refine ⟨?_, fun p => ⟨0, fun fuel _ => if_pos hno⟩⟩
      unfold NoTree at hno
      simp only [managedRegion, dtbFindMemoryRegion, if_pos hno]
      exact .pure _
    · have hsome : ¬ (env.dtbPtr = 0 ∨ Fdt.be32 env.fdt 0 ≠ Fdt.magic) :=
        not_or.mpr ⟨htree.ptr, not_not.mpr htree.magic⟩
      simp only [managedRegion, dtbFindMemoryRegion, reserveReservedMemory, if_neg hsome]
      constructor
      · obtain ⟨r, hr⟩ := htree.encodes.loop_returns (Fdt.memoryVisit env.fdt) _ rfl ⟨0, false, 2, 2, 0⟩
        exact ⟨_, hr.map _⟩
      · intro p
        obtain ⟨p', steps, hp'⟩ :=
          htree.encodes.loop_returns (Fdt.reservedVisit env.fdt) _ rfl (⟨0, 0, 2, 2⟩, p)
        obtain rfl := Fdt.reservedMemory_eq (hp' steps (Nat.le_refl steps))
        exact ⟨steps, hp'⟩
  obtain ⟨⟨⟨base, size⟩, n, hregion⟩, hwalk⟩ := hwalks
  obtain ⟨m, hwalk⟩ := hwalk (env.reserveDtbBlob (env.reserveImage (freshPmm base size)))
  refine ⟨n + m, fun fuel hfuel => ?_⟩
  have hregion : env.managedRegion fuel = some (base, size) := hregion fuel (by omega)
  refine ⟨base, size, hregion, ?_⟩
  unfold pmmInitFromDtb
  rw [hregion, Option.bind_some]
  have hwalk : env.reserveReservedMemory fuel _ = some _ := hwalk fuel (by omega)
  dsimp only
  rw [hwalk, Option.map_some, reserveLow_eq hregion]

/-- **The regions of `/reserved-memory`** are in use after boot just as far as they lie in ranges that
are reserved for another reason: `reserve_reserved_memory` walks over them and reserves nothing. -/
theorem reserved_memory_kept_iff {env : BootEnv} {root : Fdt.Node} (h : env.HasTree root) :
    ∃ steps, ∀ fuel, steps ≤ fuel → ∃ base size p, env.managedRegion fuel = some (base, size) ∧
      env.pmmInitFromDtb fuel = some p ∧
      ((∀ j < p.pagesTotal, ∀ r ∈ root.reservedRegions, p.Touches j r.1 r.2 → p.bitmap j = true) ↔
        ∀ j < p.pagesTotal, ∀ r ∈ root.reservedRegions, p.Touches j r.1 r.2 →
          env.BootReserved base size j) := by
  obtain ⟨steps, hinit⟩ := pmmInitFromDtb_eq (.inr ⟨root, h⟩)
  refine ⟨steps, fun fuel hfuel => ?_⟩
  obtain ⟨base, size, hregion, hp⟩ := hinit fuel hfuel
  refine ⟨base, size, _, hregion, hp, ?_⟩
  have hgrows := grows_reserveAll (freshPmm base size) (env.bootRanges base)
  have hbit : ∀ j < (freshPmm base size).pagesTotal,
      ((freshPmm base size).reserveAll (env.bootRanges base)).bitmap j = true ↔
        env.BootReserved base size j := by
    intro j hj
    have hfree : (freshPmm base size).bitmap j = false := by
      have hj' : j < min (size / pageSize).toNat pmmMaxPages := hj
      show (!decide (j < min (size / pageSize).toNat pmmMaxPages)) = false
      rw [decide_eq_true hj', Bool.not_true]
    rw [bitmap_reserveAll (.refl _) hfree, hfree]
    simp [BootReserved]
  constructor
  · intro hused j hj r hr ht
    exact (hbit j (hgrows.total ▸ hj)).mp (hused j hj r hr ht)
  · intro hboot j hj r hr ht
    exact (hbit j (hgrows.total ▸ hj)).mpr (hboot j hj r hr ht)

end BootEnv

/-! ## A tree with one reserved region -/

/-- The cells of a tree with 4 MiB of RAM at 1 GiB and one reserved region. -/
def reservedTree (addr size : Word) : List (BitVec 32) :=
  [Fdt.magic, 228, 40, 196, 0, 17, 16, 0, 0, 0,
    Fdt.beginNode, 0, Fdt.beginNode, 0x6d656d6f, 0x72790000,
    Fdt.prop, 16, 0, 0, 0x40000000, 0, 0x400000,
    Fdt.endNode, Fdt.beginNode, 0x72657365, 0x72766564, 0x2d6d656d, 0x6f727900,
    Fdt.prop, 4, 4, 2, Fdt.prop, 4, 19, 2,
    Fdt.beginNode, 0x66770000,
    Fdt.prop, 16, 0, addr.extractLsb' 32 32, addr.extractLsb' 0 32,
      size.extractLsb' 32 32, size.extractLsb' 0 32,
    Fdt.endNode, Fdt.endNode, Fdt.endNode, Fdt.tokenEnd,
    0x72656700, 0x23616464, 0x72657373, 0x2d63656c, 0x6c730023, 0x73697a65, 0x2d63656c, 0x6c730000]

def wordBytes (w : Word) : List Byte := (List.range 8).map fun i => w.extractLsb' (8 * (7 - i)) 8

def reservedRoot (addr size : Word) : Fdt.Node :=
  .mk [] [] [
    .mk (Fdt.bytesOf "memory")
      [⟨Fdt.bytesOf "reg", wordBytes 0x40000000 ++ wordBytes 0x400000⟩] [],
    .mk (Fdt.bytesOf "reserved-memory")
      [⟨Fdt.bytesOf "#address-cells", [0, 0, 0, 2]⟩, ⟨Fdt.bytesOf "#size-cells", [0, 0, 0, 2]⟩]
      [.mk (Fdt.bytesOf "fw") [⟨Fdt.bytesOf "reg", wordBytes addr ++ wordBytes size⟩] []]]

def reservedBank (addr size : Word) : BootEnv :=
  { oneBank 0x40000000 0x400000 with fdt := blobByte (reservedTree addr size) }

/-- A region right above the first 1 MiB. -/
theorem hasTree_above : (reservedBank 0x40100000 0x1000).HasTree (reservedRoot 0x40100000 0x1000) := by
  refine ⟨?_, ?_, .beginNode ?_ ?_ ?_ (.beginNode ?_ ?_ ?_ (.prop ?_ ?_ ?_ ?_ (.endNode ?_
    (.beginNode ?_ ?_ ?_ (.prop ?_ ?_ ?_ ?_ (.prop ?_ ?_ ?_ ?_ (.beginNode ?_ ?_ ?_ (.prop ?_ ?_ ?_ ?_
    (.endNode ?_ (.endNode ?_ (.endNode ?_ (.done ?_ ?_))))))))))))⟩
  all_goals decide +kernel

theorem reserved_memory_kept_above :
    ∃ fuel base size p,
      (reservedBank 0x40100000 0x1000).managedRegion fuel = some (base, size) ∧
      (reservedBank 0x40100000 0x1000).pmmInitFromDtb fuel = some p ∧
      ((∀ j < p.pagesTotal, ∀ r ∈ (reservedRoot 0x40100000 0x1000).reservedRegions,
          p.Touches j r.1 r.2 → p.bitmap j = true) ↔
        ∀ j < p.pagesTotal, ∀ r ∈ (reservedRoot 0x40100000 0x1000).reservedRegions,
          p.Touches j r.1 r.2 → (reservedBank 0x40100000 0x1000).BootReserved base size j) := by
  obtain ⟨steps, h⟩ := BootEnv.reserved_memory_kept_iff hasTree_above
  exact ⟨steps, h steps (Nat.le_refl steps)⟩

/-- The first page that is handed out is the reserved one. -/
theorem pmm_hands_out_reserved_page :
    (reservedBank 0x40100000 0x1000).HasTree (reservedRoot 0x40100000 0x1000) ∧
      (reservedRoot 0x40100000 0x1000).reservedRegions = [(0x40100000, 0x1000)] ∧
      ∃ p, (reservedBank 0x40100000 0x1000).pmmInitFromDtb 60 = some p ∧ 256 < p.pagesTotal ∧
        p.Touches 256 0x40100000 0x1000 ∧ p.bitmap 256 = false ∧ p.allocPage.1 = 0x40100000 := by
  refine ⟨hasTree_above, by decide +kernel, ?_⟩
  have hrun : ((reservedBank 0x40100000 0x1000).pmmInitFromDtb 60).any (fun p => decide
      (256 < p.pagesTotal ∧ p.memBase = 0x40000000 ∧ p.bitmap 256 = false ∧
        p.allocPage.1 = 0x40100000)) = true := by decide +kernel
  obtain ⟨p, hp, hcheck⟩ := (Option.any_eq_true _ _).mp hrun
  obtain ⟨htotal, hbase, hbit, halloc⟩ := of_decide_eq_true hcheck
  refine ⟨p, hp, htotal, ?_, hbit, halloc⟩
  unfold Pmm.Touches
  rw [hbase]
  decide

end Arcline
