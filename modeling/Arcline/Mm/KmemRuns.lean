import Arcline.Mm.Populate
import Arcline.Mm.VmallocSpace

set_option autoImplicit false

/-! # The allocator of virtual memory and its physical pages

`vmalloc` and `vfree` at work beside other users of the memory managers, which map areas off the arena
and take physical pages for themselves. In every run in which sizes do not wrap, no region is put back
next to a free block and the pool of areas is not used up, the areas in the arena are the pages of the
live regions, each with a physical page of its own.
-/

namespace Arcline

open Mmu

/-! ## Areas off a range -/

def Vma.Outside (a : Vma) (lo hi : Nat) : Prop := a.stop ≤ lo ∨ hi ≤ a.va.toNat

/-- The range of a call lies off `[lo, hi)`. -/
def VmmOp.Outside (lo hi : Nat) : VmmOp → Prop
  | .map va _ size _ => va.toNat + size.toNat ≤ lo ∨ hi ≤ va.toNat
  | .unmap va size => va.toNat + size.toNat ≤ lo ∨ hi ≤ va.toNat
  | .protect va size _ => va.toNat + size.toNat ≤ lo ∨ hi ≤ va.toNat
  | .virtToPhys _ => True

namespace AddressSpace

theorem onArea_cases (A : AddressSpace) (va size : Word) (A' : AddressSpace) :
    (A.onArea va size A').2 = A ∨
      (∃ b ∈ A.areas, b.va = va ∧ b.size = size) ∧ (A.onArea va size A').2 = A' := by
  unfold onArea
  split
  · exact .inl rfl
  · split
    · exact .inl rfl
    · split
      · rename_i hex
        exact .inr ⟨hex, rfl⟩
      · exact .inl rfl

variable {A : AddressSpace} {lo hi : Nat} {a b : Vma}

/-- Of an area whose range is off `[lo, hi)`, the area that starts where it starts is too. -/
theorem outside_of_va (ha : a ∈ A.areas) (hb : b ∈ A.areas) (hva : a.va = b.va)
    (hout : b.va.toNat + b.size.toNat ≤ lo ∨ hi ≤ b.va.toNat) : a.Outside lo hi := by
  rw [eq_of_va ha hb hva]
  exact hout

/-- A call off the range leaves the other areas alone. -/
theorem mem_call {op : BoundedOp} (hop : op.1.Outside lo hi) (ha : ¬ a.Outside lo hi) :
    a ∈ (A.call op).2.areas ↔ a ∈ A.areas := by
  obtain ⟨op, hb⟩ := op
  cases op with
  | map va pa size attrs =>
      show a ∈ (A.map ⟨va, pa, size, attrs⟩ hb).2.areas ↔ _
      rcases A.map_cases ⟨va, pa, size, attrs⟩ hb with ⟨-, heq⟩ | ⟨hp, hno, heq⟩
      · rw [heq]
      · rw [heq]
        show a ∈ Insert.insert _ A.areas ↔ _
        rw [Finset.mem_insert]
        exact ⟨fun h => h.resolve_left fun he => ha (he ▸ hop), .inr⟩
  | unmap va size =>
      show a ∈ (A.onArea va size (A.remove va)).2.areas ↔ _
      rcases A.onArea_cases va size (A.remove va) with heq | ⟨⟨b, hmem, rfl, rfl⟩, heq⟩
      · rw [heq]
      · rw [heq]
        show a ∈ A.areas.filter _ ↔ _
        rw [Finset.mem_filter]
        exact ⟨And.left, fun h => ⟨h, fun hva => ha (outside_of_va h hmem hva hop)⟩⟩
  | protect va size attrs =>
      show a ∈ (A.onArea va size (A.setAttrs va attrs)).2.areas ↔ _
      rcases A.onArea_cases va size (A.setAttrs va attrs) with heq | ⟨⟨b, hmem, rfl, rfl⟩, heq⟩
      · rw [heq]
      · rw [heq]
        show a ∈ A.areas.image _ ↔ _
        rw [Finset.mem_image]
        constructor
        · rintro ⟨c, hc, rfl⟩
          by_cases hva : c.va = b.va
          · refine absurd ?_ ha
            rw [Vma.Outside, withAttrs_stop, withAttrs_va]
            exact outside_of_va hc hmem hva hop
          · rwa [withAttrs, if_neg hva]
        · intro h
          have hva : a.va ≠ b.va := fun hva => ha (outside_of_va h hmem hva hop)
          exact ⟨a, h, by rw [withAttrs, if_neg hva]⟩
  | virtToPhys va => exact Iff.rfl

/-- Only `vmm_map` adds an area. -/
theorem card_call (A : AddressSpace) (op : BoundedOp) :
    (A.call op).2.areas.card ≤ A.areas.card ∨
      (∃ va pa size attrs, op.1 = .map va pa size attrs) ∧
        (A.call op).2.areas.card ≤ A.areas.card + 1 := by
  obtain ⟨op, hb⟩ := op
  cases op with
  | map va pa size attrs =>
      refine .inr ⟨⟨va, pa, size, attrs, rfl⟩, ?_⟩
      show (A.map ⟨va, pa, size, attrs⟩ hb).2.areas.card ≤ _
      rcases A.map_cases ⟨va, pa, size, attrs⟩ hb with ⟨-, heq⟩ | ⟨hp, hno, heq⟩
      · rw [heq]
        omega
      · rw [heq]
        exact Finset.card_insert_le _ _
  | unmap va size =>
      left
      show (A.onArea va size (A.remove va)).2.areas.card ≤ _
      rcases A.onArea_cases va size (A.remove va) with heq | ⟨-, heq⟩
      · rw [heq]
      · rw [heq]
        exact Finset.card_filter_le _ _
  | protect va size attrs =>
      left
      show (A.onArea va size (A.setAttrs va attrs)).2.areas.card ≤ _
      rcases A.onArea_cases va size (A.setAttrs va attrs) with heq | ⟨-, heq⟩
      · rw [heq]
      · rw [heq]
        exact Finset.card_image_le
  | virtToPhys va => exact .inl (Nat.le_refl _)

end AddressSpace

/-- Pages set aside beside those of the callers stay set aside. -/
theorem PmmState.step_cons {s q : PmmState} {prot : Nat → Prop} {ps : List Nat} {op : PmmOp}
    (hinv : PmmState.Inv prot ⟨s.pmm, ps :: s.live⟩) (hown : s.Owns op) (hq : s.step op = some q) :
    PmmState.step ⟨s.pmm, ps :: s.live⟩ op = some ⟨q.pmm, ps :: q.live⟩ ∧
      PmmState.Owns ⟨s.pmm, ps :: s.live⟩ op := by
  -- the pages of an allocation go to the end of the list
  have halloc : ∀ count, PmmState.alloc ⟨s.pmm, ps :: s.live⟩ count
      = ⟨(s.alloc count).pmm, ps :: (s.alloc count).live⟩ := by
    intro count
    unfold PmmState.alloc
    dsimp only
    split <;> rfl
  -- a caller frees pages that are not set aside
  have hfree : ∀ addr count, s.OwnsRange addr count →
      PmmState.free ⟨s.pmm, ps :: s.live⟩ addr count
        = ⟨(s.free addr count).pmm, ps :: (s.free addr count).live⟩ ∧
      PmmState.OwnsRange ⟨s.pmm, ps :: s.live⟩ addr count := by
    rintro addr count ⟨first, haddr, hpages⟩
    refine ⟨?_, first, haddr, fun k hk => List.mem_append_right ps (hpages k hk)⟩
    have hkeep : ps.filter (fun j => !Pmm.inRun (s.pmm.addrToPage addr) count j) = ps := by
      refine List.filter_eq_self.mpr fun j hj => ?_
      simp only [Bool.not_eq_true', Pmm.inRun, decide_eq_false_iff_not]
      rintro ⟨hlo, hhi⟩
      have hfirst : first < s.pmm.pagesTotal :=
        (hinv.used _ (List.mem_append_right ps (hpages 0 (by omega)))).1
      have hpage : s.pmm.addrToPage addr = first := by
        rw [haddr]
        exact hinv.region.addrToPage_pageToAddr hfirst
      have hmem := hpages (j - first) (by omega)
      rw [show first + (j - first) = j by omega] at hmem
      exact (List.nodup_append.mp hinv.nodup).2.2 j hj j hmem rfl
    unfold PmmState.free
    dsimp only
    rw [List.map_cons, hkeep]
  cases op with
  | allocPages count =>
      obtain rfl := Option.some.inj hq
      exact ⟨congrArg some (halloc count), trivial⟩
  | allocPage =>
      obtain rfl := Option.some.inj hq
      exact ⟨congrArg some (halloc 1), trivial⟩
  | freePages addr count =>
      obtain rfl := Option.some.inj hq
      exact ⟨congrArg some (hfree addr count hown).1, (hfree addr count hown).2⟩
  | freePage addr =>
      obtain rfl := Option.some.inj hq
      exact ⟨congrArg some (hfree addr 1 hown).1, (hfree addr 1 hown).2⟩

theorem MmSys.step_cons {s s' : MmSys} {roots : Set Word} {ps : List Nat} {op : MmOp}
    (hgood : s.mm.mmu.Good roots (ps :: s.live)) (hown : s.Owns op) (hs : s.step op = some s') :
    (⟨s.mm, ps :: s.live⟩ : MmSys).step op = some ⟨s'.mm, ps :: s'.live⟩ ∧
      (⟨s.mm, ps :: s.live⟩ : MmSys).Owns op := by
  cases op with
  | vmm op =>
      obtain ⟨mm, hmm, rfl⟩ := Option.map_eq_some_iff.mp hs
      exact ⟨Option.map_eq_some_iff.mpr ⟨mm, hmm, rfl⟩, trivial⟩
  | mapRegion pa size attrs =>
      obtain rfl := Option.some.inj hs
      exact ⟨rfl, trivial⟩
  | store addr v =>
      obtain rfl := Option.some.inj hs
      obtain ⟨hal, j, hj, hpage⟩ := hown
      exact ⟨rfl, hal, j, List.mem_append_right ps hj, hpage⟩
  | pmm op =>
      obtain ⟨q, hq, rfl⟩ := Option.map_eq_some_iff.mp hs
      obtain ⟨hstep, howns⟩ := PmmState.step_cons (s := s.pages) hgood.inv.pmm hown hq
      exact ⟨Option.map_eq_some_iff.mpr ⟨_, hstep, rfl⟩, howns⟩

/-! ## The system -/

/-- The pages of the arena. -/
def arena : Set (BitVec 36) :=
  {n | ∃ va : Word, vmallocStart.toNat ≤ va.toNat ∧ va.toNat < vmallocEnd.toNat ∧ pageOf va = n}

/-- The pages of the region of an allocation, given by its pointer and size. -/
def regionSlots (a : Word × Word) : List (Word × BitVec 32) :=
  slots (a.1 - guardSize) (regionAttrs (dataPages a.2).toNat)

/-- The allocator with its live allocations, and the physical pages other callers have taken. -/
structure KmemSys where
  sys : VmallocSys
  pages : List (List Nat)

inductive KmemOp
  | heap (op : VmallocOp)
  | mm (op : MmOp)

namespace KmemSys

def mm (s : KmemSys) : Mm := s.sys.kmem.mm

def vm (s : KmemSys) : Vmalloc := s.sys.kmem.vm

/-- The memory managers as the other callers see them. -/
def callers (s : KmemSys) : MmSys := ⟨s.mm, s.pages⟩

def step (steps : Nat) (s : KmemSys) : KmemOp → Option KmemSys
  | .heap op => (s.sys.step steps op).map fun sys => ⟨sys, s.pages⟩
  | .mm op => (s.callers.step op).map fun c => ⟨⟨⟨c.mm, s.vm⟩, s.sys.live⟩, c.live⟩

/-- `vmm_init` on top of `mmu`, and the zeroed statics of the allocator. -/
def boot (mmu : Mmu) : KmemSys := ⟨VmallocSys.boot (Mm.booted mmu), []⟩

/-- What callers promise: `vfree` is given a live allocation, others free and write only pages they
own, and map, unmap and protect only ranges off the arena that do not wrap. -/
def Valid (s : KmemSys) : KmemOp → Prop
  | .heap (.vmalloc _) => True
  | .heap (.vfree ptr size) => (ptr, size) ∈ s.sys.live
  | .mm (.vmm op) => op.Bounded ∧ op.Outside vmallocStart.toNat vmallocEnd.toNat
  | .mm op => s.callers.Owns op

/-- The pool has a node for every page a `vmalloc` of `size` bytes can get. -/
def Room (s : KmemSys) (size : Word) : Prop :=
  s.mm.vmm.areas.ncard + min ((dataPages size).toNat + 2) s.mm.mmu.pmm.pagesFree ≤ vmaPoolCap

/-- The end of the space handed out does not wrap. -/
def NoWrap (s : KmemSys) (size : Word) : Prop :=
  s.vm.vmallocNext.toNat + regionSize size < 2 ^ 64

/-- Sizes do not wrap, no region is put back next to a free block, and the pool of areas is not used
up. -/
def Safe (steps : Nat) (s : KmemSys) : KmemOp → Prop
  | .heap (.vmalloc size) => s.sys.Safe steps (.vmalloc size) ∧ s.Room size
  | .heap (.vfree ptr size) => s.sys.Safe steps (.vfree ptr size)
  | .mm (.vmm (.map _ _ _ _)) => s.mm.vmm.areas.ncard < vmaPoolCap
  | .mm _ => True

/-- The invariant of runs: the list `own` has the pages of the live regions. -/
structure Inv (s : KmemSys) (F : Frame) (own : List PageArea) : Prop where
  backed : Backed F own s.mm
  pages : F.live = s.pages
  space : F.space = arena
  outside : ∀ a ∈ F.areas, a.Outside vmallocStart.toNat vmallocEnd.toNat
  rows : (own.map PageArea.slot).Perm (s.sys.live.flatMap regionSlots)
  spans : ∃ blocks free lost, s.vm.Inv blocks free (lost ++ s.sys.live.map region)
  paged : s.vm.Paged
  sizes : ∀ a ∈ s.sys.live, a.2 ≠ 0

variable {steps : Nat} {s s' : KmemSys} {F : Frame} {own : List PageArea}

/-! ## Where the regions are -/

variable {a : Word × Word} {size ptr : Word} {mmu : Mmu}

theorem Inv.region_bounds (h : s.Inv F own) (ha : a ∈ s.sys.live) :
    vmallocStart.toNat ≤ (region a).1 ∧ (region a).1 + (region a).2 ≤ vmallocEnd.toNat := by
  obtain ⟨blocks, free, lost, hv⟩ := h.spans
  have hmem : region a ∈ (lost ++ s.sys.live.map region) ++ blocks.map s.vm.span :=
    List.mem_append_left _ (List.mem_append_right _ (List.mem_map_of_mem ha))
  have hbound := hv.tiles.mem_bounds hmem (regionSize_pos a.2)
  have htop := h.paged.top
  omega

/-- The pages of a region lie in its span. -/
theorem slot_bounds {x : Word × BitVec 32} (hx : x ∈ regionSlots a)
    (hlo : vmallocStart.toNat ≤ (region a).1) (hhi : (region a).1 + (region a).2 ≤ vmallocEnd.toNat) :
    (region a).1 ≤ x.1.toNat ∧ x.1.toNat + 4096 ≤ (region a).1 + (region a).2 := by
  obtain ⟨ptr, size⟩ := a
  have hlo' : vmallocStart.toNat ≤ ptr.toNat - 4096 := hlo
  have hhi' : ptr.toNat - 4096 + regionSize size ≤ vmallocEnd.toNat := hhi
  have hstart : (4096 : Nat) ≤ vmallocStart.toNat := by decide
  have hend : vmallocEnd.toNat < 2 ^ 64 := vmallocEnd.isLt
  have hpages := dataPages_toNat (show regionSize size < 2 ^ 64 by omega)
  have hbase : (ptr - guardSize).toNat = ptr.toNat - 4096 :=
    BitVec.toNat_sub_of_le (BitVec.le_def.mpr (show 4096 ≤ ptr.toNat by omega))
  obtain ⟨i, hi, hva⟩ := mem_slots.mp hx
  have hlt : i < (dataPages size).toNat + 2 := by
    rw [← length_regionAttrs]
    exact (List.getElem?_eq_some_iff.mp hi).1
  have hregion : regionSize size = ((dataPages size).toNat + 2) * 4096 := by
    rw [hpages, regionSize]
    omega
  have hoff : (BitVec.ofNat 64 i * 4096 : Word).toNat = i * 4096 := by
    rw [BitVec.toNat_mul, BitVec.toNat_ofNat, show (4096 : Word).toNat = 4096 from rfl]
    omega
  have hnat : x.1.toNat = ptr.toNat - 4096 + i * 4096 := by
    rw [hva, BitVec.toNat_add, hbase, hoff]
    omega
  show ptr.toNat - 4096 ≤ x.1.toNat ∧ x.1.toNat + 4096 ≤ ptr.toNat - 4096 + regionSize size
  omega

/-- Every area of the list lies in a live region. -/
theorem Inv.own_bounds (h : s.Inv F own) {x : PageArea} (hx : x ∈ own) :
    ∃ a ∈ s.sys.live, (region a).1 ≤ x.va.toNat ∧ x.va.toNat + 4096 ≤ (region a).1 + (region a).2 := by
  have hmem : x.slot ∈ s.sys.live.flatMap regionSlots := h.rows.mem_iff.mp (List.mem_map_of_mem hx)
  obtain ⟨a, ha, hslot⟩ := List.mem_flatMap.mp hmem
  obtain ⟨hlo, hhi⟩ := h.region_bounds ha
  exact ⟨a, ha, slot_bounds hslot hlo hhi⟩

/-- No area of the list is off the arena. -/
theorem Inv.own_inside (h : s.Inv F own) {x : PageArea} (hx : x ∈ own) :
    ¬ (F.vma x).Outside vmallocStart.toNat vmallocEnd.toNat := by
  obtain ⟨a, ha, hlo, hhi⟩ := h.own_bounds hx
  have hbounds := h.region_bounds ha
  rintro (hstop | hstart)
  · have hstop : x.va.toNat + 4096 ≤ vmallocStart.toNat := hstop
    omega
  · have hstart : vmallocEnd.toNat ≤ x.va.toNat := hstart
    omega

/-! ## The other callers -/

/-- The state after a step of the others, once its areas are known. -/
theorem Inv.others (h : s.Inv F own) {c : MmSys} {A : AddressSpace}
    (hgood : c.mm.mmu.Good F.roots (own.map PageArea.page :: c.live))
    (hbase : c.mm.mmu.pmm.memBase = s.mm.mmu.pmm.memBase) (hA : c.mm.Refines A)
    (hareas : ∀ a, ¬ a.Outside vmallocStart.toNat vmallocEnd.toNat →
      (a ∈ A.areas ↔ a ∈ s.mm.vmm.areas)) :
    ∃ F', KmemSys.Inv ⟨⟨⟨c.mm, s.vm⟩, s.sys.live⟩, c.live⟩ F' own := by
  classical
  let areas := A.areas.filter fun a => a.Outside vmallocStart.toNat vmallocEnd.toNat
  let held := c.mm.mmu.held \ {j | ∃ x ∈ own, x.page = j}
  let F' : Frame := ⟨F.roots, c.live, areas, held, arena, c.mm.mmu⟩
  have hvma : ∀ x, F'.vma x = F.vma x := by
    intro x
    have haddr : F'.addr x = F.addr x := by
      show c.mm.mmu.pmm.pageToAddr x.page = F.addr x
      rw [← h.backed.addr x, Pmm.pageToAddr, Pmm.pageToAddr, hbase]
    rw [Frame.vma, Frame.vma, haddr]
  refine ⟨F', Backed.of_good rfl hgood hA (fun a => ?_) (fun x hx hin => ?_) (fun x hx => ?_), rfl, rfl,
    fun a ha => (Finset.mem_filter.mp ha).2, h.rows, h.spans, h.paged, h.sizes⟩
  · show _ ↔ a ∈ areas ∨ ∃ x ∈ own, F'.vma x = a
    simp only [hvma, areas, Finset.mem_filter]
    by_cases hout : a.Outside vmallocStart.toNat vmallocEnd.toNat
    · refine ⟨fun ha => .inl ⟨ha, hout⟩, ?_⟩
      rintro (ha | ⟨x, hx, rfl⟩)
      · exact ha.1
      · exact absurd hout (h.own_inside hx)
    · rw [hareas a hout, h.backed.mem_areas]
      constructor
      · rintro (ha | ha)
        · exact absurd (h.outside a ha) hout
        · exact .inr ha
      · rintro (ha | ha)
        · exact absurd ha.2 hout
        · exact .inr ha
  · have hout : (F'.vma x).Outside vmallocStart.toNat vmallocEnd.toNat := (Finset.mem_filter.mp hin).2
    rw [hvma] at hout
    exact h.own_inside hx hout
  · rw [← h.space]
    exact h.backed.inside x hx

theorem Inv.mm_step (h : s.Inv F own) {op : MmOp} (hvalid : s.Valid (.mm op))
    (hsafe : s.Safe steps (.mm op)) (hs : s.step steps (.mm op) = some s') : ∃ F', s'.Inv F' own := by
  obtain ⟨c, hc, rfl⟩ := Option.map_eq_some_iff.mp hs
  have hgood : s.callers.mm.mmu.Good F.roots (own.map PageArea.page :: s.callers.live) := by
    have hgood := h.backed.good
    rw [h.pages] at hgood
    exact hgood
  have hown : s.callers.Owns op := by
    cases op with
    | vmm op => trivial
    | mapRegion pa size attrs => trivial
    | pmm op => exact hvalid
    | store addr v => exact hvalid
  obtain ⟨hstep, howns⟩ := MmSys.step_cons hgood hown hc
  have hgood' := MmSys.good_step (s := ⟨s.mm, own.map PageArea.page :: s.pages⟩) hgood howns hstep
  obtain ⟨A, hA, -⟩ := h.backed.areas
  have hsame : ∀ a, a ∈ A.areas ↔ a ∈ s.mm.vmm.areas := by
    intro a
    rw [hA.areas_eq, Finset.mem_coe]
  -- the areas change in a call of the virtual memory manager only
  have hkeep : c.mm.vmm = s.mm.vmm → c.mm.mmu.pmm.memBase = s.mm.mmu.pmm.memBase →
      ∃ F', KmemSys.Inv ⟨⟨⟨c.mm, s.vm⟩, s.sys.live⟩, c.live⟩ F' own := by
    intro hvmm hbase
    refine h.others hgood' hbase (A := A) ?_ fun a _ => hsame a
    obtain ⟨t, free, hr⟩ := hA
    exact ⟨t, free, hvmm ▸ hr⟩
  cases op with
  | vmm op =>
      obtain ⟨mm, hmm, rfl⟩ := Option.map_eq_some_iff.mp hc
      obtain ⟨hbounded, hout⟩ := hvalid
      obtain ⟨t, free, hr⟩ := hA
      have hcap : (A.call ⟨op, hbounded⟩).2.areas.card ≤ vmaPoolCap := by
        have hcard := Mm.Refines.card hr
        have hlength := hr.inv.length
        rcases A.card_call ⟨op, hbounded⟩ with hle | ⟨⟨va, pa, size, attrs, rfl⟩, hle⟩
        · omega
        · have hroom : s.mm.vmm.areas.ncard < vmaPoolCap := hsafe
          rw [Mm.Refines.areas_eq ⟨t, free, hr⟩, Set.ncard_coe_finset] at hroom
          omega
      obtain ⟨m', hm', hr'⟩ := Mm.call_refines ⟨t, free, hr⟩ ⟨op, hbounded⟩ hcap
      have heq : m' = mm := by
        have hmm' : (s.mm.call op).map (fun r => r.2) = some mm := hmm
        rw [hm'] at hmm'
        exact Option.some.inj hmm'
      subst heq
      refine h.others hgood' ?_ hr' fun a ha => ?_
      · show m'.mmu.pmm.memBase = s.mm.mmu.pmm.memBase
        obtain ⟨S, hedit⟩ := h.backed.good.step_edits hmm
        exact hedit.takes.grows.base
      · rw [AddressSpace.mem_call hout ha]
        exact hsame a
  | mapRegion pa size attrs =>
      obtain rfl := Option.some.inj hc
      exact hkeep rfl (h.backed.good.mapRegion_edits pa size attrs).takes.grows.base
  | pmm op =>
      obtain ⟨q, hq, rfl⟩ := Option.map_eq_some_iff.mp hc
      have hinv := h.backed.good.inv.pmm
      rw [h.pages] at hinv
      obtain ⟨hstepq, hownsq⟩ := PmmState.step_cons (s := s.callers.pages) hinv hvalid hq
      obtain ⟨-, hbase, -⟩ := hinv.step hownsq hstepq
      exact hkeep rfl hbase
  | store addr v =>
      obtain rfl := Option.some.inj hc
      exact hkeep rfl rfl

/-! ## `vmalloc` -/

theorem totalSize_mod (size : Word) : (totalSize size).toNat % 4096 = 0 := by
  rw [totalSize, BitVec.toNat_add, BitVec.toNat_mul, show (4096 : Word).toNat = 4096 from rfl,
    show (2 * guardSize : Word).toNat = 8192 from rfl]
  omega

/-- A span that is free otherwise may be used for new areas. -/
theorem Inv.clear (h : s.Inv F own) {v : Vmalloc} {blocks free : List Nat} {lost : List (Nat × Nat)}
    {base size : Nat} (hv : v.Inv blocks free ((base, size) :: (lost ++ s.sys.live.map region)))
    (hpaged : v.Paged) (hpos : 0 < size) : Backed.Clear F own base (base + size) := by
  have hbound := hv.tiles.mem_bounds (List.mem_append_left _ List.mem_cons_self) hpos
  have htop := hpaged.top
  have hend : vmallocEnd.toNat < 2 ^ 64 := vmallocEnd.isLt
  simp only at hbound
  refine ⟨by omega, fun va hlo hhi => ?_, fun a ha => ?_, fun x hx => ?_⟩
  · rw [h.space]
    exact ⟨va, by omega, by omega, rfl⟩
  · rcases h.outside a ha with hout | hout
    · exact .inl (by omega)
    · exact .inr (by omega)
  · obtain ⟨a, ha, hlo, hhi⟩ := h.own_bounds hx
    have hmem : region a ∈ lost ++ s.sys.live.map region :=
      List.mem_append_right _ (List.mem_map_of_mem ha)
    have hdisj := hv.held_disjoint hmem hpos (regionSize_pos a.2)
    simp only at hdisj
    omega

/-- The pages of a new region, if its end does not wrap and there are nodes in the pool: they are added to
the list, or there are too few and nothing is. -/
theorem Inv.populate (h : s.Inv F own) {base : Word} {v : Vmalloc} (hwrap : s.NoWrap size)
    (hroom : s.Room size) (hfind : s.vm.findFreeSpace steps (totalSize size) = some (base, v)) :
    (base = 0 ∧ v = s.vm) ∨ (base ≠ 0 ∧ base.toNat % 4096 = 0 ∧ v.Paged ∧
      (∃ blocks free lost, v.Inv blocks free
        ((base.toNat, (totalSize size).toNat) :: (lost ++ s.sys.live.map region))) ∧
      ((∃ xs m, s.mm.populate base (dataPages size) = some (true, m) ∧
          xs.map PageArea.slot = slots base (regionAttrs (dataPages size).toNat) ∧
          Backed F (xs ++ own) m ∧
          s.mm.mmu.pmm.pagesFree ≤ m.mmu.pmm.pagesFree + 4 * ((dataPages size).toNat + 2)) ∨
        ∃ m, s.mm.populate base (dataPages size) = some (false, m) ∧ Backed F own m ∧
          s.mm.mmu.pmm.pagesFree < 4 * ((dataPages size).toNat + 2))) := by
  have hregion : regionSize size < 2 ^ 64 := Nat.lt_of_le_of_lt (Nat.le_add_left _ _) hwrap
  have htotal := totalSize_toNat hregion
  have hpages := dataPages_toNat hregion
  have hpos : 0 < (totalSize size).toNat := by
    rw [htotal]
    exact regionSize_pos size
  have hwrap' : s.vm.vmallocNext.toNat + (totalSize size).toNat < 2 ^ 64 := by
    rw [htotal]
    exact hwrap
  obtain ⟨blocks, free, lost, hinv⟩ := h.spans
  obtain ⟨hbase, hpaged⟩ := h.paged.findFreeSpace (totalSize_mod size) hfind
  rcases hinv.findFreeSpace hpos hwrap' hfind with ⟨hzero, rfl⟩ | ⟨hne, blocks', free', hv⟩
  · exact .inl ⟨hzero, rfl⟩
  have hspan : (totalSize size).toNat = ((dataPages size).toNat + 2) * 4096 := by
    rw [htotal, hpages, regionSize]
    omega
  have hclear := h.clear hv hpaged hpos
  rw [hspan] at hclear
  have hnodes : F.areas.card + own.length + min ((dataPages size).toNat + 2) s.mm.mmu.pmm.pagesFree
      ≤ vmaPoolCap := by
    rw [← h.backed.ncard_areas]
    exact hroom
  exact .inr ⟨hne, hbase, hpaged, ⟨blocks', free', lost, hv⟩, h.backed.populate hbase hclear hnodes⟩

/-- A call of `vmalloc` that does not wrap and finds nodes in the pool. If it fails, the list is what
it was, and the region may have to be put back; otherwise the pages of the region have been added. -/
theorem Inv.vmalloc_cases (h : s.Inv F own) {k : Kmem} (hwrap : s.NoWrap size) (hroom : s.Room size)
    (hcall : s.sys.kmem.vmalloc steps size = some (ptr, k)) :
    (ptr = 0 ∧ Backed F own k.mm ∧ (k.vm = s.vm ∨
      ∃ base v blocks free lost, s.sys.PutsBack steps size base v ∧
        v.addFreeSpace steps base (totalSize size) = some k.vm ∧ v.Paged ∧ base.toNat % 4096 = 0 ∧
        v.Inv blocks free ((base.toNat, (totalSize size).toNat) :: (lost ++ s.sys.live.map region)))) ∨
    (ptr ≠ 0 ∧ size ≠ 0 ∧ k.vm.Paged ∧
      (∃ blocks free lost, k.vm.Inv blocks free (region (ptr, size) :: (lost ++ s.sys.live.map region))) ∧
      ∃ xs, xs.map PageArea.slot = regionSlots (ptr, size) ∧ Backed F (xs ++ own) k.mm ∧
        s.mm.mmu.pmm.pagesFree ≤ k.mm.mmu.pmm.pagesFree + 4 * ((dataPages size).toNat + 2)) := by
  rcases Kmem.vmalloc_cases hcall with ⟨-, rfl, rfl⟩ | ⟨hsize, base, v, hfind, hcase⟩
  · exact .inl ⟨rfl, h.backed, .inl rfl⟩
  rcases h.populate hwrap hroom hfind with ⟨rfl, rfl⟩ |
    ⟨hne, hbase, hpaged, ⟨blocks, free, lost, hv⟩, hpopulate⟩
  · rcases hcase with ⟨-, rfl, rfl⟩ | ⟨hc, -⟩
    · exact .inl ⟨rfl, h.backed, .inl rfl⟩
    · exact absurd rfl hc
  rcases hcase with ⟨hc, -⟩ | ⟨-, ok, mm, hpop, hcase⟩
  · exact absurd hc hne
  rcases hpopulate with ⟨xs, m', hpop', hslots, hbacked, hfree⟩ | ⟨m', hpop', hbacked, -⟩
  · obtain ⟨rfl, rfl⟩ := Prod.mk.inj (Option.some.inj (hpop'.symm.trans hpop))
    rcases hcase with ⟨-, rfl, rfl⟩ | ⟨hc, -⟩
    · have hregion : regionSize size < 2 ^ 64 := Nat.lt_of_le_of_lt (Nat.le_add_left _ _) hwrap
      obtain ⟨hptr, heq⟩ := VmallocSys.region_eq hv hregion
      have hptrne : base + guardSize ≠ 0 := by
        rw [ne_eq, BitVec.toNat_eq, hptr]
        show ¬ base.toNat + 4096 = 0
        omega
      refine .inr ⟨hptrne, hsize, hpaged, ⟨blocks, free, lost, ?_⟩, xs, ?_, hbacked, hfree⟩
      · rw [heq]
        exact hv
      · rw [regionSlots, hslots, BitVec.add_sub_cancel]
    · exact absurd hc (by simp)
  · obtain ⟨rfl, rfl⟩ := Prod.mk.inj (Option.some.inj (hpop'.symm.trans hpop))
    rcases hcase with ⟨hc, -⟩ | ⟨-, rfl, vm, hadd, rfl⟩
    · exact absurd hc (by simp)
    · exact .inl ⟨rfl, hbacked, .inr ⟨base, v, blocks, free, lost, ⟨hfind, hne, m', hpop⟩, hadd, hpaged,
        hbase, hv⟩⟩

theorem Inv.vmalloc_step (h : s.Inv F own) (hsafe : s.Safe steps (.heap (.vmalloc size)))
    (hs : s.step steps (.heap (.vmalloc size)) = some s') : ∃ own', s'.Inv F own' := by
  obtain ⟨sys, hsys, rfl⟩ := Option.map_eq_some_iff.mp hs
  obtain ⟨⟨ptr, k⟩, hcall, rfl⟩ := Option.map_eq_some_iff.mp hsys
  obtain ⟨⟨hwrap, hback⟩, hroom⟩ := hsafe
  have htotal := totalSize_toNat (Nat.lt_of_le_of_lt (Nat.le_add_left _ _) hwrap)
  rcases h.vmalloc_cases hwrap hroom hcall with ⟨rfl, hbacked, hvm⟩ |
    ⟨hptr, hsize, hpaged, ⟨blocks, free, lost, hv⟩, xs, hslots, hbacked, -⟩
  · rcases hvm with hvm | ⟨base, v, blocks, free, lost, hputs, hadd, hpaged, hbase, hv⟩
    · exact ⟨own, hbacked, h.pages, h.space, h.outside, h.rows,
        show ∃ blocks free lost, k.vm.Inv blocks free (lost ++ s.sys.live.map region) by
          rw [hvm]; exact h.spans,
        show k.vm.Paged by rw [hvm]; exact h.paged, h.sizes⟩
    · have hapart := hback base v hputs
      rw [hv.freeBlocks_eq] at hapart
      obtain ⟨⟨lost', blocks', free', hv'⟩, hpaged'⟩ := hv.putBack hpaged hbase (totalSize_mod size)
        (by rw [htotal]; exact regionSize_pos size) hapart hadd
      refine ⟨own, hbacked, h.pages, h.space, h.outside, h.rows, ⟨blocks', free', lost' ++ lost, ?_⟩,
        hpaged', h.sizes⟩
      rw [List.append_assoc]
      exact hv'
  · refine ⟨xs ++ own, hbacked, h.pages, h.space, h.outside, ?_, ⟨blocks, free, lost, ?_⟩, hpaged,
      fun a ha => ?_⟩
    · show ((xs ++ own).map PageArea.slot).Perm
        ((if ptr = 0 then s.sys.live else (ptr, size) :: s.sys.live).flatMap regionSlots)
      rw [if_neg hptr, List.map_append, hslots, List.flatMap_cons]
      exact h.rows.append_left _
    · show k.vm.Inv blocks free
        (lost ++ (if ptr = 0 then s.sys.live else (ptr, size) :: s.sys.live).map region)
      rw [if_neg hptr, List.map_cons]
      exact hv.perm List.perm_middle
    · replace ha : a ∈ if ptr = 0 then s.sys.live else (ptr, size) :: s.sys.live := ha
      rw [if_neg hptr] at ha
      rcases List.mem_cons.mp ha with rfl | ha
      · exact hsize
      · exact h.sizes a ha

/-! ## `vfree` -/

/-- A list whose image is made of two parts is made of two parts, up to order. -/
theorem exists_parts {α β : Type} {f : α → β} {l : List α} {l₁ l₂ : List β}
    (h : (l.map f).Perm (l₁ ++ l₂)) : ∃ xs ys, l.Perm (xs ++ ys) ∧ xs.map f = l₁ ∧ ys.map f = l₂ := by
  have hcomp : Relation.Comp (· = List.map f ·) List.Perm (l₁ ++ l₂) l := by
    rw [List.eq_map_comp_perm]
    exact h.symm
  obtain ⟨z, hz, hperm⟩ := hcomp
  obtain ⟨xs, ys, rfl, hxs, hys⟩ := List.map_eq_append_iff.mp hz.symm
  exact ⟨xs, ys, hperm.symm, hxs, hys⟩

/-- The pages of a region: a guard page, the data pages, another guard page. -/
theorem region_parts {xs : List PageArea} (hxs : xs.map PageArea.slot = regionSlots (ptr, size)) :
    ∃ g ds g', xs = g :: (ds ++ [g']) ∧ g.va = ptr - guardSize ∧ g.attrs = Mm.guardAttrs ∧
      g'.va = ptr + dataPages size * 4096 ∧ g'.attrs = Mm.guardAttrs ∧
      ds.length = (dataPages size).toNat ∧
      ds.map PageArea.slot = slots ptr (List.replicate (dataPages size).toNat Mm.dataAttrs) := by
  have hback : ptr - guardSize + 4096 = ptr := BitVec.sub_add_cancel ptr 4096
  rw [regionSlots, regionAttrs, slots, slots_append, List.length_replicate, hback] at hxs
  obtain ⟨g, ys, rfl, hg, hys⟩ := List.map_eq_cons_iff.mp hxs
  obtain ⟨ds, gs, rfl, hds, hgs⟩ := List.map_eq_append_iff.mp hys
  obtain ⟨g', _, rfl, hg', hnil⟩ := List.map_eq_cons_iff.mp hgs
  obtain rfl := List.map_eq_nil_iff.mp hnil
  refine ⟨g, ds, g', rfl, congrArg Prod.fst hg, congrArg Prod.snd hg, ?_, congrArg Prod.snd hg', ?_, hds⟩
  · have hva : g'.va = ptr + BitVec.ofNat 64 (dataPages size).toNat * 4096 := congrArg Prod.fst hg'
    rwa [BitVec.ofNat_toNat, BitVec.setWidth_eq] at hva
  · have hcount := congrArg List.length hds
    rwa [List.length_map, length_slots, List.length_replicate] at hcount

/-- A call of `vfree` takes the pages of the region off the list, and then puts the span back. -/
theorem vfree_backed {k : Kmem} {xs rest : List PageArea} (h : Backed F (xs ++ rest) k.mm)
    (hxs : xs.map PageArea.slot = regionSlots (ptr, size)) (hptr : ptr ≠ 0) (hsize : size ≠ 0)
    (steps : Nat) :
    ∃ m, k.vfree steps ptr size
        = (k.vm.addFreeSpace steps (ptr - guardSize) (totalSize size)).map (fun vm => ⟨m, vm⟩) ∧
      Backed F rest m ∧ m.mmu.pmm.pagesFree = k.mm.mmu.pmm.pagesFree + ((dataPages size).toNat + 2) := by
  obtain ⟨g, ds, g', rfl, hgva, -, hg'va, -, hlen, hds⟩ := region_parts hxs
  have hperm : (ds ++ g :: g' :: rest).Perm (g :: (ds ++ [g']) ++ rest) := by
    calc (ds ++ g :: g' :: rest).Perm (g :: (ds ++ g' :: rest)) := List.perm_middle
      _ = g :: (ds ++ [g']) ++ rest := by simp
  obtain ⟨m₁, hdata, h₁, hfree₁⟩ := (h.perm hperm).releasePages ptr hds (i := 0) (by simp)
  obtain ⟨m₂, hguard, h₂, hfree₂⟩ := h₁.releasePage
  obtain ⟨m₃, hguard', h₃, hfree₃⟩ := h₂.releasePage
  refine ⟨m₃, ?_, h₃, by omega⟩
  rw [Kmem.vfree, if_neg (fun hc => hc.elim hptr hsize), ← hlen, hdata, ← hgva, ← hg'va,
    Option.bind_some, hguard, Option.bind_some, hguard', Option.bind_some]

/-- The pages of a live region in the list, and what is left of the invariant without them. -/
theorem Inv.split_region (h : s.Inv F own) (ha : a ∈ s.sys.live) :
    ∃ xs rest, own.Perm (xs ++ rest) ∧ xs.map PageArea.slot = regionSlots a ∧
      (rest.map PageArea.slot).Perm ((s.sys.live.erase a).flatMap regionSlots) := by
  have hrows : (own.map PageArea.slot).Perm
      (regionSlots a ++ (s.sys.live.erase a).flatMap regionSlots) :=
    h.rows.trans ((List.perm_cons_erase ha).flatMap_right regionSlots)
  obtain ⟨xs, rest, hperm, hxs, hrest⟩ := exists_parts hrows
  exact ⟨xs, rest, hperm, hxs, hrest ▸ List.Perm.refl _⟩

/-- The span of a live region as `vfree` computes it. -/
theorem Inv.span_live (h : s.Inv F own) (ha : (ptr, size) ∈ s.sys.live) :
    ptr ≠ 0 ∧ (ptr - guardSize).toNat % 4096 = 0 ∧ 0 < (totalSize size).toNat ∧
      ∃ blocks free lost, s.vm.Inv blocks free
        (((ptr - guardSize).toNat, (totalSize size).toNat) ::
          (lost ++ (s.sys.live.erase (ptr, size)).map region)) := by
  obtain ⟨blocks, free, lost, hinv⟩ := h.spans
  have hperm : (region (ptr, size) :: (lost ++ (s.sys.live.erase (ptr, size)).map region)).Perm
      (lost ++ s.sys.live.map region) := by
    refine List.perm_middle.symm.trans (List.Perm.append_left lost ?_)
    exact ((List.perm_cons_erase ha).map region).symm
  obtain ⟨hregion, hptr, -, hheld⟩ := VmallocSys.region_live (hinv.perm hperm)
  refine ⟨hptr, ?_, ?_, blocks, free, lost, hheld⟩
  · -- the guard page is an area, so its address is aligned
    obtain ⟨xs, rest, hown, hxs, -⟩ := h.split_region ha
    rw [regionSlots, regionAttrs, slots] at hxs
    obtain ⟨g, ys, rfl, hg, -⟩ := List.map_eq_cons_iff.mp hxs
    have hmem : g ∈ own := hown.mem_iff.mpr (by simp)
    obtain ⟨A, -, hareas⟩ := h.backed.areas
    have hplaced := A.placed (F.vma g) ((hareas _).mpr (.inr ⟨g, hmem, rfl⟩))
    have hva : g.va = ptr - guardSize := congrArg Prod.fst hg
    rw [← hva]
    exact pageOffset_eq_zero.mp hplaced.aligned.1
  · rw [totalSize_toNat hregion]
    exact regionSize_pos size

theorem Inv.vfree_step (h : s.Inv F own) (hvalid : s.Valid (.heap (.vfree ptr size)))
    (hsafe : s.Safe steps (.heap (.vfree ptr size)))
    (hs : s.step steps (.heap (.vfree ptr size)) = some s') : ∃ own', s'.Inv F own' := by
  obtain ⟨sys, hsys, rfl⟩ := Option.map_eq_some_iff.mp hs
  obtain ⟨k, hcall, rfl⟩ := Option.map_eq_some_iff.mp hsys
  have hlive : (ptr, size) ∈ s.sys.live := hvalid
  obtain ⟨xs, rest, hperm, hxs, hrest⟩ := h.split_region hlive
  obtain ⟨hptr, hbase, hpos, blocks, free, lost, hinv⟩ := h.span_live hlive
  obtain ⟨m, hfree, hbacked, -⟩ :=
    vfree_backed (h.backed.perm hperm.symm) hxs hptr (h.sizes _ hlive) steps
  obtain ⟨vm, hadd, rfl⟩ := Option.map_eq_some_iff.mp (hfree.symm.trans hcall)
  have hapart : s.vm.Apart s.vm.freeBlocks (ptr - guardSize) (totalSize size) := hsafe
  rw [hinv.freeBlocks_eq] at hapart
  obtain ⟨⟨lost', blocks', free', hv'⟩, hpaged'⟩ :=
    hinv.putBack h.paged hbase (totalSize_mod size) hpos hapart hadd
  refine ⟨rest, hbacked, h.pages, h.space, h.outside, hrest, ⟨blocks', free', lost' ++ lost, ?_⟩, hpaged',
    fun a ha => h.sizes a (List.mem_of_mem_erase ha)⟩
  rw [List.append_assoc]
  exact hv'

/-! ## Whole runs -/

/-- The tables before `mmu_init`, or after `mmu_enable`. -/
def Started (p : Pmm) (mem : Word → Word) (img : Image) (mmu : Mmu) : Prop :=
  mmu = ⟨p, mem, 0, 0, 0, 0, []⟩ ∨ mmu = ((⟨p, mem, 0, 0, 0, 0, []⟩ : Mmu).init img).enable

theorem inv_boot {roots : Set Word} (hgood : mmu.Good roots []) :
    ∃ F, (boot mmu).Inv F [] ∧ F.roots = roots ∧ F.start = mmu := by
  have hgood' : mmu.Good roots [[]] := hgood.perm (List.Perm.refl [])
  refine ⟨⟨roots, [], ∅, mmu.held \ {j | ∃ x ∈ ([] : List PageArea), x.page = j}, arena, mmu⟩,
    ⟨Backed.of_good rfl hgood' (Mm.booted_refines mmu) (fun a => ?_)
      (fun x hx => absurd hx List.not_mem_nil) (fun x hx => absurd hx List.not_mem_nil), rfl, rfl,
      fun a ha => absurd ha (Finset.notMem_empty a), List.Perm.refl _, ⟨[], [], [], Vmalloc.inv_boot⟩,
      Vmalloc.paged_boot, fun a ha => absurd ha List.not_mem_nil⟩, rfl, rfl⟩
  simp [AddressSpace.empty]

theorem good_started {env : BootEnv} {fuel : Nat} {p : Pmm} (hinit : env.pmmInitFromDtb fuel = some p)
    {mem : Word → Word} (hstart : Started p mem env.image mmu) : ∃ roots, mmu.Good roots [] := by
  rcases hstart with rfl | rfl
  · refine ⟨∅, MmSys.inv_initial hinit mem, ?_, ?_⟩
    · exact fun hc => absurd rfl hc
    · exact fun hc => absurd rfl hc
  · obtain ⟨roots, hgood, -⟩ := MmSys.good_boot hinit mem env.image
    exact ⟨roots, hgood⟩

theorem Inv.step (h : s.Inv F own) {op : KmemOp} (hvalid : s.Valid op) (hsafe : s.Safe steps op)
    (hs : s.step steps op = some s') : ∃ F' own', s'.Inv F' own' := by
  cases op with
  | heap op =>
      cases op with
      | vmalloc size => exact ⟨F, h.vmalloc_step hsafe hs⟩
      | vfree ptr size => exact ⟨F, h.vfree_step hvalid hsafe hs⟩
  | mm op =>
      obtain ⟨F', h'⟩ := h.mm_step hvalid hsafe hs
      exact ⟨F', own, h'⟩

/-- The invariant holds in every state reached. -/
theorem inv_of_reach {env : BootEnv} {fuel : Nat} {p : Pmm} (hinit : env.pmmInitFromDtb fuel = some p)
    {mem : Word → Word} (hstart : Started p mem env.image mmu)
    (hreach : Machine.Reach (step steps) (fun s op => s.Valid op ∧ s.Safe steps op) (boot mmu) s) :
    ∃ F own, s.Inv F own := by
  obtain ⟨roots, hgood⟩ := good_started hinit hstart
  obtain ⟨F, hboot, -, -⟩ := inv_boot hgood
  refine hreach.invariant (P := fun s => ∃ F own, s.Inv F own) ⟨F, [], hboot⟩ ?_
  rintro s op s' ⟨F, own, hinv⟩ ⟨hvalid, hsafe⟩ hs
  exact hinv.step hvalid hsafe hs

end KmemSys

end Arcline
