import Arcline.Mm.ReserveRange
import Arcline.Mm.VmmMap

set_option autoImplicit false

/-! # The memory managers at work

Boot sets up the page allocator, the area pool and the page tables, in this order; then areas are
mapped, unmapped and protected, physical memory is mapped to the higher half, and callers take pages,
write to them and give them back. The tables stay a forest of pages that no caller owns, whatever
happens to the area tree.
-/

namespace Arcline

open Radix

/-- The memory managers and the page numbers of the live allocations. -/
structure MmSys where
  mm : Mm
  live : List (List Nat)

inductive MmOp
  | vmm (op : VmmOp)
  | mapRegion (pa size attrs : Word)
  | pmm (op : PmmOp)
  | store (addr v : Word)

namespace MmSys

def pages (s : MmSys) : PmmState := ⟨s.mm.mmu.pmm, s.live⟩

def setMmu (s : MmSys) (mmu : Mmu) : MmSys := { s with mm := { s.mm with mmu := mmu } }

def step (s : MmSys) : MmOp → Option MmSys
  | .vmm op => (s.mm.step op).map fun mm => { s with mm := mm }
  | .mapRegion pa size attrs => some (s.setMmu (s.mm.mmu.mapRegion pa size attrs).2)
  | .pmm op => (s.pages.step op).map fun q =>
      ⟨{ s.mm with mmu := { s.mm.mmu with pmm := q.pmm } }, q.live⟩
  | .store addr v =>
      some (s.setMmu { s.mm.mmu with mem := Function.update s.mm.mmu.mem addr v })

/-- Callers free only pages they own, and store words only in pages they own. -/
def Owns (s : MmSys) : MmOp → Prop
  | .pmm op => s.pages.Owns op
  | .store addr _ => addr.toNat % 8 = 0 ∧
      ∃ j ∈ s.pages.owned, addr - s.mm.mmu.pmm.pageToAddr j < pageSize
  | _ => True

/-- `vmm_init`, `mmu_init` and `mmu_enable`, after `pmm_init_from_dtb` has left the allocator `p`. -/
def boot (p : Pmm) (mem : Word → Word) (img : Image) : MmSys :=
  ⟨Mm.booted ((⟨p, mem, 0, 0, 0, 0, []⟩ : Mmu).init img).enable, []⟩

end MmSys

namespace Mmu

variable {roots : Set Word} {live : List (List Nat)} {m : Mmu}

/-- The roots in use are among `roots`. -/
structure Rooted (roots : Set Word) (m : Mmu) : Prop where
  ttbr1 : m.ttbr1 ≠ 0 → m.ttbr1 ∈ roots
  ttbr1Pgd : m.ttbr1Pgd ≠ 0 → m.ttbr1Pgd ∈ roots

/-- What a state of the tables has to satisfy for the next operation. -/
structure Good (roots : Set Word) (live : List (List Nat)) (m : Mmu) : Prop where
  inv : m.Inv roots live
  rooted : m.Rooted roots

theorem Good.extends {r : Word} {N : Finset (List Index)} {m' : Mmu} (h : m.Good roots live)
    (hext : Extends roots live r N m m') : m'.Good roots live where
  inv := hext.inv
  rooted := ⟨hext.ttbr1 ▸ h.rooted.ttbr1, hext.ttbr1Pgd ▸ h.rooted.ttbr1Pgd⟩

theorem Good.tlbFlushRange (h : m.Good roots live) (va size : Word) :
    (m.tlbFlushRange va size).Good roots live :=
  ⟨⟨h.inv.forest, h.inv.table, h.inv.pmm⟩, ⟨h.rooted.ttbr1, h.rooted.ttbr1Pgd⟩⟩

theorem Good.enable (h : m.Good roots live) : m.enable.Good roots live :=
  ⟨⟨h.inv.forest, h.inv.table, h.inv.pmm⟩, ⟨h.rooted.ttbr1Pgd, h.rooted.ttbr1Pgd⟩⟩

/-- A call on the pages of a range keeps what one page operation keeps. -/
theorem Good.area (h : m.Good roots live) {f : Mmu → Word → Mmu}
    (hf : ∀ m off, m.Good roots live → m.ttbr1 ≠ 0 →
      ∃ N, Extends roots live m.ttbr1 N m (f m off)) (offs : List Word) (va size : Word) :
    (if m.ttbr1 = 0 then m else (offs.foldl f m).tlbFlushRange va size).Good roots live := by
  split
  · exact h
  · rename_i hne
    refine Good.tlbFlushRange ?_ va size
    induction offs generalizing m with
    | nil => exact h
    | cons off offs ih =>
        obtain ⟨N, hext⟩ := hf m off h hne
        exact ih (h.extends hext) (hext.ttbr1 ▸ hne)

theorem Good.mapArea (h : m.Good roots live) (va pa size : Word) (attrs : BitVec 32) :
    (m.mapArea va pa size attrs).Good roots live := by
  refine h.area (fun m off h hne => ⟨(tablePlaces (va + off)).toFinset, ?_⟩) _ va size
  obtain ⟨rc, m', heq, hext, -⟩ := h.inv.mapPage (h.rooted.ttbr1 hne) (va + off) (pa + off)
    (pteAttrs attrs) (fun q hq => List.mem_toFinset.mpr hq)
    (fun q hq => length_tablePlaces (List.mem_toFinset.mp hq))
  rw [heq]
  exact hext

theorem Good.unmapArea (h : m.Good roots live) (va size : Word) :
    (m.unmapArea va size).Good roots live :=
  h.area (fun _ off h hne => ⟨∅, h.inv.unmapPage (h.rooted.ttbr1 hne) (va + off)⟩) _ va size

theorem Good.protectArea (h : m.Good roots live) (va size : Word) (attrs : BitVec 32) :
    (m.protectArea va size attrs).Good roots live :=
  h.area (fun _ off h hne =>
    ⟨∅, h.inv.updatePageAttrs (h.rooted.ttbr1 hne) (va + off) (pteAttrs attrs)⟩) _ va size

/-- What a call of the virtual memory manager does to the tables when it succeeds. -/
def vmmEdit (m : Mmu) : VmmOp → Mmu
  | .map va pa size attrs => m.mapArea va pa size attrs
  | .unmap va size => m.unmapArea va size
  | .protect va size attrs => m.protectArea va size attrs
  | .virtToPhys _ => m

theorem Good.vmmEdit (h : m.Good roots live) (op : VmmOp) : (m.vmmEdit op).Good roots live := by
  cases op with
  | map va pa size attrs => exact h.mapArea va pa size attrs
  | unmap va size => exact h.unmapArea va size
  | protect va size attrs => exact h.protectArea va size attrs
  | virtToPhys va => exact h

/-- The tables all pages of a list need. -/
def listPlaces (pages : List (Word × Word)) : Finset (List Index) :=
  (pages.flatMap fun x => tablePlaces x.1).toFinset

theorem mem_listPlaces {pages : List (Word × Word)} {q : List Index} :
    q ∈ listPlaces pages ↔ ∃ x ∈ pages, q ∈ tablePlaces x.1 := by
  simp only [listPlaces, List.mem_toFinset, List.mem_flatMap]

theorem Inv.mapPagesList (h : m.Inv roots live) {r : Word} (hr : r ∈ roots) (attrs : Word)
    (pages : List (Word × Word)) :
    Extends roots live r (listPlaces pages) m (m.mapPagesUntil r attrs pages).2 := by
  refine h.mapPagesUntil hr attrs (fun x hx q hq => mem_listPlaces.mpr ⟨x, hx, hq⟩) fun q hq => ?_
  obtain ⟨x, -, hq⟩ := mem_listPlaces.mp hq
  exact length_tablePlaces hq

theorem Good.mapRegion (h : m.Good roots live) (pa size attrs : Word) :
    (m.mapRegion pa size attrs).2.Good roots live := by
  unfold Mmu.mapRegion
  split
  · exact h
  · rename_i hne
    dsimp only
    have hgood := h.extends (h.inv.mapPagesList (h.rooted.ttbr1Pgd hne) attrs
      ((pageOffsets (pageDown (size + (pageSize - 1)))).map fun off =>
        (kernelBase + pageDown pa + off, pageDown pa + off)))
    split
    · exact hgood
    · exact hgood.tlbFlushRange _ _

/-- A word stored in a page that is not a table changes no entry of a table. -/
theorem Inv.entry_store (h : m.Inv roots live) {addr : Word} {j : Nat} (hj : j < m.pmm.pagesTotal)
    (hpage : addr - m.pmm.pageToAddr j < pageSize)
    (hnot : ¬ m.IsTable roots (m.pmm.pageToAddr j)) (v : Word) {u : Word} (hu : m.IsTable roots u)
    (i : Index) :
    ({ m with mem := Function.update m.mem addr v } : Mmu).entry u (i.setWidth 64)
      = m.entry u (i.setWidth 64) := by
  have hal := h.aligned hu
  have hpageAddr := h.pmm.region.pageToAddr hj
  have hbase := h.pmm.region.base
  have hne : m.pmm.pageToAddr j ≠ u := fun heq => hnot (heq ▸ hu)
  have haddr : entryAddr u (i.setWidth 64) ≠ addr := by
    rintro rfl
    have hi := i.isLt
    have hu' := u.isLt
    have hp := (m.pmm.pageToAddr j).isLt
    rw [BitVec.lt_def, BitVec.toNat_sub, entryAddr_toNat hal, pageSize_toNat] at hpage
    rw [ne_eq, BitVec.toNat_eq] at hne
    simp only at hpageAddr hbase
    omega
  simp [entry, haddr]

theorem Good.store (h : m.Good roots live) {addr : Word} {j : Nat} (hj : j < m.pmm.pagesTotal)
    (hpage : addr - m.pmm.pageToAddr j < pageSize)
    (hnot : ¬ m.IsTable roots (m.pmm.pageToAddr j)) (v : Word) :
    ({ m with mem := Function.update m.mem addr v } : Mmu).Good roots live := by
  refine ⟨h.inv.congr rfl fun u hu i => ?_, ⟨h.rooted.ttbr1, h.rooted.ttbr1Pgd⟩⟩
  rw [next_eq, next_eq, h.inv.entry_store hj hpage hnot v hu.reached]

/-- Allocations and frees by callers leave the tables alone. -/
theorem Good.callers (h : m.Good roots live) {op : PmmOp} (hown : PmmState.Owns ⟨m.pmm, live⟩ op)
    {q : PmmState} (hq : PmmState.step ⟨m.pmm, live⟩ op = some q) :
    ({ m with pmm := q.pmm } : Mmu).Good roots q.live := by
  obtain ⟨hinv, hbase, htotal⟩ := h.inv.pmm.step hown hq
  have haddr : ∀ j, q.pmm.pageToAddr j = m.pmm.pageToAddr j := by
    intro j
    rw [Pmm.pageToAddr, Pmm.pageToAddr, hbase]
  refine ⟨⟨h.inv.forest, fun t ht => ?_, hinv.congr fun j _ => ?_⟩,
    ⟨h.rooted.ttbr1, h.rooted.ttbr1Pgd⟩⟩
  · obtain ⟨hne, j, hj, rfl⟩ := h.inv.table t ht
    exact ⟨hne, j, htotal.symm ▸ hj, (haddr j).symm⟩
  · rw [haddr]
    exact Iff.rfl

/-! ## Boot -/

/-- The pages of the higher half that `mmu_init` maps. -/
def highPages (img : Image) : List (Word × Word) :=
  (pagesFrom (pageDown img.kernelStart) (pageUp img.kernelEnd) ++
    pagesFrom (pageDown img.stackBottom) (pageUp img.stackTop)).map fun pa => (kernelBase + pa, pa)

theorem mem_listPlaces_high {img : Image} {q : List Index} :
    q ∈ listPlaces (highPages img) ↔
      q ∈ listPlaces ((pagesFrom (pageDown img.kernelStart) (pageUp img.kernelEnd)).map
        fun pa => (kernelBase + pa, pa)) ∨
      q ∈ listPlaces ((pagesFrom (pageDown img.stackBottom) (pageUp img.stackTop)).map
        fun pa => (kernelBase + pa, pa)) := by
  simp only [mem_listPlaces, highPages, List.map_append, List.mem_append, or_and_right, exists_or]

/-- The boot mappings keep the state good, and give the second root tables for the kernel image and
the boot stack at most. -/
theorem Good.mapBoot {t0 t1 : Word} (h : m.Good roots live) (h0 : t0 ∈ roots) (h1 : t1 ∈ roots)
    (hne : t1 ≠ t0) (img : Image) :
    (m.mapBoot t0 t1 img).Good roots live ∧ (m.mapBoot t0 t1 img).ttbr1 = m.ttbr1 ∧
      (m.mapBoot t0 t1 img).ttbr1Pgd = m.ttbr1Pgd ∧
      ∀ q : List Index, q.length ≤ 3 → q ∉ listPlaces (highPages img) →
        walk m.next t1 q = none → walk (m.mapBoot t0 t1 img).next t1 q = none := by
  unfold Mmu.mapBoot
  dsimp only
  have hlow := h.inv.mapPagesList h0 bootAttrs ((pagesFrom 0 0x80000000).map fun pa => (pa, pa))
  set m₁ := (m.mapPagesUntil t0 bootAttrs ((pagesFrom 0 0x80000000).map fun pa => (pa, pa))).2
  have hkernel := hlow.inv.mapPagesList h1 bootAttrs
    ((pagesFrom (pageDown img.kernelStart) (pageUp img.kernelEnd)).map
      fun pa => (kernelBase + pa, pa))
  set m₂ := (m₁.mapPagesUntil t1 bootAttrs
    ((pagesFrom (pageDown img.kernelStart) (pageUp img.kernelEnd)).map
      fun pa => (kernelBase + pa, pa))).2
  have hstack := hkernel.inv.mapPagesList h1 bootAttrs
    ((pagesFrom (pageDown img.stackBottom) (pageUp img.stackTop)).map
      fun pa => (kernelBase + pa, pa))
  have hnone₁ : ∀ q : List Index, q.length ≤ 3 → walk m.next t1 q = none →
      walk m₁.next t1 q = none := by
    intro q hq hnone
    rw [Option.eq_none_iff_forall_ne_some]
    intro u hw
    rcases hlow.only t1 h1 q u hq hw with hw | hc
    · exact absurd (hnone.symm.trans hw) (by simp)
    · exact hne hc.1
  have hnone₂ : ∀ q : List Index, q.length ≤ 3 → q ∉ listPlaces (highPages img) →
      walk m.next t1 q = none → walk m₂.next t1 q = none := by
    intro q hq hhigh hnone
    rw [Option.eq_none_iff_forall_ne_some]
    intro u hw
    rcases hkernel.only t1 h1 q u hq hw with hw | hc
    · exact absurd ((hnone₁ q hq hnone).symm.trans hw) (by simp)
    · exact hhigh (mem_listPlaces_high.mpr (.inl hc.2))
  have hgood₂ := (h.extends hlow).extends hkernel
  split
  · exact ⟨hgood₂, hkernel.ttbr1.trans hlow.ttbr1, hkernel.ttbr1Pgd.trans hlow.ttbr1Pgd, hnone₂⟩
  · refine ⟨hgood₂.extends hstack, hstack.ttbr1.trans (hkernel.ttbr1.trans hlow.ttbr1),
      hstack.ttbr1Pgd.trans (hkernel.ttbr1Pgd.trans hlow.ttbr1Pgd), fun q hq hhigh hnone => ?_⟩
    rw [Option.eq_none_iff_forall_ne_some]
    intro u hw
    rcases hstack.only t1 h1 q u hq hw with hw | hc
    · exact absurd ((hnone₂ q hq hhigh hnone).symm.trans hw) (by simp)
    · exact hhigh (mem_listPlaces_high.mpr (.inr hc.2))

/-- Two fresh root tables, without entries. -/
structure TwoRoots (live : List (List Nat)) (m m' : Mmu) (t0 t1 : Word) : Prop where
  inv : m'.Inv {t1, t0} live
  ne0 : t0 ≠ 0
  ne1 : t1 ≠ 0
  ne : t1 ≠ t0
  empty0 : ∀ i, m'.next t0 i = none
  empty1 : ∀ i, m'.next t1 i = none
  free : m'.pmm.pagesFree + 2 = m.pmm.pagesFree
  base : m'.pmm.memBase = m.pmm.memBase
  total : m'.pmm.pagesTotal = m.pmm.pagesTotal
  pgd0 : m'.ttbr0Pgd = t0
  pgd1 : m'.ttbr1Pgd = t1
  ttbr1 : m'.ttbr1 = m.ttbr1

/-- `mmu_init` gets two root tables and goes on to the boot mappings, or it is out of pages and stops,
with one root table or none. -/
theorem Inv.init_cases (h : m.Inv ∅ live) (img : Image) :
    (m.pmm.pagesFree < 2 ∧ (m.init img).pmm.pagesFree = 0 ∧ (m.init img).ttbr1Pgd = 0 ∧
        (m.init img).ttbr1 = m.ttbr1 ∧ ∃ roots, (m.init img).Inv roots live ∧
          ((m.init img).ttbr0Pgd = 0 ∨ (m.init img).ttbr0Pgd ∈ roots)) ∨
      ∃ m' t0 t1, TwoRoots live m m' t0 t1 ∧ m.init img = m'.mapBoot t0 t1 img := by
  unfold Mmu.init
  rcases h.allocTable with ⟨heq, hfree⟩ | ⟨t0, p', heq, hf⟩
  · -- no page at all
    rw [heq]
    dsimp only
    have h' : ({ m with ttbr0Pgd := 0 } : Mmu).Inv ∅ live := ⟨h.forest, h.table, h.pmm⟩
    rcases h'.allocTable with ⟨heq', -⟩ | ⟨t1, p'', -, hf'⟩
    · rw [heq', if_pos (.inl rfl)]
      exact .inl ⟨by omega, hfree, rfl, rfl, ∅, ⟨h.forest, h.table, h.pmm⟩, .inl rfl⟩
    · have hone : p''.pagesFree + 1 = m.pmm.pagesFree := hf'.free
      omega
  · rw [heq]
    dsimp only
    obtain ⟨hinv₁, hempty₁⟩ := hf.addRoot { m with
      pmm := p'
      mem := zeroPage m.mem t0
      ttbr0Pgd := t0 } h rfl rfl
    have hone := hf.free
    rcases hinv₁.allocTable with ⟨heq', hfree'⟩ | ⟨t1, p'', heq', hf'⟩
    · -- one page only
      rw [heq', if_pos (.inr rfl)]
      simp only at hfree'
      exact .inl ⟨by omega, hfree', rfl, rfl, _, ⟨hinv₁.forest, hinv₁.table, hinv₁.pmm⟩,
        .inr (Set.mem_insert _ _)⟩
    · rw [heq', if_neg (fun hc => hc.elim hf.ne hf'.ne)]
      dsimp only
      set m₁ : Mmu := { m with
        pmm := p'
        mem := zeroPage m.mem t0
        ttbr0Pgd := t0 }
      set m₂ : Mmu := { m with
        pmm := p''
        mem := zeroPage (zeroPage m.mem t0) t1
        ttbr0Pgd := t0
        ttbr1Pgd := t1 } with hm₂
      obtain ⟨hinv₂, hempty₂⟩ := hf'.addRoot m₂ hinv₁ rfl rfl
      have hroot : m₁.IsTable (insert t0 ∅) t0 := reached_root (Set.mem_insert _ _)
      have hne : t1 ≠ t0 := fun heq => hf'.notTable (heq ▸ hroot)
      refine .inr ⟨m₂, t0, t1, ⟨?_, hf.ne, hf'.ne, hne, fun i => ?_, hempty₂, ?_,
        hf'.base.trans hf.base, hf'.total.trans hf.total, rfl, rfl, rfl⟩, rfl⟩
      · rwa [insert_empty_eq] at hinv₂
      · -- clearing the second page leaves the first as it is
        have hentry : m₂.entry t0 (i.setWidth 64) = m₁.entry t0 (i.setWidth 64) :=
          (zeroPage_entryAddr m₁.mem (hf'.aligned hinv₁) (hf.aligned h) i).trans (if_neg hne.symm)
        rw [next_eq, hentry, ← next_eq]
        exact hempty₁ i
      · have htwo : p''.pagesFree + 1 = p'.pagesFree := hf'.free
        show p''.pagesFree + 2 = m.pmm.pagesFree
        omega

/-- What `mmu_init` leaves: a good state; and if two pages are free, a root for TTBR1 under which
there are tables for the kernel image and the boot stack at most. -/
theorem Inv.init (h : m.Inv ∅ live) (hreg : m.ttbr1 = 0) (img : Image) :
    ∃ roots, (m.init img).Good roots live ∧ (m.init img).ttbr1 = 0 ∧
      (2 ≤ m.pmm.pagesFree → (m.init img).ttbr1Pgd ≠ 0 ∧
        ∀ q : List Index, q ≠ [] → q.length ≤ 3 → q ∉ listPlaces (highPages img) →
          walk (m.init img).next (m.init img).ttbr1Pgd q = none) := by
  rcases h.init_cases img with ⟨hfew, -, hpgd, hregs, roots, hinv, -⟩ | ⟨m₂, t0, t1, htwo, heq⟩
  · exact ⟨roots, ⟨hinv, fun hc => absurd (hregs.trans hreg) hc, fun hc => absurd hpgd hc⟩,
      hregs.trans hreg, fun hc => by omega⟩
  · rw [heq]
    have hreg₂ : m₂.ttbr1 = 0 := htwo.ttbr1.trans hreg
    have hgood : m₂.Good {t1, t0} live :=
      ⟨htwo.inv, fun hc => absurd hreg₂ hc, fun _ => htwo.pgd1 ▸ Set.mem_insert _ _⟩
    obtain ⟨hgood', hreg', hpgd', hnone⟩ := hgood.mapBoot
      (Set.mem_insert_of_mem _ rfl) (Set.mem_insert t1 _) htwo.ne img
    rw [hpgd', htwo.pgd1]
    refine ⟨_, hgood', hreg'.trans hreg₂, fun _ => ⟨htwo.ne1, fun q hq hlen hhigh => ?_⟩⟩
    refine hnone q hlen hhigh ?_
    rw [Option.eq_none_iff_forall_ne_some]
    intro u hw
    exact hq (walk_of_empty htwo.empty1 hw).1

end Mmu

theorem Vmm.findRange_error {v : Vmm} {va size : Word} {rc : Int}
    (h : v.findRange va size = some (.error rc)) : rc ≠ 0 := by
  have hcodes : rc = -1 ∨ rc = -2 ∨ rc = -3 := by
    unfold Vmm.findRange at h
    split at h
    · cases h
      exact .inl rfl
    · split at h
      · cases h
        exact .inr (.inl rfl)
      · obtain ⟨cur, -, hcur⟩ := Option.map_eq_some_iff.mp h
        refine .inr (.inr ?_)
        cases cur with
        | none => cases hcur; rfl
        | some n =>
            dsimp only at hcur
            split at hcur
            · cases hcur; rfl
            · cases hcur
  omega

namespace Mm

/-- A call that succeeds edits the tables, another one leaves them as they are. -/
theorem call_mmu {m m' : Mm} {op : VmmOp} {res : VmmResult} (h : m.call op = some (res, m')) :
    (res = .rc 0 ∧ m'.mmu = m.mmu.vmmEdit op) ∨ (res ≠ .rc 0 ∧ m'.mmu = m.mmu) := by
  have hne : ∀ {rc : Int}, rc ≠ 0 → VmmResult.rc rc ≠ .rc 0 := fun hrc heq =>
    hrc (VmmResult.rc.inj heq)
  cases op with
  | map va pa size attrs =>
      obtain ⟨⟨rc, m₁⟩, hmap, heq⟩ := Option.map_eq_some_iff.mp h
      obtain ⟨rfl, rfl⟩ := Prod.mk.inj heq
      rcases Mm.vmmMap_cases hmap with ⟨-, hrc, rfl⟩ | ⟨-, rfl, hmmu⟩
      · exact .inr ⟨hne hrc, rfl⟩
      · exact .inl ⟨rfl, hmmu⟩
  | unmap va size =>
      obtain ⟨⟨rc, m₁⟩, hunmap, heq⟩ := Option.map_eq_some_iff.mp h
      obtain ⟨rfl, rfl⟩ := Prod.mk.inj heq
      obtain ⟨cur, hfind, hcur⟩ := Option.bind_eq_some_iff.mp hunmap
      cases cur with
      | error rc' =>
          obtain ⟨rfl, rfl⟩ := Prod.mk.inj (Option.some.inj hcur)
          exact .inr ⟨hne (Vmm.findRange_error hfind), rfl⟩
      | ok n =>
          obtain ⟨v, -, heq⟩ := Option.map_eq_some_iff.mp hcur
          obtain ⟨rfl, rfl⟩ := Prod.mk.inj heq
          exact .inl ⟨rfl, rfl⟩
  | protect va size attrs =>
      obtain ⟨⟨rc, m₁⟩, hprotect, heq⟩ := Option.map_eq_some_iff.mp h
      obtain ⟨rfl, rfl⟩ := Prod.mk.inj heq
      obtain ⟨cur, hfind, hcur⟩ := Option.bind_eq_some_iff.mp hprotect
      cases cur with
      | error rc' =>
          obtain ⟨rfl, rfl⟩ := Prod.mk.inj (Option.some.inj hcur)
          exact .inr ⟨hne (Vmm.findRange_error hfind), rfl⟩
      | ok n =>
          obtain ⟨rfl, rfl⟩ := Prod.mk.inj (Option.some.inj hcur)
          exact .inl ⟨rfl, rfl⟩
  | virtToPhys va =>
      obtain ⟨pa, -, heq⟩ := Option.map_eq_some_iff.mp h
      obtain ⟨rfl, rfl⟩ := Prod.mk.inj heq
      exact .inr ⟨VmmResult.noConfusion, rfl⟩

theorem step_mmu {m m' : Mm} {op : VmmOp} (hs : m.step op = some m') :
    m'.mmu = m.mmu.vmmEdit op ∨ m'.mmu = m.mmu := by
  obtain ⟨⟨res, m₁⟩, hcall, rfl⟩ := Option.map_eq_some_iff.mp hs
  exact (call_mmu hcall).imp And.right And.right

end Mm

namespace MmSys

open Mmu

variable {env : BootEnv} {fuel : Nat} {p : Pmm} {s : MmSys}

/-- After `pmm_init_from_dtb` the page at address 0, if it is managed at all, is in use. -/
theorem inv_initial (hinit : env.pmmInitFromDtb fuel = some p) (mem : Word → Word) :
    (⟨p, mem, 0, 0, 0, 0, []⟩ : Mmu).Inv ∅ [] := by
  obtain ⟨hregion, hcounted, -, hlow, -⟩ := BootEnv.init_spec hinit
  have hnone : ∀ t, ¬ (⟨p, mem, 0, 0, 0, 0, []⟩ : Mmu).IsTable ∅ t := by
    rintro t ⟨r, hr, -⟩
    exact hr
  refine ⟨forest_empty, fun t ht => absurd ht (hnone t), hregion, hcounted, List.nodup_nil,
    fun j hj => absurd hj List.not_mem_nil, fun j hj hp => ?_⟩
  rcases hp with hzero | ht
  · have haddr : (p.pageToAddr j).toNat = p.memBase.toNat + 4096 * j := hregion.pageToAddr hj
    have hzero' : (p.pageToAddr j).toNat = 0 := congrArg BitVec.toNat hzero
    exact hlow (by omega) j hj ⟨by omega, by omega, by omega⟩
  · exact absurd ht (hnone _)

/-- The state after boot. -/
theorem good_boot (hinit : env.pmmInitFromDtb fuel = some p) (mem : Word → Word) (img : Image) :
    ∃ roots, (boot p mem img).mm.mmu.Good roots [] ∧
      (2 ≤ p.pagesFree → (boot p mem img).mm.mmu.ttbr1 ≠ 0 ∧
        ∀ q : List Index, q ≠ [] → q.length ≤ 3 → q ∉ listPlaces (highPages img) →
          walk (boot p mem img).mm.mmu.next (boot p mem img).mm.mmu.ttbr1 q = none) := by
  obtain ⟨roots, hgood, -, htables⟩ := (inv_initial hinit mem).init rfl img
  have hmmu : (boot p mem img).mm.mmu = ((⟨p, mem, 0, 0, 0, 0, []⟩ : Mmu).init img).enable := rfl
  rw [hmmu]
  generalize (⟨p, mem, 0, 0, 0, 0, []⟩ : Mmu).init img = m at hgood htables
  exact ⟨roots, hgood.enable, htables⟩

variable {roots : Set Word}

theorem good_call {m m' : Mm} {live : List (List Nat)} (h : m.mmu.Good roots live) {op : VmmOp}
    (hs : m.step op = some m') : m'.mmu.Good roots live := by
  rcases Mm.step_mmu hs with heq | heq
  · exact heq ▸ h.vmmEdit op
  · exact heq ▸ h

theorem good_step {s' : MmSys} (h : s.mm.mmu.Good roots s.live) {op : MmOp} (hown : s.Owns op)
    (hs : s.step op = some s') : s'.mm.mmu.Good roots s'.live := by
  cases op with
  | vmm op =>
      obtain ⟨mm, hmm, rfl⟩ := Option.map_eq_some_iff.mp hs
      exact good_call h hmm
  | mapRegion pa size attrs =>
      obtain rfl := Option.some.inj hs
      exact h.mapRegion pa size attrs
  | pmm op =>
      obtain ⟨q, hq, rfl⟩ := Option.map_eq_some_iff.mp hs
      exact h.callers hown hq
  | store addr v =>
      obtain rfl := Option.some.inj hs
      obtain ⟨-, j, hj, hpage⟩ := hown
      obtain ⟨hlt, -, hnot⟩ := h.inv.pmm.used j hj
      exact h.store hlt hpage (fun ht => hnot (.inr ht)) v

theorem good_of_reach (hinit : env.pmmInitFromDtb fuel = some p) {mem : Word → Word}
    (hreach : Machine.Reach step Owns (boot p mem env.image) s) :
    ∃ roots, s.mm.mmu.Good roots s.live := by
  obtain ⟨roots, hgood, -⟩ := good_boot hinit mem env.image
  refine ⟨roots, hreach.invariant (P := fun s => s.mm.mmu.Good roots s.live) hgood ?_⟩
  intro s op s' h hown hs
  exact good_step h hown hs

/-- **The return code of `vmm_map` can be trusted exactly when** the request is turned down or its
range fits the free pages and the address bits of a descriptor: in every state reached after boot with
TTBR1 set, and for all arguments. -/
theorem vmm_map_honoured_iff {env : BootEnv} {fuel : Nat} {p : Pmm}
    (hinit : env.pmmInitFromDtb fuel = some p) {mem : Word → Word} {s : MmSys}
    (hreach : Machine.Reach step Owns (boot p mem env.image) s) (httbr : s.mm.mmu.ttbr1 ≠ 0)
    {va pa size : Word} {attrs : BitVec 32} {rc : Int} {mm' : Mm}
    (hcall : s.mm.vmmMap va pa size attrs = some (rc, mm')) :
    s.mm.Honours mm' rc va pa size attrs ↔
      s.mm.Refuses va pa size ∨ s.mm.Fits va pa size := by
  obtain ⟨roots, hgood⟩ := good_of_reach hinit hreach
  rcases Mm.vmmMap_cases hcall with ⟨hrefuse, hrc, rfl⟩ | ⟨hrefuse, rfl, hmmu⟩
  · exact ⟨fun _ => .inl hrefuse,
      fun _ => ⟨fun h0 => absurd h0 hrc, fun _ => rfl, fun _ _ _ => rfl⟩⟩
  · have hcheck : s.mm.vmm.mapChecks va pa size = some 0 := by
      by_contra hne
      exact hrefuse (.inl hne)
    obtain ⟨hsize, -, hpa, hsz⟩ := Mm.mapChecks_zero hcheck
    have hiff := Mm.mapArea_iff hgood.inv (hgood.rooted.ttbr1 httbr) httbr va hsize hpa hsz attrs
    constructor
    · intro h
      exact .inr (hiff.mp fun off hoff => hmmu ▸ h.mapped rfl off hoff)
    · rintro (h | h)
      · exact absurd h hrefuse
      · exact ⟨fun _ off hoff => hmmu ▸ hiff.mpr h off hoff, fun hc => absurd rfl hc,
          fun hc => absurd rfl hc⟩

/-! ## A machine that runs out of pages -/

/-- Callers can take all pages there are, one by one. -/
theorem exists_exhausted (h : s.mm.mmu.Good roots s.live) :
    ∃ s' : MmSys, Machine.Reach step Owns s s' ∧ s'.mm.vmm = s.mm.vmm ∧
      s'.mm.mmu = { s.mm.mmu with pmm := s'.mm.mmu.pmm } ∧ s'.mm.mmu.pmm.pagesFree = 0 := by
  generalize hn : s.mm.mmu.pmm.pagesFree = n
  induction n generalizing s with
  | zero => exact ⟨s, .start, rfl, rfl, hn⟩
  | succ n ih =>
      rcases h.inv.pmm.take with ⟨-, hfree⟩ | ⟨j, p', halloc, -, -, -, -, -, hfree, -⟩
      · have hfree' : s.mm.mmu.pmm.pagesFree = 0 := hfree
        omega
      · -- one page less is free after the first allocation
        have hpmm : (s.pages.alloc 1).pmm = p' := by
          have halloc' : s.pages.pmm.allocPages 1 = (s.mm.mmu.pmm.pageToAddr j, p') := halloc
          rw [PmmState.alloc, halloc']
          dsimp only
          split <;> rfl
        have hstep : s.step (.pmm .allocPage)
            = some ⟨{ s.mm with mmu := { s.mm.mmu with pmm := (s.pages.alloc 1).pmm } },
              (s.pages.alloc 1).live⟩ := rfl
        have hgood := good_step h (show s.Owns (.pmm .allocPage) from trivial) hstep
        have hfree' : p'.pagesFree + 1 = s.mm.mmu.pmm.pagesFree := hfree
        obtain ⟨s', hreach, hvmm, hmmu, hzero⟩ := ih hgood (by
          show (s.pages.alloc 1).pmm.pagesFree = n
          rw [hpmm]
          omega)
        exact ⟨s', (Machine.Reach.next _ .start trivial hstep).trans hreach, hvmm, hmmu, hzero⟩

/-- A machine with 1 GiB of RAM has free pages after `pmm_init_from_dtb`. -/
theorem init_oneGiB : ∃ p, (oneBank 0x40000000 0x40000000).pmmInitFromDtb 20 = some p ∧
    p.pagesFree = 261887 ∧ p.memBase = 0x40000000 ∧ p.pagesTotal = 262144 :=
  ⟨oneBankPmm 0x40000000 262144, BootEnv.init_oneBank _ _ (by decide +kernel) (fun _ => rfl) (by decide)
    (by decide) (by decide), by decide, rfl, rfl⟩

/-- Right after boot, and as long as no area is mapped, a request for the first page is accepted. -/
theorem vmmMap_first {m : Mm} (h : m.vmm = (Mm.booted m.mmu).vmm) :
    ∃ m', m.vmmMap 0 0 4096 0 = some (0, m') ∧ m'.mmu = m.mmu.mapArea 0 0 4096 0 := by
  have hinv : m.vmm.Inv .nil (List.range vmaPoolCap).reverse := h ▸ Vmm.inv_init
  have hchecks : m.vmm.mapChecks 0 0 4096 = some 0 :=
    Mm.mapChecks_row hinv (Nat.zero_le vmaPoolCap) (by simp)
  obtain ⟨k, hk⟩ : ∃ k, vmaPoolCap = k + 1 := ⟨255, by simp [vmaPoolCap]⟩
  rw [hk, List.range_succ, List.reverse_append] at hinv
  obtain ⟨m', -, hmap, -, -, -, hmmu⟩ := Mm.vmmMap_accept hinv 0 hchecks
  exact ⟨m', hmap, hmmu⟩

/-- The first request after boot on a machine with 1 GiB of RAM. -/
theorem vmm_map_honoured_oneGiB :
    ∃ p mm', (oneBank 0x40000000 0x40000000).pmmInitFromDtb 20 = some p ∧
      (boot p (fun _ => 0) (oneBank 0x40000000 0x40000000).image).mm.mmu.ttbr1 ≠ 0 ∧
      (boot p (fun _ => 0) (oneBank 0x40000000 0x40000000).image).mm.vmmMap 0 0 4096 0
        = some (0, mm') ∧
      ((boot p (fun _ => 0) (oneBank 0x40000000 0x40000000).image).mm.Honours mm' 0 0 0 4096 0 ↔
        (boot p (fun _ => 0) (oneBank 0x40000000 0x40000000).image).mm.Refuses 0 0 4096 ∨
        (boot p (fun _ => 0) (oneBank 0x40000000 0x40000000).image).mm.Fits 0 0 4096) := by
  obtain ⟨p, hinit, hfree, -⟩ := init_oneGiB
  obtain ⟨roots, -, hroot⟩ := good_boot hinit (fun _ => 0) (oneBank 0x40000000 0x40000000).image
  obtain ⟨hne, -⟩ := hroot (by omega)
  obtain ⟨mm', hmap, -⟩ := vmmMap_first
    (show (boot p (fun _ => 0) (oneBank 0x40000000 0x40000000).image).mm.vmm = _ from rfl)
  exact ⟨p, mm', hinit, hne, hmap, vmm_map_honoured_iff hinit .start hne hmap⟩

/-- Once callers have taken all pages, `vmm_map` returns 0 for a page that it has not mapped. -/
theorem vmm_map_reports_unmapped_page :
    ∃ env fuel p mem s mm', BootEnv.pmmInitFromDtb env fuel = some p ∧
      Machine.Reach step Owns (boot p mem env.image) s ∧ s.mm.mmu.ttbr1 ≠ 0 ∧
      s.mm.vmmMap 0 0 4096 0 = some (0, mm') ∧ mm'.mmu.leaf mm'.mmu.ttbr1 0 = none := by
  obtain ⟨p, hinit, hfree, -⟩ := init_oneGiB
  obtain ⟨roots, hgood, hroot⟩ := good_boot hinit (fun _ => 0)
    (oneBank 0x40000000 0x40000000).image
  obtain ⟨hne, htables⟩ := hroot (by omega)
  obtain ⟨s, hreach, hvmm, hmmu, hzero⟩ := exists_exhausted
    (s := boot p (fun _ => 0) (oneBank 0x40000000 0x40000000).image) hgood
  have hgood' : ∃ roots, s.mm.mmu.Good roots s.live := good_of_reach hinit hreach
  obtain ⟨roots', hgood'⟩ := hgood'
  have hregs : s.mm.mmu.ttbr1
      = (boot p (fun _ => 0) (oneBank 0x40000000 0x40000000).image).mm.mmu.ttbr1 := by rw [hmmu]
  have hne' : s.mm.mmu.ttbr1 ≠ 0 := hregs ▸ hne
  obtain ⟨mm', hmap, hmm'⟩ := vmmMap_first (show s.mm.vmm = (Mm.booted s.mm.mmu).vmm from hvmm)
  refine ⟨_, _, p, _, s, mm', hinit, hreach, hne', hmap, ?_⟩
  -- the kernel image and the stack lie under the last entry of the root, the page under the first
  have hmissing : walk s.mm.mmu.next s.mm.mmu.ttbr1 [0] = none := by
    have hnone := htables [0] (by simp) (by simp) (by decide +kernel)
    rw [hmmu]
    exact hnone
  have hplace : ([0] : List Index) ∈ neededTables 0 4096 := by decide
  have hpos : s.mm.mmu.pmm.pagesFree < s.mm.mmu.missing s.mm.mmu.ttbr1 (neededTables 0 4096) := by
    rw [hzero]
    exact Finset.card_pos.mpr ⟨[0], Finset.mem_filter.mpr ⟨hplace, hmissing⟩⟩
  obtain ⟨hext, -, -⟩ := hgood'.inv.mapOffsets (hgood'.rooted.ttbr1 hne') 0 0 (pteAttrs 0)
    (fun off ho q hq => mem_neededTables.mpr ⟨off, ho, hq⟩) length_neededTables
    (pageOffsets_distinct 0 (by decide)) (s.mm.mmu.mapRange 0 0 4096 (pteAttrs 0)) rfl
  obtain ⟨off, hoff, hleaf⟩ := hext.exists_unmapped hpos
  have hoff' : off = 0 := by simpa [pageOffsets] using hoff
  subst hoff'
  have harea : mm'.mmu = (s.mm.mmu.mapRange 0 0 4096 (pteAttrs 0)).tlbFlushRange 0 4096 :=
    hmm'.trans (if_neg hne')
  rw [harea]
  rw [← hext.ttbr1] at hleaf
  exact hleaf

end MmSys

end Arcline
