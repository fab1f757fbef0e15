import Mathlib.Data.Set.Card
import Arcline.Mm.Edits
import Arcline.Mm.Vmalloc
import Arcline.Mm.VmmRefine

set_option autoImplicit false

/-! # Areas backed by pages of their own

`vmalloc` maps a region page by page: it takes a physical page, maps it as an area of one page, and
goes on. If the pages run out it takes the areas down again and gives their pages back. Here the areas
made in this way are kept as a list `own`. A state is described by what is in this list and what is not:
the areas of the tree are those of the list and some others, and so are the pages in use, tables aside.
As long as the others stay the same, nothing but the list has changed.
-/

namespace Arcline

open Radix RbTree

/-- No page becomes free when pages are only taken. -/
theorem Pmm.Grows.pagesFree_le {p p' : Pmm} (h : p.Grows p') (hc : p.Counted) :
    p'.pagesFree ≤ p.pagesFree := by
  rw [hc, h.counted hc, clearBits, clearBits, h.total]
  apply List.countP_mono_left
  intro j _ hj
  cases hbit : p.bitmap j with
  | false => rfl
  | true => simp [h.bits j hbit] at hj

namespace Mmu

theorem unmapPage_pmm (m : Mmu) (pgd va : Word) : (m.unmapPage pgd va).2.pmm = m.pmm := by
  unfold unmapPage
  split
  · rfl
  · split <;> rfl

theorem unmapRange_pmm (m : Mmu) (va size : Word) : (m.unmapRange va size).pmm = m.pmm := by
  unfold unmapRange
  induction pageOffsets size generalizing m with
  | nil => rfl
  | cons off offs ih => exact (ih _).trans (m.unmapPage_pmm _ _)

/-- Unmapping leaves the page allocator alone. -/
theorem unmapArea_pmm (m : Mmu) (va size : Word) : (m.unmapArea va size).pmm = m.pmm := by
  unfold unmapArea
  split
  · rfl
  · exact m.unmapRange_pmm va size

/-! ## Pages in use, tables aside -/

/-- The pages in use that are not tables under TTBR1. -/
def held (m : Mmu) : Set Nat :=
  {j | j < m.pmm.pagesTotal ∧ m.pmm.bitmap j = true ∧
    ¬ (m.ttbr1 ≠ 0 ∧ m.IsTable {m.ttbr1} (m.pmm.pageToAddr j))}

variable {roots : Set Word} {live live' : List (List Nat)} {m m' : Mmu} {S : Set (BitVec 36)}

/-- Only which pages are owned matters, not by which allocation. -/
theorem Good.perm (h : m.Good roots live) (hp : live'.flatten.Perm live.flatten) :
    m.Good roots live' where
  inv := {
    forest := h.inv.forest
    table := h.inv.table
    pmm := {
      region := h.inv.pmm.region
      counted := h.inv.pmm.counted
      nodup := hp.nodup_iff.mpr h.inv.pmm.nodup
      used := fun j hj => h.inv.pmm.used j (hp.mem_iff.mp hj)
      kept := h.inv.pmm.kept } }
  rooted := h.rooted

/-- Page operations under TTBR1 take pages for tables only. -/
theorem Good.held_edits (h : m.Good roots live) (he : Edits roots m.ttbr1 S m m')
    (hzero : m.ttbr1 = 0 → m' = m) : m'.held = m.held := by
  by_cases hne : m.ttbr1 = 0
  · rw [hzero hne]
  have hgrows := he.takes.grows
  ext j
  simp only [held, Set.mem_ofPred_eq, he.ttbr1, hgrows.total, hgrows.pageToAddr, hne, ne_eq,
    not_false_eq_true, true_and]
  constructor
  · rintro ⟨hj, hbit, htable⟩
    refine ⟨hj, ?_, fun ht => htable (he.takes.kept _ ht)⟩
    cases hold : m.pmm.bitmap j with
    | true => rfl
    | false => exact absurd (he.takes.taken j hj hold hbit) htable
  · rintro ⟨hj, hbit, htable⟩
    refine ⟨hj, hgrows.bits j hbit, fun ht => ?_⟩
    rcases he.takes.fresh _ ht with ht | ⟨i, hi, hfree, heq⟩
    · exact htable ht
    · -- the page of a new table was free
      have hij : j = i := by
        have h1 := h.inv.pmm.region.addrToPage_pageToAddr hj
        have h2 := h.inv.pmm.region.addrToPage_pageToAddr hi
        exact h1.symm.trans ((congrArg m.pmm.addrToPage heq).trans h2)
      rw [← hij, hbit] at hfree
      exact absurd hfree (by simp)

theorem Good.held_mapArea (h : m.Good roots live) (va pa size : Word) (attrs : BitVec 32) :
    (m.mapArea va pa size attrs).held = m.held :=
  h.held_edits (h.mapArea_edits va pa size attrs) fun hzero => if_pos hzero

theorem Good.held_unmapArea (h : m.Good roots live) (va size : Word) :
    (m.unmapArea va size).held = m.held :=
  h.held_edits (h.unmapArea_edits va size) fun hzero => if_pos hzero

/-- A page needs three tables at most. -/
theorem Good.mapArea_pagesFree (h : m.Good roots live) (va pa : Word) (attrs : BitVec 32) :
    m.pmm.pagesFree ≤ (m.mapArea va pa 4096 attrs).pmm.pagesFree + 3 := by
  unfold Mmu.mapArea
  split
  · omega
  · rename_i hne
    have hoffs : pageOffsets 4096 = [0] := by decide
    have hcard : (neededTables va 4096).card ≤ 3 := by
      refine (List.toFinset_card_le _).trans ?_
      rw [hoffs]
      exact Nat.le_refl 3
    obtain ⟨hext, -, -⟩ := h.inv.mapOffsets (h.rooted.ttbr1 hne) va pa (pteAttrs attrs)
      (fun off ho q hq => mem_neededTables.mpr ⟨off, ho, hq⟩) length_neededTables
      (pageOffsets_distinct va (by decide)) (m.mapRange va pa 4096 (pteAttrs attrs)) rfl
    have hbalance := hext.balance
    have hmissing : m.missing m.ttbr1 (neededTables va 4096) ≤ (neededTables va 4096).card :=
      Finset.card_filter_le ..
    show m.pmm.pagesFree ≤ (m.mapRange va pa 4096 (pteAttrs attrs)).pmm.pagesFree + 3
    omega

/-! ## What is left alone -/

/-- `m'` has the registers and the region of `m`, and translates as `m` does but for the pages of `S`
under TTBR1. -/
structure Keeps (roots : Set Word) (S : Set (BitVec 36)) (m m' : Mmu) : Prop where
  regs : m'.regs = m.regs
  base : m'.pmm.memBase = m.pmm.memBase
  total : m'.pmm.pagesTotal = m.pmm.pagesTotal
  leaf : ∀ r ∈ roots, ∀ va, ¬ (r = m.ttbr1 ∧ pageOf va ∈ S) → m'.leaf r va = m.leaf r va

theorem Keeps.refl (roots : Set Word) (S : Set (BitVec 36)) (m : Mmu) : Keeps roots S m m :=
  ⟨rfl, rfl, rfl, fun _ _ _ _ => rfl⟩

theorem Keeps.ttbr1 (h : Keeps roots S m m') : m'.ttbr1 = m.ttbr1 :=
  (Prod.mk.inj (Prod.mk.inj (Prod.mk.inj h.regs).2).2).2

theorem Keeps.trans {m'' : Mmu} (h : Keeps roots S m m') (h' : Keeps roots S m' m'') :
    Keeps roots S m m'' where
  regs := h'.regs.trans h.regs
  base := h'.base.trans h.base
  total := h'.total.trans h.total
  leaf r hr va hno := (h'.leaf r hr va (h.ttbr1.symm ▸ hno)).trans (h.leaf r hr va hno)

theorem Edits.keeps (h : Edits roots m.ttbr1 S m m') : Keeps roots S m m' :=
  ⟨h.regs, h.takes.grows.base, h.takes.grows.total, h.leaf⟩

/-- Changes of the page allocator translate nothing. -/
theorem keeps_of_pmm {p : Pmm} (hbase : p.memBase = m.pmm.memBase)
    (htotal : p.pagesTotal = m.pmm.pagesTotal) : Keeps roots S m { m with pmm := p } :=
  ⟨rfl, hbase, htotal, fun _ _ _ _ => rfl⟩

/-! ## Taking a page and giving it back -/

/-- `pmm_alloc_page` has no page, or gives one that was free. -/
theorem Good.takePage (h : m.Good roots live) :
    (m.pmm.allocPage = (0, m.pmm) ∧ m.pmm.pagesFree = 0) ∨
      ∃ j p', m.pmm.allocPage = (m.pmm.pageToAddr j, p') ∧ m.pmm.pageToAddr j ≠ 0 ∧ j ∉ m.held ∧
        ({ m with pmm := p' } : Mmu).Good roots ([j] :: live) ∧
        ({ m with pmm := p' } : Mmu).held = insert j m.held ∧
        p'.memBase = m.pmm.memBase ∧ p'.pagesTotal = m.pmm.pagesTotal ∧
        p'.pagesFree + 1 = m.pmm.pagesFree := by
  rcases h.inv.pmm.take with hnone | ⟨j, p', halloc, hj, hfree, hprot, hbase, htotal, hless, hinv⟩
  · exact .inl hnone
  simp only at halloc hj hfree hprot hbase htotal hless hinv
  have haddr : ∀ k, p'.pageToAddr k = m.pmm.pageToAddr k := by
    intro k
    rw [Pmm.pageToAddr, Pmm.pageToAddr, hbase]
  have hown := hinv.give (htotal.symm ▸ hj) hprot
  refine .inr ⟨j, p', halloc, fun hzero => hprot (.inl hzero), fun hc => ?_, ⟨⟨h.inv.forest,
    fun t ht => ?_, hown.congr fun k _ => ?_⟩, h.rooted.ttbr1, h.rooted.ttbr1Pgd⟩, ?_, hbase, htotal,
    hless⟩
  · exact absurd (hfree.symm.trans hc.2.1) (by simp)
  · obtain ⟨hne, k, hk, rfl⟩ := h.inv.table t ht
    exact ⟨hne, k, htotal.symm ▸ hk, (haddr k).symm⟩
  · rw [haddr]
    exact Iff.rfl
  · -- only the bit of `j` has changed, and `j` is no table
    have hbits : p'.bitmap = Function.update m.pmm.bitmap j true := by
      rcases m.pmm.allocPage_cases with heq | ⟨i, hi, -, hadd, hbits⟩
      · have hp' : p' = m.pmm := (Prod.mk.inj (halloc.symm.trans heq)).2
        rw [hp'] at hless
        omega
      · rw [halloc] at hadd hbits
        have hij : j = i := by
          have h1 := h.inv.pmm.region.addrToPage_pageToAddr hj
          have h2 := h.inv.pmm.region.addrToPage_pageToAddr hi
          exact h1.symm.trans ((congrArg m.pmm.addrToPage hadd).trans h2)
        rw [hij]
        exact hbits
    ext k
    show (k < p'.pagesTotal ∧ p'.bitmap k = true ∧ ¬ (m.ttbr1 ≠ 0 ∧
      m.IsTable {m.ttbr1} (p'.pageToAddr k))) ↔ k = j ∨ k ∈ m.held
    rw [haddr, htotal, hbits]
    by_cases hk : k = j
    · rw [hk, Function.update_self]
      refine ⟨fun _ => .inl rfl, fun _ => ⟨hj, rfl, fun htable => hprot (.inr ?_)⟩⟩
      obtain ⟨hne, _, rfl, hp⟩ := htable
      exact ⟨_, h.rooted.ttbr1 hne, hp⟩
    · rw [Function.update_of_ne hk]
      exact ⟨.inr, fun hc => hc.resolve_left hk⟩

/-- `pmm_free_page` of an owned page. -/
theorem Good.givePage {j : Nat} (h : m.Good roots ([j] :: live)) :
    ({ m with pmm := m.pmm.freePage (m.pmm.pageToAddr j) } : Mmu).Good roots live ∧
      ({ m with pmm := m.pmm.freePage (m.pmm.pageToAddr j) } : Mmu).held = m.held \ {j} ∧
      (m.pmm.freePage (m.pmm.pageToAddr j)).memBase = m.pmm.memBase ∧
      (m.pmm.freePage (m.pmm.pageToAddr j)).pagesTotal = m.pmm.pagesTotal ∧
      (m.pmm.freePage (m.pmm.pageToAddr j)).pagesFree = m.pmm.pagesFree + 1 := by
  obtain ⟨hj, hbit, hprot⟩ := h.inv.pmm.used j List.mem_cons_self
  have hne : m.pmm.pageToAddr j ≠ 0 := fun hzero => hprot (.inl hzero)
  have hback := h.inv.pmm.giveBack hne
  rw [Pmm.freePage_used h.inv.pmm.region hj hne hbit] at hback ⊢
  refine ⟨⟨⟨h.inv.forest, h.inv.table, hback⟩, h.rooted.ttbr1, h.rooted.ttbr1Pgd⟩, ?_, rfl, rfl, rfl⟩
  ext k
  show (k < m.pmm.pagesTotal ∧ Function.update m.pmm.bitmap j false k = true ∧ ¬ (m.ttbr1 ≠ 0 ∧
    m.IsTable {m.ttbr1} (m.pmm.pageToAddr k))) ↔ k ∈ m.held ∧ k ≠ j
  by_cases hk : k = j
  · rw [hk, Function.update_self]
    simp
  · rw [Function.update_of_ne hk]
    exact ⟨fun hc => ⟨hc, hk⟩, fun hc => hc.1⟩

end Mmu

/-- The areas of the tree are those of the address space. -/
theorem Mm.Refines.areas_eq {m : Mm} {A : AddressSpace} (h : m.Refines A) : m.vmm.areas = A.areas := by
  obtain ⟨t, free, h⟩ := h
  ext a
  rw [Finset.mem_coe, h.areas]
  constructor
  · rintro ⟨n, hn, rfl⟩
    exact ⟨n, h.inv.is.inTree_iff.mp hn, rfl⟩
  · rintro ⟨n, hn, rfl⟩
    exact ⟨n, h.inv.is.inTree_iff.mpr hn, rfl⟩

/-- An area of one page with a page of its own behind it. -/
structure PageArea where
  va : Word
  page : Nat
  attrs : BitVec 32

/-- Address and attributes. -/
def PageArea.slot (x : PageArea) : Word × BitVec 32 := (x.va, x.attrs)

/-- What there is beside the areas of a list: the tables' roots, the pages and areas of others, and the
pages of address space in which the list has its areas. `start` is a state to compare with. -/
structure Frame where
  roots : Set Word
  live : List (List Nat)
  areas : Finset Vma
  held : Set Nat
  space : Set (BitVec 36)
  start : Mmu

def Frame.addr (F : Frame) (x : PageArea) : Word := F.start.pmm.pageToAddr x.page

def Frame.vma (F : Frame) (x : PageArea) : Vma := ⟨x.va, F.addr x, 4096, x.attrs⟩

/-- The areas of `m` are those of `own` and those of `F`, and so are the pages in use. -/
structure Backed (F : Frame) (own : List PageArea) (m : Mm) : Prop where
  good : m.mmu.Good F.roots (own.map PageArea.page :: F.live)
  areas : ∃ A, m.Refines A ∧ ∀ a, a ∈ A.areas ↔ a ∈ F.areas ∨ ∃ x ∈ own, F.vma x = a
  apart : ∀ x ∈ own, F.vma x ∉ F.areas
  held : ∀ j, j ∈ m.mmu.held ↔ j ∈ F.held ∨ ∃ x ∈ own, x.page = j
  fresh : ∀ x ∈ own, x.page ∉ F.held
  inside : ∀ x ∈ own, pageOf x.va ∈ F.space
  keeps : Mmu.Keeps F.roots F.space F.start m.mmu

namespace Backed

open Mmu

variable {F : Frame} {own own' : List PageArea} {m : Mm} {x : PageArea}

theorem perm (h : Backed F own m) (hp : own'.Perm own) : Backed F own' m where
  good := h.good.perm ((hp.map PageArea.page).append_right _)
  areas := by
    obtain ⟨A, hA, hareas⟩ := h.areas
    refine ⟨A, hA, fun a => (hareas a).trans ?_⟩
    simp only [hp.mem_iff]
  apart x hx := h.apart x (hp.mem_iff.mp hx)
  held j := by
    rw [h.held]
    simp only [hp.mem_iff]
  fresh x hx := h.fresh x (hp.mem_iff.mp hx)
  inside x hx := h.inside x (hp.mem_iff.mp hx)
  keeps := h.keeps

theorem addr (h : Backed F own m) (x : PageArea) : m.mmu.pmm.pageToAddr x.page = F.addr x := by
  rw [Frame.addr, Pmm.pageToAddr, Pmm.pageToAddr, h.keeps.base]

/-- The pages of the list are pages of the region, each for one area. -/
theorem page_lt (h : Backed F own m) (hx : x ∈ own) : x.page < m.mmu.pmm.pagesTotal :=
  (h.good.inv.pmm.used x.page (List.mem_append_left _ (List.mem_map_of_mem hx))).1

theorem nodup_page (h : Backed F own m) : (own.map PageArea.page).Nodup :=
  (List.nodup_append.mp h.good.inv.pmm.nodup).1

/-- The areas of a list have different physical pages. -/
theorem nodup_pa (h : Backed F own m) : ((own.map F.vma).map Vma.pa).Nodup := by
  apply List.Nodup.of_map m.mmu.pmm.addrToPage
  have hpage : ((own.map F.vma).map Vma.pa).map m.mmu.pmm.addrToPage = own.map PageArea.page := by
    rw [List.map_map, List.map_map]
    refine List.map_congr_left fun x hx => ?_
    show m.mmu.pmm.addrToPage (F.addr x) = x.page
    rw [← h.addr x, h.good.inv.pmm.region.addrToPage_pageToAddr (h.page_lt hx)]
  rw [hpage]
  exact h.nodup_page

theorem nodup_vma (h : Backed F own m) : (own.map F.vma).Nodup := h.nodup_pa.of_map Vma.pa

variable {A : AddressSpace} {va : Word} {hi : Nat}

theorem card (h : Backed F own m) (hareas : ∀ a, a ∈ A.areas ↔ a ∈ F.areas ∨ ∃ x ∈ own, F.vma x = a) :
    A.areas.card = F.areas.card + own.length := by
  have hunion : A.areas = F.areas ∪ (own.map F.vma).toFinset := by
    ext a
    rw [hareas, Finset.mem_union, List.mem_toFinset, List.mem_map]
  have hdisjoint : Disjoint F.areas (own.map F.vma).toFinset := by
    rw [Finset.disjoint_right]
    intro a ha
    obtain ⟨x, hx, rfl⟩ := List.mem_map.mp (List.mem_toFinset.mp ha)
    exact h.apart x hx
  rw [hunion, Finset.card_union_of_disjoint hdisjoint, List.toFinset_card_of_nodup h.nodup_vma,
    List.length_map]

theorem mem_areas (h : Backed F own m) {a : Vma} :
    a ∈ m.vmm.areas ↔ a ∈ F.areas ∨ ∃ x ∈ own, F.vma x = a := by
  obtain ⟨A, hA, hareas⟩ := h.areas
  rw [hA.areas_eq, Finset.mem_coe, hareas]

theorem ncard_areas (h : Backed F own m) : m.vmm.areas.ncard = F.areas.card + own.length := by
  obtain ⟨A, hA, hareas⟩ := h.areas
  rw [hA.areas_eq, Set.ncard_coe_finset, h.card hareas]

/-- A frame with the present state to compare with, and the pages in use now. -/
theorem of_good {roots : Set Word} {live : List (List Nat)} {areas : Finset Vma}
    {space : Set (BitVec 36)} {held : Set Nat} (hheld : held = m.mmu.held \ {j | ∃ x ∈ own, x.page = j})
    (hgood : m.mmu.Good roots (own.map PageArea.page :: live)) (hA : m.Refines A)
    (hareas : ∀ a, a ∈ A.areas ↔ a ∈ areas ∨ ∃ x ∈ own, Frame.vma ⟨roots, live, areas, held, space,
      m.mmu⟩ x = a) (hapart : ∀ x ∈ own, Frame.vma ⟨roots, live, areas, held, space, m.mmu⟩ x ∉ areas)
    (hinside : ∀ x ∈ own, pageOf x.va ∈ space) :
    Backed ⟨roots, live, areas, held, space, m.mmu⟩ own m where
  good := hgood
  areas := ⟨A, hA, hareas⟩
  apart := hapart
  held j := by
    -- a page of the list is in use, and it is no table
    have hown : ∀ x ∈ own, x.page ∈ m.mmu.held := by
      intro x hx
      obtain ⟨hlt, hbit, hprot⟩ :=
        hgood.inv.pmm.used x.page (List.mem_append_left _ (List.mem_map_of_mem hx))
      refine ⟨hlt, hbit, fun ⟨hne, ht⟩ => hprot (.inr ?_)⟩
      obtain ⟨_, rfl, hp⟩ := ht
      exact ⟨_, hgood.rooted.ttbr1 hne, hp⟩
    rw [hheld]
    constructor
    · intro hj
      by_cases hx : ∃ x ∈ own, x.page = j
      · exact .inr hx
      · exact .inl ⟨hj, hx⟩
    · rintro (hj | ⟨x, hx, rfl⟩)
      · exact hj.1
      · exact hown x hx
  fresh x hx := by
    rw [hheld]
    exact fun hc => hc.2 ⟨x, hx, rfl⟩
  inside := hinside
  keeps := .refl _ _ _

theorem pagesOf_page_subset {S : Set (BitVec 36)} (h : pageOf va ∈ S) : pagesOf va 4096 ⊆ S := by
  rintro _ ⟨off, hoff, rfl⟩
  obtain ⟨i, hi, rfl⟩ := mem_pageOffsets.mp hoff
  have hi0 : i = 0 := by
    have : i * 4096 < 4096 := hi
    omega
  rw [hi0]
  simpa using h

/-- The addresses from `lo` to `hi` may be used for new areas. -/
structure Clear (F : Frame) (own : List PageArea) (lo hi : Nat) : Prop where
  bound : hi < 2 ^ 64
  space : ∀ va : Word, lo ≤ va.toNat → va.toNat < hi → pageOf va ∈ F.space
  areas : ∀ a ∈ F.areas, a.stop ≤ lo ∨ hi ≤ a.va.toNat
  own : ∀ x ∈ own, x.va.toNat + 4096 ≤ lo ∨ hi ≤ x.va.toNat

theorem Clear.cons {lo : Nat} (h : Clear F own lo hi) (hx : x.va.toNat = lo) :
    Clear F (x :: own) (lo + 4096) hi where
  bound := h.bound
  space va hlo hhi := h.space va (by omega) hhi
  areas a ha := by
    have := h.areas a ha
    omega
  own y hy := by
    rcases List.mem_cons.mp hy with rfl | hy
    · exact .inl (by omega)
    · have := h.own y hy
      omega

/-- An area of one page at the start of clear addresses. -/
theorem Clear.placed {j : Nat} (hclear : Clear F own va.toNat hi) (h : Backed F own m)
    (hva : va.toNat % 4096 = 0) (hhi : va.toNat + 4096 ≤ hi) (hj : j < m.mmu.pmm.pagesTotal)
    (attrs : BitVec 32) : (F.vma ⟨va, j, attrs⟩).Placed := by
  have hpa : (m.mmu.pmm.pageToAddr j).toNat = m.mmu.pmm.memBase.toNat + 4096 * j :=
    h.good.inv.pmm.region.pageToAddr hj
  have hb : m.mmu.pmm.memBase.toNat % 4096 = 0 := h.good.inv.pmm.region.base
  have hbound := hclear.bound
  refine ⟨by show (4096 : Word) ≠ 0; decide, ⟨?_, ?_, by show pageOffset (4096 : Word) = 0; decide⟩, ?_⟩
  · exact pageOffset_eq_zero.mpr hva
  · show pageOffset (F.addr ⟨va, j, attrs⟩) = 0
    rw [← h.addr ⟨va, j, attrs⟩, pageOffset_eq_zero, hpa]
    omega
  · show va.toNat + 4096 < 2 ^ 64
    omega

theorem Clear.not_overlaps (hclear : Clear F own va.toNat hi) (hhi : va.toNat + 4096 ≤ hi)
    (hareas : ∀ a, a ∈ A.areas ↔ a ∈ F.areas ∨ ∃ x ∈ own, F.vma x = a) (j : Nat) (attrs : BitVec 32) :
    ¬ ∃ b ∈ A.areas, b.Overlaps (F.vma ⟨va, j, attrs⟩) := by
  rintro ⟨b, hb, h1, h2⟩
  have h1 : b.va.toNat < va.toNat + 4096 := h1
  have h2 : va.toNat < b.stop := h2
  rcases (hareas b).mp hb with hb | ⟨y, hy, rfl⟩
  · have := hclear.areas b hb
    omega
  · have := hclear.own y hy
    have h1 : y.va.toNat < va.toNat + 4096 := h1
    have h2 : va.toNat < y.va.toNat + 4096 := h2
    omega

/-- Take a page and map it: there is no page left, or the list has one more area. -/
theorem mapPage (h : Backed F own m) (attrs : BitVec 32) (hclear : Clear F own va.toNat hi)
    (hva : va.toNat % 4096 = 0) (hhi : va.toNat + 4096 ≤ hi)
    (hroom : 0 < m.mmu.pmm.pagesFree → F.areas.card + own.length < vmaPoolCap) :
    (m.allocPage = (0, m) ∧ m.mmu.pmm.pagesFree = 0) ∨
      ∃ pa m₁ j m', m.allocPage = (pa, m₁) ∧ pa ≠ 0 ∧ pa = F.addr ⟨va, j, attrs⟩ ∧
        m₁.vmmMap va pa 4096 attrs = some (0, m') ∧ Backed F (⟨va, j, attrs⟩ :: own) m' ∧
        m'.mmu.pmm.pagesFree + 1 ≤ m.mmu.pmm.pagesFree ∧
        m.mmu.pmm.pagesFree ≤ m'.mmu.pmm.pagesFree + 4 := by
  rcases h.good.takePage with ⟨halloc, hfree⟩ |
    ⟨j, p', halloc, hne, hnot, hgood, hheld, hbase, htotal, hless⟩
  · left
    refine ⟨?_, hfree⟩
    rw [Mm.allocPage, halloc]
  right
  set m₁ : Mm := { m with mmu := { m.mmu with pmm := p' } } with hm₁
  replace hgood : m₁.mmu.Good F.roots ([j] :: own.map PageArea.page :: F.live) := hgood
  have haddr : m.mmu.pmm.pageToAddr j = F.addr ⟨va, j, attrs⟩ := h.addr ⟨va, j, attrs⟩
  have hkeeps : Keeps F.roots F.space F.start m₁.mmu := h.keeps.trans (keeps_of_pmm hbase htotal)
  obtain ⟨A, ⟨t, free, hA⟩, hareas⟩ := h.areas
  -- the new area is placed where there is none
  have hj : j < m.mmu.pmm.pagesTotal := htotal ▸ (hgood.inv.pmm.used j List.mem_cons_self).1
  have hplaced : (F.vma ⟨va, j, attrs⟩).Placed := hclear.placed h hva hhi hj attrs
  have hno := hclear.not_overlaps hhi hareas j attrs
  have hnew : F.vma ⟨va, j, attrs⟩ ∉ A.areas := fun hin =>
    hno ⟨_, hin, hplaced.lt_stop, hplaced.lt_stop⟩
  have hA₁ : m₁.vmm.Refines t free A := hA
  have hcard : A.areas.card < vmaPoolCap := by
    rw [h.card hareas]
    exact hroom (by omega)
  obtain ⟨m', hm', hmmu, hr'⟩ := Mm.vmmMap_placed hA₁ hplaced hno hcard
  replace hmmu : m'.mmu = m₁.mmu.mapArea va (F.addr ⟨va, j, attrs⟩) 4096 attrs := hmmu
  have hedits := hgood.mapArea_edits va (F.addr ⟨va, j, attrs⟩) 4096 attrs
  have hpages : pagesOf va 4096 ⊆ F.space :=
    pagesOf_page_subset (hclear.space va (Nat.le_refl _) (by omega))
  refine ⟨F.addr ⟨va, j, attrs⟩, m₁, j, m', ?_, haddr ▸ hne, rfl, hm', ⟨?_, ?_, ?_, ?_, ?_, ?_, ?_⟩, ?_⟩
  · rw [Mm.allocPage, halloc, haddr]
  · rw [hmmu]
    exact (hgood.mapArea va _ 4096 attrs).perm (List.Perm.refl _)
  · refine ⟨_, hr', fun a => ?_⟩
    rw [show (A.insert _ hplaced hno).areas = Insert.insert (F.vma ⟨va, j, attrs⟩) A.areas from rfl,
      Finset.mem_insert, hareas]
    simp only [List.mem_cons, exists_eq_or_imp, eq_comm (a := a)]
    exact or_left_comm
  · intro y hy
    rcases List.mem_cons.mp hy with rfl | hy
    · exact fun hin => hnew ((hareas _).mpr (.inl hin))
    · exact h.apart y hy
  · intro k
    rw [hmmu, hgood.held_mapArea, hheld, Set.mem_insert_iff, h.held]
    simp only [List.mem_cons, exists_eq_or_imp, eq_comm (a := k)]
    exact or_left_comm
  · intro y hy
    rcases List.mem_cons.mp hy with rfl | hy
    · exact fun hin => hnot ((h.held _).mpr (.inl hin))
    · exact h.fresh y hy
  · intro y hy
    rcases List.mem_cons.mp hy with rfl | hy
    · exact hclear.space va (Nat.le_refl _) (by omega)
    · exact h.inside y hy
  · rw [hmmu]
    exact hkeeps.trans (hedits.mono hpages).keeps
  · have hle := hedits.takes.grows.pagesFree_le hgood.inv.pmm.counted
    have hge := hgood.mapArea_pagesFree va (F.addr ⟨va, j, attrs⟩) attrs
    have h1 : m₁.mmu.pmm.pagesFree = p'.pagesFree := rfl
    rw [hmmu]
    omega

/-- Unmap an area of the list and give its page back. -/
theorem release (h : Backed F (x :: own) m) :
    ∃ m₁, m.vmmVirtToPhys x.va = some (F.addr x) ∧ m.vmmUnmap x.va 4096 = some (0, m₁) ∧
      Backed F own (m₁.freePage (F.addr x)) ∧
      (m₁.freePage (F.addr x)).mmu.pmm.pagesFree = m.mmu.pmm.pagesFree + 1 := by
  obtain ⟨A, ⟨t, free, hA⟩, hareas⟩ := h.areas
  have hx : F.vma x ∈ A.areas := (hareas _).mpr (.inr ⟨x, List.mem_cons_self, rfl⟩)
  have hcovers : (F.vma x).Covers x.va :=
    ⟨Nat.le_refl _, (A.placed _ hx).lt_stop⟩
  obtain ⟨m₁, hm₁, hr₁⟩ := Mm.vmmUnmap_refines hA x.va 4096
  have hunmap : A.unmap x.va 4096 = (0, A.remove x.va) := AddressSpace.onArea_of_mem hx (A.remove x.va)
  rw [hunmap] at hm₁ hr₁
  have hmmu : m₁.mmu = m.mmu.unmapArea x.va 4096 := (Mm.finds_of_mem hA hx).vmmUnmap hm₁
  have hpmm : m₁.mmu.pmm = m.mmu.pmm := by
    rw [hmmu, unmapArea_pmm]
  have hgood₁ : m₁.mmu.Good F.roots ([x.page] :: own.map PageArea.page :: F.live) := by
    rw [hmmu]
    exact (h.good.unmapArea x.va 4096).perm (List.Perm.refl _)
  obtain ⟨hgood, hheld, hbase, htotal, hfree⟩ := hgood₁.givePage
  rw [hpmm, h.addr x] at hgood hheld hbase htotal hfree
  have heq : (m₁.freePage (F.addr x)).mmu = { m₁.mmu with pmm := m.mmu.pmm.freePage (F.addr x) } := by
    rw [Mm.freePage, hpmm]
  have hedits := h.good.unmapArea_edits x.va 4096
  have hpages : pagesOf x.va 4096 ⊆ F.space := pagesOf_page_subset (h.inside x List.mem_cons_self)
  have hnotin : ∀ y ∈ own, y.page ≠ x.page := by
    intro y hy heq
    exact (List.nodup_cons.mp h.nodup_page).1 (heq ▸ List.mem_map_of_mem hy)
  have hvma : ∀ y ∈ own, F.vma y ≠ F.vma x := by
    intro y hy heq
    exact (List.nodup_cons.mp h.nodup_vma).1 (heq ▸ List.mem_map_of_mem hy)
  refine ⟨m₁, ?_, hm₁, ⟨?_, ?_, ?_, ?_, ?_, ?_, ?_⟩, ?_⟩
  · rw [Mm.vmmVirtToPhys_refines hA, AddressSpace.virtToPhys_of_covers hx hcovers]
    show some (F.addr x + (x.va - x.va)) = some (F.addr x)
    simp
  · rw [heq]
    exact hgood
  · refine ⟨A.remove x.va, hr₁, fun a => ?_⟩
    rw [show (A.remove x.va).areas = A.areas.filter fun a => a.va ≠ x.va from rfl, Finset.mem_filter,
      hareas]
    simp only [List.mem_cons, exists_eq_or_imp]
    constructor
    · rintro ⟨ha | rfl | ha, hva⟩
      · exact .inl ha
      · exact absurd rfl hva
      · exact .inr ha
    · rintro (ha | ⟨y, hy, rfl⟩)
      · refine ⟨.inl ha, fun hva => h.apart x List.mem_cons_self ?_⟩
        rwa [AddressSpace.eq_of_va hx ((hareas a).mpr (.inl ha)) hva.symm]
      · refine ⟨.inr (.inr ⟨y, hy, rfl⟩), fun hva => hvma y hy ?_⟩
        exact AddressSpace.eq_of_va
          ((hareas _).mpr (.inr ⟨y, List.mem_cons_of_mem _ hy, rfl⟩)) hx hva
  · exact fun y hy => h.apart y (List.mem_cons_of_mem _ hy)
  · intro k
    rw [heq, hheld, Set.mem_sdiff, Set.mem_singleton_iff, hmmu, h.good.held_unmapArea, h.held]
    simp only [List.mem_cons, exists_eq_or_imp]
    constructor
    · rintro ⟨hk | rfl | hk, hne⟩
      · exact .inl hk
      · exact absurd rfl hne
      · exact .inr hk
    · rintro (hk | ⟨y, hy, rfl⟩)
      · exact ⟨.inl hk, fun hkx => h.fresh x List.mem_cons_self (hkx ▸ hk)⟩
      · exact ⟨.inr (.inr ⟨y, hy, rfl⟩), hnotin y hy⟩
  · exact fun y hy => h.fresh y (List.mem_cons_of_mem _ hy)
  · exact fun y hy => h.inside y (List.mem_cons_of_mem _ hy)
  · rw [heq]
    have hunmapped : Keeps F.roots F.space m.mmu m₁.mmu := by
      rw [hmmu]
      exact (hedits.mono hpages).keeps
    refine (h.keeps.trans hunmapped).trans (keeps_of_pmm ?_ ?_)
    · rw [hbase, hpmm]
    · rw [htotal, hpmm]
  · rw [heq]
    exact hfree

end Backed

end Arcline
