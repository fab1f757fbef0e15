import Arcline.Mm.MapRuns
import Arcline.Mm.PageMap

set_option autoImplicit false

/-! # What a call changes in the page tables

All that `vmm_map`, `vmm_unmap`, `vmm_protect` and `mmu_map_region` do to the tables is to map, unmap
or update pages under one root. Such an edit leaves every translation of another page and under another
root as it was, takes free pages for tables under its root only, and gives none back.
-/

namespace Arcline

open Radix

namespace Mmu

/-- The root tables and the translation base registers. -/
def regs (m : Mmu) : Word × Word × Word × Word := (m.ttbr0Pgd, m.ttbr1Pgd, m.ttbr0, m.ttbr1)

theorem regs_ensureTable (m : Mmu) (t : Word) (i : Index) :
    (m.ensureTable t (i.setWidth 64)).2.regs = m.regs := by
  rcases m.ensureTable_cases t i with ⟨t', -, heq⟩ | ⟨-, a, p', -, ⟨-, heq⟩ | ⟨-, heq⟩⟩
  all_goals exact congrArg (fun q => q.2.regs) heq

theorem regs_ensurePath (m : Mmu) (t : Word) (path : List Index) :
    (m.ensurePath t path).2.regs = m.regs := by
  induction path generalizing m t with
  | nil => rfl
  | cons i path ih =>
      have hfirst := m.regs_ensureTable t i
      rw [ensurePath]
      generalize m.ensureTable t (i.setWidth 64) = q at hfirst
      obtain ⟨_ | t', m₁⟩ := q
      · exact hfirst
      · exact (ih m₁ t').trans hfirst

theorem regs_mapPage (m : Mmu) (r va pa attrs : Word) : (m.mapPage r va pa attrs).2.regs = m.regs := by
  have hpath := m.regs_ensurePath r (tablePath va)
  rw [mapPage_eq]
  generalize m.ensurePath r (tablePath va) = q at hpath
  obtain ⟨_ | t, m₁⟩ := q <;> exact hpath

/-- `m'` is `m` after page operations under the root `r` on pages of `S`. -/
structure Edits (roots : Set Word) (r : Word) (S : Set (BitVec 36)) (m m' : Mmu) : Prop where
  regs : m'.regs = m.regs
  takes : Takes r m m'
  others : ∀ r' ∈ roots, r' ≠ r → ∀ t, m'.IsTable {r'} t ↔ m.IsTable {r'} t
  leaf : ∀ r' ∈ roots, ∀ va, ¬ (r' = r ∧ pageOf va ∈ S) → m'.leaf r' va = m.leaf r' va

variable {roots : Set Word} {live : List (List Nat)} {r : Word} {S : Set (BitVec 36)} {m m' m'' : Mmu}

theorem Edits.refl (roots : Set Word) (r : Word) (S : Set (BitVec 36)) (m : Mmu) :
    Edits roots r S m m := ⟨rfl, .refl r m, fun _ _ _ _ => Iff.rfl, fun _ _ _ _ => rfl⟩

theorem Edits.trans (h : Edits roots r S m m') (h' : Edits roots r S m' m'') :
    Edits roots r S m m'' where
  regs := h'.regs.trans h.regs
  takes := h.takes.trans h'.takes
  others r' hr' hne t := (h'.others r' hr' hne t).trans (h.others r' hr' hne t)
  leaf r' hr' va hno := (h'.leaf r' hr' va hno).trans (h.leaf r' hr' va hno)

theorem Edits.mono {S' : Set (BitVec 36)} (h : Edits roots r S m m') (hsub : S ⊆ S') :
    Edits roots r S' m m' where
  regs := h.regs
  takes := h.takes
  others := h.others
  leaf r' hr' va hno := h.leaf r' hr' va fun hc => hno ⟨hc.1, hsub hc.2⟩

theorem Edits.ttbr1 (h : Edits roots r S m m') : m'.ttbr1 = m.ttbr1 := (Prod.mk.inj
  (Prod.mk.inj (Prod.mk.inj h.regs).2).2).2

/-- The tables under other roots are those added to, if the tables added are at places under `r`. -/
theorem Extends.others {N : Finset (List Index)} (h : Extends roots live r N m m') {r' : Word}
    (hr' : r' ∈ roots) (hne : r' ≠ r) (t : Word) : m'.IsTable {r'} t ↔ m.IsTable {r'} t := by
  constructor
  · rintro ⟨_, rfl, q, hq, hw⟩
    rcases h.only _ hr' q t hq hw with hw | hc
    · exact ⟨_, rfl, q, hq, hw⟩
    · exact absurd hc.1 hne
  · rintro ⟨_, rfl, q, hq, hw⟩
    exact ⟨_, rfl, q, hq, h.kept _ hr' q t hq hw⟩

theorem Inv.mapPage_edits (h : m.Inv roots live) (hr : r ∈ roots) (va pa attrs : Word) :
    (m.mapPage r va pa attrs).2.Inv roots live ∧
      Edits roots r {pageOf va} m (m.mapPage r va pa attrs).2 := by
  have hregs := m.regs_mapPage r va pa attrs
  obtain ⟨rc, m', heq, hext, htakes, hleaf, -⟩ := h.mapPage (N := (tablePlaces va).toFinset) hr va pa
    attrs (fun q hq => List.mem_toFinset.mpr hq)
    (fun q hq => length_tablePlaces (List.mem_toFinset.mp hq))
  rw [heq] at hregs ⊢
  refine ⟨hext.inv, hregs, htakes, fun r' hr' hne t => hext.others hr' hne t, fun r' hr' va' hno => ?_⟩
  exact hleaf r' hr' va' fun hc => hno ⟨hc.1, samePage_iff.mp hc.2⟩

theorem Inv.rewriteLeaf_edits (h : m.Inv roots live) (hr : r ∈ roots) (va : Word) (f : Word → Word) :
    (m.rewriteLeaf r va f).2.Inv roots live ∧
      Edits roots r {pageOf va} m (m.rewriteLeaf r va f).2 := by
  rcases m.rewriteLeaf_cases r va f with ⟨-, heq⟩ | ⟨t, e, hw, -, heq⟩
  · rw [heq]
    exact ⟨h, .refl roots r _ m⟩
  · rw [heq]
    obtain ⟨hext, hleaf⟩ := h.setLeaf (N := ∅) hr hw rfl (leafIndex va) (f e) (by simp)
    refine ⟨hext.inv, rfl, takes_of_same rfl
      (fun u hu j => h.tree.next_setLeaf hr hw rfl _ _ hu j) hr,
      fun r' hr' hne t => hext.others hr' hne t, fun r' hr' va' hno => ?_⟩
    rw [hleaf r' hr' va', if_neg fun hc => hno ⟨hc.1, samePage_iff.mp hc.2⟩]

/-! ## Ranges -/

/-- The pages of a range. -/
def pagesOf (va size : Word) : Set (BitVec 36) := {n | ∃ off ∈ pageOffsets size, pageOf (va + off) = n}

theorem mem_pagesOf {va size off : Word} (h : off ∈ pageOffsets size) :
    pageOf (va + off) ∈ pagesOf va size := ⟨off, h, rfl⟩

theorem Edits.tlbFlushRange (h : Edits roots r S m m') (va size : Word) :
    Edits roots r S m (m'.tlbFlushRange va size) :=
  ⟨h.regs, ⟨h.takes.grows, h.takes.kept, h.takes.taken, h.takes.fresh⟩, h.others, h.leaf⟩

section Areas

variable {f : Mmu → Word → Mmu} {va : Word}
  (hf : ∀ (m : Mmu) off, m.Inv roots live → m.ttbr1 ∈ roots →
    (f m off).Inv roots live ∧ Edits roots m.ttbr1 {pageOf (va + off)} m (f m off))

include hf

/-- A loop over offsets edits the pages its steps edit. -/
theorem edits_foldl (h : m.Inv roots live) (hr : m.ttbr1 ∈ roots) {offs : List Word}
    (hS : ∀ off ∈ offs, pageOf (va + off) ∈ S) : Edits roots m.ttbr1 S m (offs.foldl f m) := by
  induction offs generalizing m with
  | nil => exact .refl roots m.ttbr1 S m
  | cons off offs ih =>
      obtain ⟨hinv, hedit⟩ := hf m off h hr
      have hrest := ih hinv (hedit.ttbr1 ▸ hr) fun o ho => hS o (List.mem_cons_of_mem _ ho)
      rw [hedit.ttbr1] at hrest
      have hfirst : {pageOf (va + off)} ⊆ S :=
        Set.singleton_subset_iff.mpr (hS off List.mem_cons_self)
      exact (hedit.mono hfirst).trans hrest

/-- So does a call on a range, which does nothing as long as there is no page table. -/
theorem Good.area_edits (size : Word) (h : m.Good roots live) :
    Edits roots m.ttbr1 (pagesOf va size) m
      (if m.ttbr1 = 0 then m else ((pageOffsets size).foldl f m).tlbFlushRange va size) := by
  split
  · exact .refl roots m.ttbr1 _ m
  · rename_i hne
    exact (edits_foldl hf h.inv (h.rooted.ttbr1 hne) fun _ => mem_pagesOf).tlbFlushRange va size

end Areas

theorem Good.mapArea_edits (h : m.Good roots live) (va pa size : Word) (attrs : BitVec 32) :
    Edits roots m.ttbr1 (pagesOf va size) m (m.mapArea va pa size attrs) :=
  Good.area_edits (fun _ off h hr =>
    h.mapPage_edits hr (va + off) (pa + off) (pteAttrs attrs)) size h

theorem Good.unmapArea_edits (h : m.Good roots live) (va size : Word) :
    Edits roots m.ttbr1 (pagesOf va size) m (m.unmapArea va size) :=
  Good.area_edits (fun _ off h hr => h.rewriteLeaf_edits hr (va + off) fun _ => 0) size h

theorem Good.protectArea_edits (h : m.Good roots live) (va size : Word) (attrs : BitVec 32) :
    Edits roots m.ttbr1 (pagesOf va size) m (m.protectArea va size attrs) :=
  Good.area_edits (fun _ off h hr =>
    h.rewriteLeaf_edits hr (va + off) fun e => pageDescriptor e (pteAttrs attrs)) size h

theorem Good.step_edits {m m' : Mm} {op : VmmOp} (h : m.mmu.Good roots live)
    (hs : m.step op = some m') : ∃ S, Edits roots m.mmu.ttbr1 S m.mmu m'.mmu := by
  rcases Mm.step_mmu hs with heq | heq
  · rw [heq]
    cases op with
    | map va pa size attrs => exact ⟨_, h.mapArea_edits va pa size attrs⟩
    | unmap va size => exact ⟨_, h.unmapArea_edits va size⟩
    | protect va size attrs => exact ⟨_, h.protectArea_edits va size attrs⟩
    | virtToPhys va => exact ⟨∅, .refl roots _ _ _⟩
  · exact ⟨∅, heq ▸ .refl roots _ _ _⟩

/-- A loop that maps pages until one cannot be mapped edits these pages at most. -/
theorem Inv.mapPagesUntil_edits (h : m.Inv roots live) (hr : r ∈ roots) (attrs : Word)
    {pages : List (Word × Word)} (hS : ∀ x ∈ pages, pageOf x.1 ∈ S) :
    Edits roots r S m (m.mapPagesUntil r attrs pages).2 := by
  induction pages generalizing m with
  | nil => exact .refl roots r S m
  | cons x pages ih =>
      obtain ⟨va, pa⟩ := x
      obtain ⟨hinv, hedit⟩ := h.mapPage_edits hr va pa attrs
      have hfirst : {pageOf va} ⊆ S :=
        Set.singleton_subset_iff.mpr (hS (va, pa) List.mem_cons_self)
      have hrest := ih hinv fun y hy => hS y (List.mem_cons_of_mem _ hy)
      rw [Mmu.mapPagesUntil]
      generalize m.mapPage r va pa attrs = q at hinv hedit hrest
      obtain ⟨rc, m₁⟩ := q
      dsimp only at hedit hrest ⊢
      split
      · rename_i heq
        obtain ⟨rfl, rfl⟩ := Prod.mk.inj heq
        exact (hedit.mono hfirst).trans hrest
      · rename_i heq
        obtain ⟨rfl, rfl⟩ := Prod.mk.inj heq
        exact hedit.mono hfirst

theorem Good.mapRegion_edits (h : m.Good roots live) (pa size attrs : Word) :
    Edits roots m.ttbr1Pgd Set.univ m (m.mapRegion pa size attrs).2 := by
  unfold Mmu.mapRegion
  split
  · exact .refl roots m.ttbr1Pgd _ m
  · rename_i hne
    dsimp only
    have hedit := fun pages : List (Word × Word) =>
      h.inv.mapPagesUntil_edits (S := Set.univ) (h.rooted.ttbr1Pgd hne) attrs
        fun x (_ : x ∈ pages) => trivial
    split
    · exact hedit _
    · exact (hedit _).tlbFlushRange _ _

end Mmu

end Arcline
