import Arcline.Mm.Edits

set_option autoImplicit false

/-! # The boot mappings

`mmu_init` maps the first 2 GiB to themselves under TTBR0 and gives up silently when pages run out. The
two roots and the tables of that map are 1029 pages; with fewer the map is incomplete.
-/

namespace Arcline

open Radix

namespace Mmu

variable {roots : Set Word} {live : List (List Nat)} {r : Word} {N : Finset (List Index)} {m : Mmu}

/-! ## Loops that map pages -/

/-- If the loop comes to its end, every page of the list is mapped. -/
theorem Inv.mapPagesUntil_mapped (h : m.Inv roots live) (hr : r ∈ roots) (attrs : Word)
    {pages : List (Word × Word)} (hdistinct : pages.Pairwise fun x y => pageOf x.1 ≠ pageOf y.1)
    (hzero : (m.mapPagesUntil r attrs pages).1 = 0) :
    ∀ x ∈ pages, (m.mapPagesUntil r attrs pages).2.leaf r x.1 = some (pageDescriptor x.2 attrs) := by
  induction pages generalizing m with
  | nil => exact fun x hx => absurd hx List.not_mem_nil
  | cons y pages ih =>
      obtain ⟨va, pa⟩ := y
      rw [List.pairwise_cons] at hdistinct
      obtain ⟨rc, m₁, heq, hext, -, -, hres⟩ := h.mapPage (N := (tablePlaces va).toFinset) hr va pa
        attrs (fun q hq => List.mem_toFinset.mpr hq)
        (fun q hq => length_tablePlaces (List.mem_toFinset.mp hq))
      rw [Mmu.mapPagesUntil, heq] at hzero ⊢
      rcases hres with ⟨rfl, hleaf⟩ | ⟨rfl, -⟩
      · intro x hx
        rcases List.mem_cons.mp hx with rfl | hx
        · -- the rest of the loop leaves this page alone
          have hedit := hext.inv.mapPagesUntil_edits (S := {n | ∃ y ∈ pages, pageOf y.1 = n}) hr attrs
            fun y hy => ⟨y, hy, rfl⟩
          refine (hedit.leaf r hr va ?_).trans hleaf
          rintro ⟨-, y, hy, hpage⟩
          exact hdistinct.1 y hy hpage.symm
        · exact ih hext.inv hdistinct.2 hzero x hx
      · exact absurd hzero (show (-1 : Int) ≠ 0 by decide)

/-- With a free page for each missing table the loop comes to its end. -/
theorem Inv.mapPagesUntil_room (h : m.Inv roots live) (hr : r ∈ roots) (attrs : Word)
    {pages : List (Word × Word)} (hN : ∀ x ∈ pages, ∀ q ∈ tablePlaces x.1, q ∈ N)
    (hshort : ∀ q ∈ N, q.length ≤ 3) (hroom : m.missing r N ≤ m.pmm.pagesFree) :
    (m.mapPagesUntil r attrs pages).1 = 0 := by
  induction pages generalizing m with
  | nil => rfl
  | cons y pages ih =>
      obtain ⟨va, pa⟩ := y
      have hfirst := hN (va, pa) List.mem_cons_self
      obtain ⟨rc, m₁, heq, hext, -, -, hres⟩ := h.mapPage hr va pa attrs hfirst hshort
      have hbalance := hext.balance
      rw [Mmu.mapPagesUntil, heq]
      rcases hres with ⟨rfl, -⟩ | ⟨-, hfull, q, hq, hnone⟩
      · exact ih hext.inv (fun x hx => hN x (List.mem_cons_of_mem _ hx)) (by omega)
      · -- a table is missing though there was a page for each
        have hmem : q ∈ N.filter fun q => walk m₁.next r q = none :=
          Finset.mem_filter.mpr ⟨hfirst q hq, hnone⟩
        have hpos : 0 < m₁.missing r N := Finset.card_pos.mpr ⟨q, hmem⟩
        omega

theorem length_listPlaces {pages : List (Word × Word)} : ∀ q ∈ listPlaces pages, q.length ≤ 3 := by
  intro q hq
  obtain ⟨x, -, hq⟩ := mem_listPlaces.mp hq
  exact length_tablePlaces hq

theorem missing_le (m : Mmu) (r : Word) (N : Finset (List Index)) : m.missing r N ≤ N.card :=
  Finset.card_filter_le ..

/-- A loop takes no more pages than its list needs tables. -/
theorem Inv.mapPagesList_free (h : m.Inv roots live) (hr : r ∈ roots) (attrs : Word)
    (pages : List (Word × Word)) :
    m.pmm.pagesFree ≤ (m.mapPagesUntil r attrs pages).2.pmm.pagesFree + (listPlaces pages).card := by
  have hbalance := (h.mapPagesList hr attrs pages).balance
  have hmissing := m.missing_le r (listPlaces pages)
  omega

/-- Three tables for each page, at most. -/
theorem card_listPlaces_le (pages : List (Word × Word)) : (listPlaces pages).card ≤ 3 * pages.length := by
  refine (List.toFinset_card_le _).trans ?_
  induction pages with
  | nil => exact Nat.le_refl 0
  | cons x pages ih =>
      rw [List.flatMap_cons, List.length_append, List.length_cons]
      have hthree : (tablePlaces x.1).length = 3 := rfl
      omega

/-! ## The first 2 GiB -/

/-- The pages `mmu_init` maps to themselves. -/
@[irreducible] def lowPages : List (Word × Word) := (pagesFrom 0 0x80000000).map fun pa => (pa, pa)

theorem lowPages_def : lowPages = (pagesFrom 0 0x80000000).map fun pa => (pa, pa) := by
  unfold lowPages
  exact Eq.refl _

theorem lowPages_eq : lowPages
    = (List.range 524288).map fun i => (BitVec.ofNat 64 (i * 4096), BitVec.ofNat 64 (i * 4096)) := by
  have hcount : ((0x80000000 : Word).toNat - (0 : Word).toNat + 4095) / 4096 = 524288 := by simp
  rw [lowPages_def, pagesFrom, hcount, List.map_map]
  refine List.map_congr_left fun i _ => ?_
  have hzero : (0 : Word) + BitVec.ofNat 64 (i * 4096) = BitVec.ofNat 64 (i * 4096) :=
    BitVec.zero_add _
  rw [Function.comp_apply, hzero]

theorem mem_lowPages {pa : Word} (hal : pa.toNat % 4096 = 0) (hlt : pa.toNat < 0x80000000) :
    (pa, pa) ∈ lowPages := by
  rw [lowPages_eq, List.mem_map]
  refine ⟨pa.toNat / 4096, List.mem_range.mpr (by omega), ?_⟩
  have hpa : BitVec.ofNat 64 (pa.toNat / 4096 * 4096) = pa := by
    rw [show pa.toNat / 4096 * 4096 = pa.toNat by omega]
    exact BitVec.ofNat_toNat 64 pa
  rw [hpa]

theorem lowPages_distinct : lowPages.Pairwise fun x y => pageOf x.1 ≠ pageOf y.1 := by
  rw [lowPages_eq, List.pairwise_map]
  have hrange : (List.range 524288).Pairwise fun i j => i < j := List.pairwise_lt_range
  refine hrange.imp_of_mem fun {i j} hi hj hij hpage => ?_
  have hi' := List.mem_range.mp hi
  have hj' := List.mem_range.mp hj
  have hnum := congrArg BitVec.toNat hpage
  rw [pageOf_toNat, pageOf_toNat, BitVec.toNat_ofNat, BitVec.toNat_ofNat] at hnum
  omega

/-- The places of the tables of the first 2 GiB: one for its 512 GiB, two of 1 GiB, 1024 of 2 MiB. -/
def lowPlaces : List (List Index) :=
  [0] :: (List.range 2).map (fun b => [0, BitVec.ofNat 9 b]) ++
    (List.range 1024).map fun c => [0, BitVec.ofNat 9 (c / 512), BitVec.ofNat 9 (c % 512)]

theorem mem_lowPlaces {q : List Index} (hq : q ∈ listPlaces lowPages) : q ∈ lowPlaces := by
  obtain ⟨x, hx, hq⟩ := mem_listPlaces.mp hq
  rw [lowPages_eq, List.mem_map] at hx
  obtain ⟨i, hi, rfl⟩ := hx
  have hi' := List.mem_range.mp hi
  -- the entries of page `i` at the three upper levels
  have h39 : (BitVec.ofNat 64 (i * 4096)).extractLsb' 39 9 = 0 := by
    apply BitVec.eq_of_toNat_eq
    rw [BitVec.extractLsb'_toNat, BitVec.toNat_ofNat, Nat.shiftRight_eq_div_pow]
    show _ = 0
    omega
  have h30 : (BitVec.ofNat 64 (i * 4096)).extractLsb' 30 9 = BitVec.ofNat 9 (i / 512 / 512) := by
    apply BitVec.eq_of_toNat_eq
    rw [BitVec.extractLsb'_toNat, BitVec.toNat_ofNat, BitVec.toNat_ofNat, Nat.shiftRight_eq_div_pow]
    omega
  have h21 : (BitVec.ofNat 64 (i * 4096)).extractLsb' 21 9 = BitVec.ofNat 9 (i / 512 % 512) := by
    apply BitVec.eq_of_toNat_eq
    rw [BitVec.extractLsb'_toNat, BitVec.toNat_ofNat, BitVec.toNat_ofNat, Nat.shiftRight_eq_div_pow]
    omega
  simp only [tablePlaces, tablePath, h39, h30, h21, List.mem_cons, List.not_mem_nil, or_false] at hq
  simp only [lowPlaces, List.cons_append, List.mem_cons, List.mem_append, List.mem_map]
  rcases hq with rfl | rfl | rfl
  · exact .inl rfl
  · exact .inr (.inl ⟨i / 512 / 512, List.mem_range.mpr (by omega), rfl⟩)
  · exact .inr (.inr ⟨i / 512, List.mem_range.mpr (by omega), rfl⟩)

theorem card_lowPages_le : (listPlaces lowPages).card ≤ 1027 := by
  have hsub : listPlaces lowPages ⊆ lowPlaces.toFinset :=
    fun q hq => List.mem_toFinset.mpr (mem_lowPlaces hq)
  have hlen : lowPlaces.length = 1027 := by
    rw [lowPlaces, List.length_append, List.length_cons, List.length_map, List.length_map,
      List.length_range, List.length_range]
  calc (listPlaces lowPages).card ≤ lowPlaces.toFinset.card := Finset.card_le_card hsub
    _ ≤ lowPlaces.length := List.toFinset_card_le _
    _ = 1027 := hlen

/-! ## What `mmu_init` leaves -/

/-- After the identity map `mmu_init` maps pages under the second root only, and takes no more pages
than these need tables. -/
theorem Good.mapBoot_high {t0 t1 : Word} (h : m.Good roots live) (h0 : t0 ∈ roots) (h1 : t1 ∈ roots)
    (img : Image) :
    Edits roots t1 Set.univ (m.mapPagesUntil t0 bootAttrs lowPages).2 (m.mapBoot t0 t1 img) ∧
      (m.mapPagesUntil t0 bootAttrs lowPages).2.pmm.pagesFree
        ≤ (m.mapBoot t0 t1 img).pmm.pagesFree + 3 * (highPages img).length := by
  have hlow : (m.mapPagesUntil t0 bootAttrs lowPages).2.Inv roots live :=
    (h.inv.mapPagesList h0 bootAttrs lowPages).inv
  have hlen : (highPages img).length
      = ((pagesFrom (pageDown img.kernelStart) (pageUp img.kernelEnd)).map
          fun pa => (kernelBase + pa, pa)).length
        + ((pagesFrom (pageDown img.stackBottom) (pageUp img.stackTop)).map
          fun pa => (kernelBase + pa, pa)).length := by
    rw [highPages, List.map_append, List.length_append]
  unfold Mmu.mapBoot
  dsimp only
  rw [← lowPages_def]
  generalize (m.mapPagesUntil t0 bootAttrs lowPages).2 = m₁ at hlow ⊢
  generalize (pagesFrom (pageDown img.kernelStart) (pageUp img.kernelEnd)).map
    (fun pa : Word => (kernelBase + pa, pa)) = kernel at hlen ⊢
  generalize (pagesFrom (pageDown img.stackBottom) (pageUp img.stackTop)).map
    (fun pa : Word => (kernelBase + pa, pa)) = stack at hlen ⊢
  have hkernel := hlow.mapPagesUntil_edits (S := Set.univ) h1 bootAttrs
    fun x (_ : x ∈ kernel) => trivial
  have hkfree := hlow.mapPagesList_free h1 bootAttrs kernel
  have hkcard := card_listPlaces_le kernel
  have hinv₂ := (hlow.mapPagesList h1 bootAttrs kernel).inv
  split
  · exact ⟨hkernel, by omega⟩
  · have hstack := hinv₂.mapPagesUntil_edits (S := Set.univ) h1 bootAttrs
      fun x (_ : x ∈ stack) => trivial
    have hsfree := hinv₂.mapPagesList_free h1 bootAttrs stack
    have hscard := card_listPlaces_le stack
    exact ⟨hkernel.trans hstack, by omega⟩

section Boot

variable {m' : Mmu} {t0 t1 : Word}

theorem TwoRoots.good (h : TwoRoots live m m' t0 t1) (hreg : m.ttbr1 = 0) : m'.Good {t1, t0} live :=
  ⟨h.inv, fun hc => absurd (h.ttbr1.trans hreg) hc, fun _ => h.pgd1 ▸ Set.mem_insert _ _⟩

/-- What `mmu_init` leaves when both roots were allocated. -/
theorem TwoRoots.mapBoot (h : TwoRoots live m m' t0 t1) (hreg : m.ttbr1 = 0) (img : Image) :
    (m'.mapBoot t0 t1 img).Good {t1, t0} live ∧ (m'.mapBoot t0 t1 img).regs = m'.regs ∧
      (m'.mapBoot t0 t1 img).pmm.memBase = m.pmm.memBase ∧
      (m'.mapBoot t0 t1 img).pmm.pagesTotal = m.pmm.pagesTotal := by
  have h0 : t0 ∈ ({t1, t0} : Set Word) := Set.mem_insert_of_mem _ rfl
  have h1 : t1 ∈ ({t1, t0} : Set Word) := Set.mem_insert t1 _
  have hlow := h.inv.mapPagesUntil_edits (S := Set.univ) h0 bootAttrs
    fun x (_ : x ∈ lowPages) => trivial
  have hhigh := ((h.good hreg).mapBoot_high h0 h1 img).1
  have hgrows := hlow.takes.grows.trans hhigh.takes.grows
  refine ⟨((h.good hreg).mapBoot h0 h1 h.ne img).1, hhigh.regs.trans hlow.regs, ?_, ?_⟩
  · exact hgrows.base.trans h.base
  · exact hgrows.total.trans h.total

/-- With enough pages every page of the first 2 GiB is mapped to itself. -/
theorem TwoRoots.low_mapped (h : TwoRoots live m m' t0 t1) (hroom : 1029 ≤ m.pmm.pagesFree)
    {pa : Word} (hal : pa.toNat % 4096 = 0) (hlt : pa.toNat < 0x80000000) :
    (m'.mapPagesUntil t0 bootAttrs lowPages).2.leaf t0 pa = some (pageDescriptor pa bootAttrs) := by
  have h0 : t0 ∈ ({t1, t0} : Set Word) := Set.mem_insert_of_mem _ rfl
  have hfree := h.free
  have hcard := card_lowPages_le
  have hmissing := m'.missing_le t0 (listPlaces lowPages)
  have hzero := h.inv.mapPagesUntil_room h0 bootAttrs
    (fun x hx q hq => mem_listPlaces.mpr ⟨x, hx, hq⟩) length_listPlaces
    (show m'.missing t0 (listPlaces lowPages) ≤ m'.pmm.pagesFree by omega)
  exact h.inv.mapPagesUntil_mapped h0 bootAttrs lowPages_distinct hzero (pa, pa)
    (mem_lowPages hal hlt)

/-- What is left of the pages. -/
theorem TwoRoots.mapBoot_free (h : TwoRoots live m m' t0 t1) (hreg : m.ttbr1 = 0) (img : Image) :
    m.pmm.pagesFree
      ≤ (m'.mapBoot t0 t1 img).pmm.pagesFree + 1029 + 3 * (highPages img).length := by
  have h0 : t0 ∈ ({t1, t0} : Set Word) := Set.mem_insert_of_mem _ rfl
  have hfree := h.free
  have hcard := card_lowPages_le
  have hlow : m'.pmm.pagesFree
      ≤ (m'.mapPagesUntil t0 bootAttrs lowPages).2.pmm.pagesFree + (listPlaces lowPages).card :=
    h.inv.mapPagesList_free h0 bootAttrs lowPages
  have hhigh := ((h.good hreg).mapBoot_high h0 (Set.mem_insert t1 _) img).2
  omega

end Boot

end Mmu

end Arcline
