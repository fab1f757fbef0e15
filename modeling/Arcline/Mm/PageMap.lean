import Arcline.Mm.PageTable

set_option autoImplicit false

/-! # The tables as a map of pages

What the tables under a root are for: a partial map from page numbers, the bits 47:12 of an address,
to descriptors. `mmu_map_page`, `mmu_unmap_page` and `mmu_update_page_attrs` change the entry of one
page of it, or nothing. All that is asked of the tables is that no two walks meet and that the
allocator has none of them to give.
-/

namespace Arcline

open Radix

/-! ## Pages -/

/-- Bits 47:12 of an address. -/
def pageOf (va : Word) : BitVec 36 := va.extractLsb' 12 36

/-- The first address of a page of the lower half. -/
def pageStart (n : BitVec 36) : Word := n.setWidth 64 <<< 12

theorem pageOf_toNat (va : Word) : (pageOf va).toNat = va.toNat / 4096 % 2 ^ 36 := by
  rw [pageOf, BitVec.extractLsb'_toNat, Nat.shiftRight_eq_div_pow]

theorem pageOf_pageStart (n : BitVec 36) : pageOf (pageStart n) = n := by
  apply BitVec.eq_of_toNat_eq
  have hn := n.isLt
  rw [pageOf_toNat, pageStart, BitVec.toNat_shiftLeft, BitVec.toNat_setWidth, Nat.shiftLeft_eq]
  omega

/-- The four table entries of an address are those of its page. -/
theorem samePage_iff {va va' : Word} :
    tablePath va' = tablePath va ∧ leafIndex va' = leafIndex va ↔ pageOf va' = pageOf va := by
  constructor
  · rintro ⟨hpath, hleaf⟩
    apply BitVec.eq_of_toNat_eq
    rw [pageOf_toNat, pageOf_toNat]
    exact page_eq_of_path hpath hleaf
  · intro h
    have hpage := congrArg BitVec.toNat h
    rw [pageOf_toNat, pageOf_toNat] at hpage
    simp only [tablePath, leafIndex, List.cons.injEq, and_true, BitVec.toNat_eq,
      BitVec.extractLsb'_toNat, Nat.shiftRight_eq_div_pow]
    omega

/-- A partial map from pages to descriptors. -/
abbrev PageMap := BitVec 36 → Option Word

/-- A call that changes the tables of one root. -/
inductive PtOp
  | map (va pa attrs : Word)
  | unmap (va : Word)
  | update (va attrs : Word)

namespace PageMap

/-- What a call may do to the map, and the code it returns. -/
inductive Step (f : PageMap) : PtOp → Int → PageMap → Prop
  | mapped (va pa attrs : Word) :
      Step f (.map va pa attrs) 0
        (Function.update f (pageOf va) (some (Mmu.pageDescriptor pa attrs)))
  | noMemory (va pa attrs : Word) : Step f (.map va pa attrs) (-1) f
  | unmapped {va e : Word} (h : f (pageOf va) = some e) :
      Step f (.unmap va) 0 (Function.update f (pageOf va) none)
  | absent {va : Word} (h : f (pageOf va) = none) : Step f (.unmap va) (-1) f
  | updated {va e : Word} (attrs : Word) (h : f (pageOf va) = some e) :
      Step f (.update va attrs) 0
        (Function.update f (pageOf va) (some (Mmu.pageDescriptor e attrs)))
  | notUpdated {va : Word} (attrs : Word) (h : f (pageOf va) = none) : Step f (.update va attrs) (-1) f

/-- A run of calls, each with the code it returned. -/
inductive Run : PageMap → List (PtOp × Int) → PageMap → Prop
  | nil (f : PageMap) : Run f [] f
  | cons {f f₁ f₂ : PageMap} {op : PtOp} {rc : Int} {calls : List (PtOp × Int)} :
      f.Step op rc f₁ → Run f₁ calls f₂ → Run f ((op, rc) :: calls) f₂

end PageMap

namespace Mmu

variable {m m' : Mmu} {roots : Set Word} {r t : Word}

/-- The map that the tables under a root stand for. -/
def pageMap (m : Mmu) (pgd : Word) : PageMap := fun n => m.leaf pgd (pageStart n)

/-- The translation of an address is that of its page. -/
theorem leaf_eq_pageMap (m : Mmu) (pgd va : Word) : m.leaf pgd va = m.pageMap pgd (pageOf va) := by
  obtain ⟨hpath, hleaf⟩ := samePage_iff.mpr (pageOf_pageStart (pageOf va))
  rw [pageMap, leaf_eq, leaf_eq, hpath, hleaf]

theorem pageMap_congr (h : ∀ va, m'.leaf r va = m.leaf r va) : m'.pageMap r = m.pageMap r :=
  funext fun n => h (pageStart n)

/-- Where the translations of one page change, the map changes at that page. -/
theorem pageMap_update {va : Word} {v : Option Word}
    (h : ∀ va', m'.leaf r va' = if tablePath va' = tablePath va ∧ leafIndex va' = leafIndex va
      then v else m.leaf r va') :
    m'.pageMap r = Function.update (m.pageMap r) (pageOf va) v := by
  funext n
  have hn := h (pageStart n)
  simp only [samePage_iff, pageOf_pageStart] at hn
  rw [Function.update_apply]
  exact hn

/-! ## Well-formed tables -/

/-- No table is reached in two ways, tables and the allocator's pages are pages below `2^48`, and no
page the allocator has to give is a table. -/
structure WellFormed (roots : Set Word) (m : Mmu) : Prop where
  forest : Forest m.next roots 3
  table : ∀ t, m.IsTable roots t → t.toNat % 4096 = 0 ∧ t.toNat < 2 ^ 48
  base : m.pmm.memBase.toNat % 4096 = 0
  bound : m.pmm.memBase.toNat + 4096 * m.pmm.pagesTotal ≤ 2 ^ 48
  free : ∀ j < m.pmm.pagesTotal, m.pmm.bitmap j = false → ¬ m.IsTable roots (m.pmm.pageToAddr j)

theorem WellFormed.supplied (h : m.WellFormed roots) : m.Supplied roots where
  tree := ⟨h.forest, fun t ht => (h.table t ht).1⟩
  base := h.base
  bound := Nat.le_trans h.bound (by decide)
  free := h.free

/-- Taking pages and writing last-level entries keeps tables well-formed. -/
theorem WellFormed.congr (h : m.WellFormed roots) (hgrows : m.pmm.Grows m'.pmm)
    (hsame : ∀ u, Inner m.next roots 3 u → ∀ i, m'.next u i = m.next u i) : m'.WellFormed roots := by
  refine ⟨h.forest.congr hsame, fun u hu => h.table u ((reached_congr hsame u).mp hu), ?_, ?_, ?_⟩
  · rw [hgrows.base]
    exact h.base
  · rw [hgrows.base, hgrows.total]
    exact h.bound
  · intro j hj hbit hu
    rw [hgrows.total] at hj
    rw [hgrows.pageToAddr] at hu
    refine h.free j hj ?_ ((reached_congr hsame _).mp hu)
    cases hold : m.pmm.bitmap j with
    | false => rfl
    | true => rw [hgrows.bits j hold] at hbit; exact hbit

/-- Tables added by the page are pages below `2^48`. -/
theorem WellFormed.adds {N : Finset (List Index)} (h : m.WellFormed roots)
    (hadds : Adds roots r N m m') : m'.WellFormed roots := by
  have hgrows := hadds.takes.grows
  refine ⟨hadds.supplied.tree.forest, fun t ht => ⟨hadds.supplied.tree.aligned t ht, ?_⟩, ?_, ?_,
    hadds.supplied.free⟩
  · obtain ⟨r', hr', q, hq, hw⟩ := ht
    rcases hadds.only r' hr' q t hq hw with hw | ⟨rfl, -⟩
    · exact (h.table t ⟨r', hr', q, hq, hw⟩).2
    · rcases hadds.takes.fresh t ⟨r', rfl, q, hq, hw⟩ with ⟨_, rfl, q', hq', hw'⟩ | ⟨j, hj, -, rfl⟩
      · exact (h.table t ⟨_, hr', q', hq', hw'⟩).2
      · have hbound := h.bound
        rw [Pmm.pageToAddr_toNat h.supplied.bound hj]
        omega
  · rw [hgrows.base]
    exact h.base
  · rw [hgrows.base, hgrows.total]
    exact h.bound

/-! ## Lack of memory -/

/-- How many of the three tables that a page needs below its root do not exist. -/
def missingTables (m : Mmu) (pgd va : Word) : Nat := m.missing pgd (tablePlaces va).toFinset

theorem missingTables_eq_zero {va : Word} (h : walk m.next r (tablePath va) = some t) :
    m.missingTables r va = 0 := by
  rw [missingTables, missing, Finset.card_eq_zero, Finset.filter_eq_empty_iff]
  intro q hq hnone
  rw [walk_of_missing (List.mem_toFinset.mp hq) hnone] at h
  exact absurd h (by simp)

/-- Where the allocator answers NULL after adding tables, there were not enough pages to begin with. -/
theorem Supplied.short {va : Word} (h : m'.Supplied roots) (hr : r ∈ roots)
    (hadds : Adds roots r (tablePlaces va).toFinset m m') {p' : Pmm}
    (hnull : m'.pmm.allocPage = (0, p')) {q : List Index} (hq : q ∈ tablePlaces va)
    (hnone : walk m'.next r q = none) : m.pmm.Short (m.missingTables r va) := by
  have hmem := List.mem_toFinset.mpr hq
  have hleft : 0 < m'.missing r (tablePlaces va).toFinset :=
    Finset.card_pos.mpr ⟨q, Finset.mem_filter.mpr ⟨hmem, hnone⟩⟩
  have hbefore : 0 < m.missing r (tablePlaces va).toFinset := by
    refine Finset.card_pos.mpr ⟨q, Finset.mem_filter.mpr ⟨hmem, ?_⟩⟩
    cases hw : walk m.next r q with
    | none => rfl
    | some u =>
        rw [hadds.kept r hr q u (length_tablePlaces hq) hw] at hnone
        exact absurd hnone (by simp)
  have hcounted := hadds.balance
  have hclear := hadds.clear
  refine ⟨hbefore, ?_⟩
  rcases (Pmm.short_of_allocPage h.bound hnull).2 with hfree | hfree | ⟨hbase, hbit⟩
  · exact .inl (by rw [missingTables]; omega)
  · exact .inr (.inl (by rw [missingTables]; omega))
  · refine .inr (.inr ⟨hadds.takes.grows.base ▸ hbase, ?_⟩)
    cases hold : m.pmm.bitmap 0 with
    | false => rfl
    | true => rw [hadds.takes.grows.bits 0 hold] at hbit; exact hbit

/-- Where all tables could be added, there were enough pages. -/
theorem Adds.not_short {va : Word} (hadds : Adds roots r (tablePlaces va).toFinset m m')
    (hw : walk m'.next r (tablePath va) = some t) : ¬ m.pmm.Short (m.missingTables r va) := by
  have hzero : m'.missing r (tablePlaces va).toFinset = 0 := missingTables_eq_zero hw
  have hcounted := hadds.balance
  have hclear := hadds.clear
  rintro ⟨hpos, hfree | hfree | hnull⟩
  · rw [missingTables] at hfree
    omega
  · rw [missingTables] at hfree
    omega
  · obtain rfl := hadds.null hnull
    exact absurd hzero (Nat.ne_of_gt hpos)

/-! ## Calls -/

/-- Make a call under the root `pgd`. -/
def callPt (pgd : Word) (m : Mmu) : PtOp → Int × Mmu
  | .map va pa attrs => m.mapPage pgd va pa attrs
  | .unmap va => m.unmapPage pgd va
  | .update va attrs => m.updatePageAttrs pgd va attrs

/-- `m'` is `m` after a call under `pgd` that returned `rc`: a step of the map of `pgd`, with the maps
of the other roots left alone. Mapping lacks memory if and only if there were fewer pages to give before
the call than tables missing. -/
structure CallSpec (roots : Set Word) (pgd : Word) (m : Mmu) (op : PtOp) (rc : Int) (m' : Mmu) :
    Prop where
  wellFormed : m'.WellFormed roots
  step : (m.pageMap pgd).Step op rc (m'.pageMap pgd)
  frame : ∀ r' ∈ roots, r' ≠ pgd → m'.pageMap r' = m.pageMap r'
  noMemory : ∀ va pa attrs, op = .map va pa attrs →
    (rc = -1 ↔ m.pmm.Short (m.missingTables pgd va))

/-- Writing the last-level entry of a page: the map changes there and nowhere else. -/
theorem WellFormed.setLeaf (h : m.WellFormed roots) (hr : r ∈ roots) {va : Word}
    (hw : walk m.next r (tablePath va) = some t) (v : Word) :
    let m' := m.setEntry t ((leafIndex va).setWidth 64) v
    m'.WellFormed roots ∧
      m'.pageMap r = Function.update (m.pageMap r) (pageOf va) (descriptor v) ∧
      ∀ r' ∈ roots, r' ≠ r → m'.pageMap r' = m.pageMap r' := by
  have hleaf := fun r' (hr' : r' ∈ roots) va' =>
    h.supplied.tree.leaf_setLeaf hr hw rfl (leafIndex va) v hr' va'
  refine ⟨h.congr (.refl _) fun u hu j => h.supplied.tree.next_setLeaf hr hw rfl _ v hu j, ?_, ?_⟩
  · refine pageMap_update fun va' => ?_
    rw [hleaf r hr va']
    simp only [true_and]
  · intro r' hr' hne
    refine pageMap_congr fun va' => ?_
    rw [hleaf r' hr' va', if_neg fun hc => hne hc.1]

theorem WellFormed.mapPage (h : m.WellFormed roots) (hr : r ∈ roots) (va pa attrs : Word) :
    CallSpec roots r m (.map va pa attrs) (m.mapPage r va pa attrs).1 (m.mapPage r va pa attrs).2 := by
  obtain ⟨m₁, hadds, hcase⟩ := h.supplied.mapPage (N := (tablePlaces va).toFinset) hr va pa attrs
    (fun q hq => List.mem_toFinset.mpr hq) fun q hq => length_tablePlaces (List.mem_toFinset.mp hq)
  have hwf := h.adds hadds
  have hsame := fun r' hr' => pageMap_congr (hadds.leaf r' hr')
  rcases hcase with ⟨t, hw, heq⟩ | ⟨p', hnull, heq, q, hq, hnone⟩
  · obtain ⟨hwf', hmap, hframe⟩ := hwf.setLeaf hr hw (pageDescriptor pa attrs)
    rw [heq]
    refine ⟨hwf', ?_, fun r' hr' hne => (hframe r' hr' hne).trans (hsame r' hr'), ?_⟩
    · rw [hmap, hsame r hr, descriptor_pageDescriptor]
      exact .mapped va pa attrs
    · rintro _ _ _ ⟨⟩
      exact iff_of_false (show ¬ (0 : Int) = -1 by decide) (hadds.not_short hw)
  · have hgrows := m₁.pmm.grows_allocPage
    rw [hnull] at hgrows
    rw [heq]
    refine ⟨hwf.congr hgrows fun _ _ _ => rfl, ?_, fun r' hr' _ => hsame r' hr', ?_⟩
    · rw [show pageMap { m₁ with pmm := p' } r = m.pageMap r from hsame r hr]
      exact .noMemory va pa attrs
    · rintro _ _ _ ⟨⟩
      exact iff_of_true rfl (hadds.supplied.short hr hadds hnull hq hnone)

/-- Rewriting the descriptor of a page that has one. -/
theorem WellFormed.rewriteLeaf (h : m.WellFormed roots) (hr : r ∈ roots) (va : Word)
    (f : Word → Word) :
    (m.pageMap r (pageOf va) = none ∧ m.rewriteLeaf r va f = (-1, m)) ∨
      ∃ e m', m.pageMap r (pageOf va) = some e ∧ m.rewriteLeaf r va f = (0, m') ∧
        m'.WellFormed roots ∧
        m'.pageMap r = Function.update (m.pageMap r) (pageOf va) (descriptor (f e)) ∧
        ∀ r' ∈ roots, r' ≠ r → m'.pageMap r' = m.pageMap r' := by
  rw [← leaf_eq_pageMap]
  rcases m.rewriteLeaf_cases r va f with hnone | ⟨t, e, hw, hleaf, heq⟩
  · exact .inl hnone
  · exact .inr ⟨e, _, hleaf, heq, h.setLeaf hr hw (f e)⟩

theorem WellFormed.unmapPage (h : m.WellFormed roots) (hr : r ∈ roots) (va : Word) :
    CallSpec roots r m (.unmap va) (m.unmapPage r va).1 (m.unmapPage r va).2 := by
  rw [unmapPage_eq]
  rcases h.rewriteLeaf hr va fun _ => 0 with ⟨hnone, heq⟩ | ⟨e, m₁, hsome, heq, hwf, hmap, hframe⟩
  · rw [heq]
    exact ⟨h, .absent hnone, fun _ _ _ => rfl, fun _ _ _ hop => PtOp.noConfusion hop⟩
  · rw [heq]
    refine ⟨hwf, ?_, hframe, fun _ _ _ hop => PtOp.noConfusion hop⟩
    have hzero : descriptor 0 = none := by decide
    rw [hmap, hzero]
    exact .unmapped hsome

theorem WellFormed.updatePageAttrs (h : m.WellFormed roots) (hr : r ∈ roots) (va attrs : Word) :
    CallSpec roots r m (.update va attrs) (m.updatePageAttrs r va attrs).1
      (m.updatePageAttrs r va attrs).2 := by
  rw [updatePageAttrs_eq]
  rcases h.rewriteLeaf hr va fun e => pageDescriptor e attrs with
    ⟨hnone, heq⟩ | ⟨e, m₁, hsome, heq, hwf, hmap, hframe⟩
  · rw [heq]
    exact ⟨h, .notUpdated attrs hnone, fun _ _ _ => rfl, fun _ _ _ hop => PtOp.noConfusion hop⟩
  · rw [heq]
    refine ⟨hwf, ?_, hframe, fun _ _ _ hop => PtOp.noConfusion hop⟩
    rw [hmap, descriptor_pageDescriptor]
    exact .updated attrs hsome

theorem WellFormed.callPt (h : m.WellFormed roots) (hr : r ∈ roots) (op : PtOp) :
    CallSpec roots r m op (m.callPt r op).1 (m.callPt r op).2 := by
  cases op with
  | map va pa attrs => exact h.mapPage hr va pa attrs
  | unmap va => exact h.unmapPage hr va
  | update va attrs => exact h.updatePageAttrs hr va attrs

theorem WellFormed.run (h : m.WellFormed roots) (hr : r ∈ roots) (ops : List PtOp) :
    (Machine.run (Mmu.callPt r) m ops).2.WellFormed roots ∧
      PageMap.Run (m.pageMap r) (ops.zip (Machine.run (Mmu.callPt r) m ops).1)
        ((Machine.run (Mmu.callPt r) m ops).2.pageMap r) := by
  induction ops generalizing m with
  | nil => exact ⟨h, .nil _⟩
  | cons op ops ih =>
      have hcall := h.callPt hr op
      obtain ⟨hwf, hrun⟩ := ih hcall.wellFormed
      exact ⟨hwf, .cons hcall.step hrun⟩

/-- **The tables refine a map of pages.** From well-formed tables, any run of mapping, unmapping and
updating under a root is a run of the map of that root. In every state reached the translation of an
address is the descriptor of its page in the map, and the next call is a step of the map as well: it
keeps the tables well-formed, leaves the other roots alone, and a mapping returns -1 if and only if the
allocator had fewer pages to give before the call than tables of the page are missing. -/
theorem tables_refine_pageMap {m : Mmu} {roots : Set Word} {pgd : Word} (h : m.WellFormed roots)
    (hr : pgd ∈ roots) (ops : List PtOp) :
    let q := Machine.run (callPt pgd) m ops
    q.2.WellFormed roots ∧ PageMap.Run (m.pageMap pgd) (ops.zip q.1) (q.2.pageMap pgd) ∧
      (∀ va, q.2.leaf pgd va = q.2.pageMap pgd (pageOf va)) ∧
      ∀ op, CallSpec roots pgd q.2 op (q.2.callPt pgd op).1 (q.2.callPt pgd op).2 := by
  obtain ⟨hwf, hrun⟩ := h.run hr ops
  exact ⟨hwf, hrun, fun va => leaf_eq_pageMap _ pgd va, fun op => hwf.callPt hr op⟩

/-- One empty table in the first of four managed pages, the others free. -/
def emptyTables : Mmu where
  pmm :=
    { bitmap := fun j => decide (j = 0), memBase := 0x100000, memSize := 0x4000, pagesTotal := 4,
      pagesFree := 3 }
  mem := fun _ => 0
  ttbr0Pgd := 0x100000
  ttbr1Pgd := 0
  ttbr0 := 0x100000
  ttbr1 := 0
  tlbi := []

theorem wellFormed_emptyTables : emptyTables.WellFormed {0x100000} := by
  have hempty : ∀ t i, emptyTables.next t i = none := fun t i => tableOf_zero
  have htable : ∀ t, emptyTables.IsTable {0x100000} t → t = 0x100000 := by
    rintro t ⟨r, rfl, p, -, hw⟩
    exact (walk_of_empty (hempty _) hw).2
  refine ⟨?_, fun t ht => ?_, by decide, by decide, fun j hj hbit ht => ?_⟩
  · rintro r rfl r' rfl p p' t - - hw hw'
    exact ⟨rfl, (walk_of_empty (hempty _) hw).1.trans (walk_of_empty (hempty _) hw').1.symm⟩
  · rw [htable t ht]
    decide
  · have hj0 : j ≠ 0 := by simpa [emptyTables] using hbit
    have hother : ∀ k < 4, k ≠ 0 → emptyTables.pmm.pageToAddr k ≠ 0x100000 := by decide
    exact hother j hj hj0 (htable _ ht)

/-- The four pages are enough to map one page, which is then unmapped once, not twice; there is none left
for the tables of a page elsewhere. -/
theorem tables_refine_pageMap_one :
    let q := Machine.run (callPt 0x100000) emptyTables
      [.map 0x5000 0x200000 bootAttrs, .unmap 0x5FFF, .unmap 0x5000,
        .map 0x8000000000 0x200000 bootAttrs]
    q.1 = [0, 0, -1, -1] ∧ q.2.WellFormed {0x100000} ∧
      PageMap.Run (emptyTables.pageMap 0x100000)
        [(.map 0x5000 0x200000 bootAttrs, 0), (.unmap 0x5FFF, 0), (.unmap 0x5000, -1),
          (.map 0x8000000000 0x200000 bootAttrs, -1)]
        (q.2.pageMap 0x100000) := by
  have hcodes : (Machine.run (callPt 0x100000) emptyTables
      [.map 0x5000 0x200000 bootAttrs, .unmap 0x5FFF, .unmap 0x5000,
        .map 0x8000000000 0x200000 bootAttrs]).1 = [0, 0, -1, -1] := by
    decide +kernel
  obtain ⟨hwf, hrun, -⟩ := tables_refine_pageMap wellFormed_emptyTables (Set.mem_singleton _)
    [.map 0x5000 0x200000 bootAttrs, .unmap 0x5FFF, .unmap 0x5000, .map 0x8000000000 0x200000 bootAttrs]
  rw [hcodes] at hrun
  exact ⟨hcodes, hwf, hrun⟩

end Mmu

end Arcline
