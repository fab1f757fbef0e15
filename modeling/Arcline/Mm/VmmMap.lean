import Arcline.Mm.PageTable
import Arcline.Mm.VmaPool

set_option autoImplicit false

/-! # What a mapping call leaves in the page tables

`vmm_map` ignores what `mmu_map_page` returns. So its return code 0 means that the range is mapped
exactly when the tables the range still needs are no more than the free pages, and the physical
range fits the 48 address bits of a descriptor.
-/

namespace Arcline

open Radix RbTree

namespace Mmu

/-! ## Mapping a range -/

/-- The places below the root of all tables a range of pages needs. -/
def neededTables (va size : Word) : Finset (List Index) :=
  ((pageOffsets size).flatMap fun off => tablePlaces (va + off)).toFinset

variable {va size pa : Word}

theorem mem_neededTables {q : List Index} :
    q ∈ neededTables va size ↔ ∃ off ∈ pageOffsets size, q ∈ tablePlaces (va + off) := by
  simp only [neededTables, List.mem_toFinset, List.mem_flatMap]

theorem length_neededTables : ∀ q ∈ neededTables va size, q.length ≤ 3 := by
  intro q hq
  obtain ⟨off, -, hq⟩ := mem_neededTables.mp hq
  exact length_tablePlaces hq

/-- A page below a missing table is not mapped. -/
theorem leaf_of_missing {m : Mmu} {r : Word} {q : List Index} (hq : q ∈ tablePlaces va)
    (hw : walk m.next r q = none) : m.leaf r va = none := by
  rw [leaf_eq, walk_of_missing hq hw, Option.bind_none]

/-- Both addresses have the same entries at all four levels. -/
def SamePage (va va' : Word) : Prop := tablePath va' = tablePath va ∧ leafIndex va' = leafIndex va

section Range

variable {roots : Set Word} {live : List (List Nat)} {m : Mmu} {N : Finset (List Index)}

/-- The loop over the pages of a range. The invariant that no allocation fails: there are as many
free pages as missing tables. -/
theorem Inv.mapOffsets (h : m.Inv roots live) (hr : m.ttbr1 ∈ roots) (va pa attrs : Word)
    {offs : List Word} (hN : ∀ off ∈ offs, ∀ q ∈ tablePlaces (va + off), q ∈ N)
    (hshort : ∀ q ∈ N, q.length ≤ 3)
    (hdistinct : offs.Pairwise fun off off' => ¬ SamePage (va + off') (va + off)) :
    ∀ m', m' = offs.foldl (fun m off => (m.mapPage m.ttbr1 (va + off) (pa + off) attrs).2) m →
      Extends roots live m.ttbr1 N m m' ∧
      (∀ va', (∀ off ∈ offs, ¬ SamePage (va + off) va') → m'.leaf m.ttbr1 va' = m.leaf m.ttbr1 va') ∧
      (m.missing m.ttbr1 N ≤ m.pmm.pagesFree → ∀ off ∈ offs,
        m'.leaf m.ttbr1 (va + off) = some (pageDescriptor (pa + off) attrs)) := by
  induction offs generalizing m with
  | nil =>
      rintro m' rfl
      exact ⟨.refl h, fun _ _ => rfl, fun _ off hoff => absurd hoff List.not_mem_nil⟩
  | cons off offs ih =>
      intro m' hm'
      obtain ⟨rc, m₁, heq, hext, -, hother, hres⟩ := h.mapPage hr (va + off) (pa + off) attrs
        (fun q hq => hN off List.mem_cons_self q hq) hshort
      rw [List.foldl_cons, heq] at hm'
      rw [List.pairwise_cons] at hdistinct
      obtain ⟨hext', hother', hres'⟩ := ih hext.inv (hext.ttbr1 ▸ hr)
        (fun o ho => hN o (List.mem_cons_of_mem _ ho)) hdistinct.2 m' hm'
      rw [hext.ttbr1] at hext' hother' hres'
      refine ⟨hext.trans hext', fun va' hva' => ?_, fun hroom o ho => ?_⟩
      · rw [hother' va' fun o ho => hva' o (List.mem_cons_of_mem _ ho)]
        exact hother _ hr va' fun hc => hva' off List.mem_cons_self ⟨hc.2.1, hc.2.2⟩
      · have hbalance := hext.balance
        rcases List.mem_cons.mp ho with rfl | ho
        · rw [hother' _ fun o' ho' => ?_]
          · rcases hres with ⟨-, hleaf⟩ | ⟨-, hfull, q, hq, hnone⟩
            · exact hleaf
            · -- a table is missing though there was a page for each
              have hmem : q ∈ N.filter fun q => walk m₁.next m.ttbr1 q = none :=
                Finset.mem_filter.mpr ⟨hN _ List.mem_cons_self q hq, hnone⟩
              have hpos : 0 < m₁.missing m.ttbr1 N := Finset.card_pos.mpr ⟨q, hmem⟩
              omega
          · exact hdistinct.1 o' ho'
        · exact hres' (by omega) o ho

/-- If tables are missing at the end, the pages they are for are not mapped. -/
theorem Extends.exists_unmapped {m' : Mmu} (h : Extends roots live m.ttbr1 (neededTables va size) m m')
    (hfew : m.pmm.pagesFree < m.missing m.ttbr1 (neededTables va size)) :
    ∃ off ∈ pageOffsets size, m'.leaf m.ttbr1 (va + off) = none := by
  have hbalance := h.balance
  have hpos : 0 < m'.missing m.ttbr1 (neededTables va size) := by omega
  obtain ⟨q, hq⟩ := Finset.card_pos.mp hpos
  obtain ⟨hqN, hnone⟩ := Finset.mem_filter.mp hq
  obtain ⟨off, hoff, hplace⟩ := mem_neededTables.mp hqN
  exact ⟨off, hoff, leaf_of_missing hplace hnone⟩

end Range

/-- The pages of a range of at most `2^48` bytes differ in their bits 47:12. -/
theorem pageOffsets_distinct (va : Word) (hsize : size.toNat ≤ 2 ^ 48) :
    (pageOffsets size).Pairwise fun off off' => ¬ SamePage (va + off') (va + off) := by
  rw [pageOffsets, List.pairwise_map]
  have hrange : (List.range ((size.toNat + 4095) / 4096)).Pairwise fun i j => i < j :=
    List.pairwise_lt_range
  refine hrange.imp_of_mem fun {i j} hi hj hij hsame => ?_
  have hi' := List.mem_range.mp hi
  have hj' := List.mem_range.mp hj
  have hpage := page_eq_of_path hsame.1 hsame.2
  have hva := va.isLt
  rw [BitVec.toNat_add, BitVec.toNat_add, BitVec.toNat_ofNat, BitVec.toNat_ofNat] at hpage
  omega

/-! ## What a descriptor says -/

/-- The bits 47:12 of a descriptor: the page it points to. -/
def outputMask : Word := 0x0000FFFFFFFFF000

def outputAddress (d : Word) : Word := d &&& outputMask

theorem outputAddress_toNat (d : Word) :
    (outputAddress d).toNat = d.toNat % 2 ^ 48 / 4096 * 4096 := by
  have hmask : outputMask = BitVec.ofNat 64 (2 ^ 48 - 1) &&& ~~~(pageSize - 1) := by decide
  have hlow : (d &&& BitVec.ofNat 64 (2 ^ 48 - 1)).toNat = d.toNat % 2 ^ 48 := by
    rw [BitVec.toNat_and, BitVec.toNat_ofNat]
    exact Nat.and_two_pow_sub_one_eq_mod d.toNat 48
  rw [outputAddress, hmask, ← BitVec.and_assoc, ← hlow]
  exact pageDown_toNat _

/-- The walk from TTBR1 maps the page of `va` to `pa` with exactly the attribute bits `bits`. -/
def MapsTo (m : Mmu) (va pa bits : Word) : Prop :=
  ∃ d, m.leaf m.ttbr1 va = some d ∧ outputAddress d = pa ∧ d &&& ~~~outputMask = bits

/-- The pages of a range that descriptors point to fit their 48 address bits. -/
theorem fits_of_outputs (hsize : size ≠ 0) (hpa : pa.toNat % 4096 = 0)
    (h : ∀ off ∈ pageOffsets size, ∃ d, outputAddress d = pa + off) :
    pa.toNat + size.toNat ≤ 2 ^ 48 := by
  have hpos : size.toNat ≠ 0 := fun h0 => hsize (BitVec.eq_of_toNat_eq h0)
  -- otherwise a page of the range has no place in a descriptor
  by_contra hbig
  obtain ⟨i, hi, hge⟩ : ∃ i, i * 4096 < size.toNat ∧
      2 ^ 48 ≤ (pa + BitVec.ofNat 64 (i * 4096)).toNat := by
    have hlt := pa.isLt
    by_cases hhigh : 2 ^ 48 ≤ pa.toNat
    · refine ⟨0, ?_, ?_⟩
      · rw [Nat.zero_mul]
        exact Nat.pos_of_ne_zero hpos
      · rw [Nat.zero_mul, BitVec.add_zero]
        exact hhigh
    · refine ⟨(2 ^ 48 - pa.toNat) / 4096, by omega, ?_⟩
      rw [BitVec.toNat_add, BitVec.toNat_ofNat]
      omega
  obtain ⟨d, hout⟩ := h _ (mem_pageOffsets.mpr ⟨i, hi, rfl⟩)
  have hd := outputAddress_toNat d
  rw [hout] at hd
  omega

theorem outputAddress_of_page (hpa : pa.toNat % 4096 = 0) (hlt : pa.toNat < 2 ^ 48) :
    outputAddress pa = pa := by
  apply BitVec.eq_of_toNat_eq
  rw [outputAddress_toNat]
  omega

theorem pageDescriptor_and (pa attrs e : Word) : pageDescriptor pa attrs &&& e
    = (pageDown pa &&& e) ||| (attrs &&& e) ||| (pteAf &&& e) ||| (pteValid &&& e) := by
  simp only [pageDescriptor, BitVec.and_comm _ e, BitVec.and_or_distrib_left]

/-- A descriptor for a page below `2^48` holds its address and its attributes side by side. -/
theorem pageDescriptor_fields {attrs : Word} (hpa : pa.toNat % 4096 = 0) (hlt : pa.toNat < 2 ^ 48)
    (hattrs : attrs &&& outputMask = 0) :
    outputAddress (pageDescriptor pa attrs) = pa ∧
      pageDescriptor pa attrs &&& ~~~outputMask = attrs ||| pteAf ||| pteValid := by
  have hdown : pageDown pa = pa := by
    apply BitVec.eq_of_toNat_eq
    rw [pageDown_toNat]
    omega
  have hout := outputAddress_of_page hpa hlt
  have hrest : pa &&& ~~~outputMask = 0 := by
    rw [and_not_eq_sub, show pa &&& outputMask = pa from hout]
    exact BitVec.sub_self pa
  have hbits : attrs &&& ~~~outputMask = attrs := by
    rw [and_not_eq_sub, hattrs]
    exact BitVec.sub_zero attrs
  constructor
  · rw [outputAddress, pageDescriptor_and, hdown, show pa &&& outputMask = pa from hout, hattrs]
    simp [pteAf, pteValid, outputMask]
  · rw [pageDescriptor_and, hdown, hrest, hbits]
    simp [pteAf, pteValid, outputMask]

end Mmu

theorem pteAttrs_and_outputMask (attrs : BitVec 32) : pteAttrs attrs &&& Mmu.outputMask = 0 := by
  unfold pteAttrs
  split_ifs <;> decide

/-! ## What `vmm_map` does -/

/-- The areas of the tree. -/
def Vmm.areas (v : Vmm) : Set Vma := {a | ∃ n, v.tree.InTree n ∧ v.tree.val n = a}

namespace Mm

/-- `vmm_map` turns the request down: a check fails, or the pool is used up. -/
def Refuses (m : Mm) (va pa size : Word) : Prop :=
  m.vmm.mapChecks va pa size ≠ some 0 ∨ m.vmm.freeList = none ∧ m.vmm.initialized = true

/-- The tables the range still needs are no more than the free pages, and its physical addresses
fit a descriptor. -/
def Fits (m : Mm) (va pa size : Word) : Prop :=
  pa.toNat + size.toNat ≤ 2 ^ 48 ∧
    m.mmu.missing m.mmu.ttbr1 (Mmu.neededTables va size) ≤ m.mmu.pmm.pagesFree

/-- What a caller reads from the return code: 0 means that the range is mapped, anything else that
nothing has changed. -/
structure Honours (m m' : Mm) (rc : Int) (va pa size : Word) (attrs : BitVec 32) : Prop where
  mapped : rc = 0 → ∀ off ∈ pageOffsets size,
    m'.mmu.MapsTo (va + off) (pa + off) (pteAttrs attrs ||| pteAf ||| pteValid)
  areas : rc ≠ 0 → m'.vmm.areas = m.vmm.areas
  leaf : rc ≠ 0 → ∀ pgd va', m'.mmu.leaf pgd va' = m.mmu.leaf pgd va'

/-- The pool is never empty right after it is set up. -/
theorem vmaAllocNode_none {v v' : Vmm} (h : v.vmaAllocNode = (none, v')) :
    v.freeList = none ∧ v.initialized = true ∧ v' = v := by
  cases hfree : v.freeList with
  | some n =>
      rw [Vmm.vmaAllocNode_of_some hfree] at h
      exact absurd (Prod.mk.inj h).1 (by simp)
  | none =>
      cases hinit : v.initialized with
      | true =>
          simp only [Vmm.vmaAllocNode, hfree, hinit, if_true] at h
          exact ⟨rfl, rfl, (Prod.mk.inj h).2.symm⟩
      | false =>
          have hsome := Vmm.vmaAllocNode_of_none hfree hinit
          rw [show v.vmaAllocNode = (none, v') from h] at hsome
          exact absurd hsome (by simp)

theorem mapChecks_zero {v : Vmm} {va pa size : Word} (h : v.mapChecks va pa size = some 0) :
    size ≠ 0 ∧ va.toNat % 4096 = 0 ∧ pa.toNat % 4096 = 0 ∧ size.toNat % 4096 = 0 := by
  unfold Vmm.mapChecks at h
  split at h
  · exact absurd h (by decide)
  · rename_i hsize
    split at h
    · exact absurd h (by decide)
    · rename_i halign
      simp only [ne_eq, not_or, not_not, pageOffset_eq_zero] at halign
      exact ⟨hsize, halign⟩

/-- A call either turns the request down and changes nothing, or maps the area and returns 0. -/
theorem vmmMap_cases {m m' : Mm} {va pa size : Word} {attrs : BitVec 32} {rc : Int}
    (h : m.vmmMap va pa size attrs = some (rc, m')) :
    (m.Refuses va pa size ∧ rc ≠ 0 ∧ m' = m) ∨
      (¬ m.Refuses va pa size ∧ rc = 0 ∧ m'.mmu = m.mmu.mapArea va pa size attrs) := by
  unfold vmmMap at h
  rw [Option.bind_eq_some_iff] at h
  obtain ⟨rc', hcheck, h⟩ := h
  split at h
  · rename_i hne
    obtain ⟨rfl, rfl⟩ := Prod.mk.inj (Option.some.inj h)
    refine .inl ⟨.inl ?_, hne, rfl⟩
    rw [hcheck]
    simpa using hne
  · rename_i hzero
    rw [not_not] at hzero
    subst hzero
    cases halloc : m.vmm.vmaAllocNode with
    | mk node v =>
        rw [halloc] at h
        cases node with
        | none =>
            obtain ⟨hfree, hinit, rfl⟩ := vmaAllocNode_none halloc
            obtain ⟨rfl, rfl⟩ := Prod.mk.inj (Option.some.inj h)
            exact .inl ⟨.inr ⟨hfree, hinit⟩, by decide, rfl⟩
        | some n =>
            dsimp only at h
            rw [Option.map_eq_some_iff] at h
            obtain ⟨v', -, h⟩ := h
            obtain ⟨rfl, rfl⟩ := Prod.mk.inj h
            refine .inr ⟨?_, rfl, rfl⟩
            rintro (hne | ⟨hfree, hinit⟩)
            · exact hne hcheck
            · simp [Vmm.vmaAllocNode, hfree, hinit] at halloc

section Accepted

variable {m : Mm} {roots : Set Word} {live : List (List Nat)}

/-- **An accepted range is mapped exactly when it fits.** -/
theorem mapArea_iff (h : m.mmu.Inv roots live) (hr : m.mmu.ttbr1 ∈ roots) (hne : m.mmu.ttbr1 ≠ 0)
    (va : Word) {pa size : Word} (hsize : size ≠ 0) (hpa : pa.toNat % 4096 = 0)
    (hsz : size.toNat % 4096 = 0) (attrs : BitVec 32) :
    (∀ off ∈ pageOffsets size, (m.mmu.mapArea va pa size attrs).MapsTo (va + off) (pa + off)
      (pteAttrs attrs ||| pteAf ||| pteValid)) ↔ m.Fits va pa size := by
  have harea : m.mmu.mapArea va pa size attrs
      = (m.mmu.mapRange va pa size (pteAttrs attrs)).tlbFlushRange va size := if_neg hne
  rw [harea]
  have hrange := fun hdistinct => h.mapOffsets hr va pa (pteAttrs attrs)
    (fun off ho q hq => Mmu.mem_neededTables.mpr ⟨off, ho, hq⟩) Mmu.length_neededTables hdistinct
    (m.mmu.mapRange va pa size (pteAttrs attrs)) rfl
  constructor
  · intro hmaps
    have hfit : pa.toNat + size.toNat ≤ 2 ^ 48 := by
      refine Mmu.fits_of_outputs hsize hpa fun off ho => ?_
      obtain ⟨d, -, hout, -⟩ := hmaps off ho
      exact ⟨d, hout⟩
    refine ⟨hfit, ?_⟩
    by_contra hfew
    obtain ⟨hext, -, -⟩ := hrange (Mmu.pageOffsets_distinct va (by omega))
    obtain ⟨off, ho, hnone⟩ := hext.exists_unmapped (by omega)
    obtain ⟨d, hleaf, -⟩ := hmaps off ho
    have hleaf' : (m.mmu.mapRange va pa size (pteAttrs attrs)).leaf
        (m.mmu.mapRange va pa size (pteAttrs attrs)).ttbr1 (va + off) = some d := hleaf
    rw [hext.ttbr1, hnone] at hleaf'
    exact absurd hleaf' (by simp)
  · rintro ⟨hfit, hroom⟩ off ho
    obtain ⟨hext, -, hmapped⟩ := hrange (Mmu.pageOffsets_distinct va (by omega))
    obtain ⟨i, hi, rfl⟩ := mem_pageOffsets.mp ho
    have hpage : (pa + BitVec.ofNat 64 (i * 4096)).toNat = pa.toNat + i * 4096 := by
      rw [BitVec.toNat_add, BitVec.toNat_ofNat]
      omega
    have halign : (pa + BitVec.ofNat 64 (i * 4096)).toNat % 4096 = 0 := by omega
    obtain ⟨hout, hbits⟩ := Mmu.pageDescriptor_fields halign (by omega)
      (pteAttrs_and_outputMask attrs)
    refine ⟨_, ?_, hout, hbits⟩
    have hleaf := hmapped hroom _ ho
    rw [← hext.ttbr1] at hleaf
    exact hleaf

end Accepted

end Mm

end Arcline
