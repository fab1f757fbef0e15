import Arcline.Mm.Window
import Arcline.Mm.VmmRefine

set_option autoImplicit false

/-! # Protecting an area against mapping it again

`mmu_update_page_attrs` takes the address of a page from its descriptor by clearing the bits 11:0. The
bits 63:48 stay, and among them are UXN and PXN. So `vmm_protect` can forbid execution, but the only way
to allow it again is to unmap the area and map it with other attributes.
-/

namespace Arcline

open Radix

namespace Mmu

/-- The bits of a descriptor above the address. -/
def upperBits : Word := 0xFFFF000000000000

/-- The descriptor has bits above the address that `attrs` has not. -/
def Stale (d attrs : Word) : Prop := d &&& upperBits &&& ~~~attrs ≠ 0

instance (d attrs : Word) : Decidable (Stale d attrs) := inferInstanceAs (Decidable (_ ≠ _))

/-- A field `u` beside `x` and `b` makes no difference exactly when `a` has all its bits. -/
theorem or_or_eq_iff {x u a b : Word} (hx : u &&& x = 0) (hb : u &&& b = 0) :
    x ||| u ||| a ||| b = x ||| a ||| b ↔ u &&& ~~~a = 0 := by
  have hbit : ∀ {v w : Word}, v &&& w = 0 → ∀ i, (v.getLsbD i && w.getLsbD i) = false := by
    intro v w h i
    rw [← BitVec.getLsbD_and, h]
    exact BitVec.getLsbD_zero
  constructor
  · intro h
    apply BitVec.eq_of_getLsbD_eq
    intro i hi
    have hi' := congrArg (fun w : Word => w.getLsbD i) h
    have h1 := hbit hx i
    have h2 := hbit hb i
    simp only [BitVec.getLsbD_or, BitVec.getLsbD_and, BitVec.getLsbD_not, hi, decide_true,
      Bool.true_and] at hi' ⊢
    revert hi' h1 h2
    cases x.getLsbD i <;> cases u.getLsbD i <;> cases a.getLsbD i <;> cases b.getLsbD i <;> simp
  · intro h
    apply BitVec.eq_of_getLsbD_eq
    intro i hi
    have h1 := hbit h i
    simp only [BitVec.getLsbD_or, BitVec.getLsbD_not, hi, decide_true, Bool.true_and] at h1 ⊢
    revert h1
    cases x.getLsbD i <;> cases u.getLsbD i <;> cases a.getLsbD i <;> simp

/-- The descriptor `mmu_update_page_attrs` makes of `d` is the one `mmu_map_page` writes for the same
page exactly when `d` has no stale bits. -/
theorem pageDescriptor_eq_iff (d attrs : Word) :
    pageDescriptor d attrs = pageDescriptor (outputAddress d) attrs ↔ ¬ Stale d attrs := by
  have hkeep : pageDown d = outputAddress d ||| d &&& upperBits := by
    rw [outputAddress, ← BitVec.and_or_distrib_left]
    rfl
  have hpage : pageDown (outputAddress d) = outputAddress d := by
    apply BitVec.eq_of_toNat_eq
    rw [pageDown_toNat, outputAddress_toNat]
    omega
  have hdisj : ∀ b : Word, upperBits &&& b = 0 → d &&& upperBits &&& b = 0 := by
    intro b hb
    rw [BitVec.and_assoc, hb]
    exact BitVec.and_zero
  have hx : d &&& upperBits &&& outputAddress d = 0 := by
    rw [outputAddress, BitVec.and_comm d outputMask, ← BitVec.and_assoc, hdisj outputMask (by decide)]
    exact BitVec.zero_and
  rw [pageDescriptor, pageDescriptor, hkeep, hpage, Stale, not_not,
    BitVec.or_assoc _ pteAf, BitVec.or_assoc _ pteAf]
  exact or_or_eq_iff hx (hdisj _ (by decide))

/-- The area is mapped: the walk from TTBR1 leads from each page of its range to the page at the same
offset of its physical range. -/
def Maps (m : Mmu) (a : Vma) : Prop :=
  ∀ off ∈ pageOffsets a.size, ∃ d, m.leaf m.ttbr1 (a.va + off) = some d ∧
    outputAddress d = a.pa + off

/-! ## What the loops leave -/

section Loops

variable {roots : Set Word} {live : List (List Nat)} {m : Mmu}

theorem Inv.rewriteLeaf_self (h : m.Inv roots live) {r : Word} (hr : r ∈ roots) (va : Word)
    (f : Word → Word) :
    (m.rewriteLeaf r va f).2.leaf r va = (m.leaf r va).bind fun e => descriptor (f e) := by
  rcases h.rewriteLeaf_cases hr va f with ⟨hnone, heq⟩ | ⟨e, m', hsome, heq, -, hleaf⟩
  · rw [heq, hnone, Option.bind_none]
  · rw [heq, hsome]
    exact (hleaf r hr va).trans (if_pos ⟨rfl, rfl, rfl⟩)

/-- The loop over the pages of a range rewrites the descriptor of each once. -/
theorem Inv.rewriteOffsets (h : m.Inv roots live) (hr : m.ttbr1 ∈ roots) (va : Word)
    (f : Word → Word) {offs : List Word}
    (hdistinct : offs.Pairwise fun off off' => ¬ SamePage (va + off') (va + off)) :
    ∀ m', m' = offs.foldl (fun m off => (m.rewriteLeaf m.ttbr1 (va + off) f).2) m →
      Extends roots live m.ttbr1 ∅ m m' ∧ ∀ off ∈ offs,
        m'.leaf m.ttbr1 (va + off) = (m.leaf m.ttbr1 (va + off)).bind fun e => descriptor (f e) := by
  induction offs generalizing m with
  | nil =>
      rintro m' rfl
      exact ⟨.refl h, fun off hoff => absurd hoff List.not_mem_nil⟩
  | cons off offs ih =>
      intro m' hm'
      rw [List.foldl_cons] at hm'
      rw [List.pairwise_cons] at hdistinct
      have hself := h.rewriteLeaf_self hr (va + off) f
      obtain ⟨hinv, hedit⟩ := h.rewriteLeaf_edits hr (va + off) f
      have hext := h.rewriteLeaf hr (va + off) f
      set m₁ := (m.rewriteLeaf m.ttbr1 (va + off) f).2
      have hr₁ : m₁.ttbr1 ∈ roots := hext.ttbr1 ▸ hr
      obtain ⟨hext', hleaf'⟩ := ih hinv hr₁ hdistinct.2 m' hm'
      have hrest := edits_foldl (S := {n | ∃ o ∈ offs, pageOf (va + o) = n})
        (fun m o h hr => h.rewriteLeaf_edits hr (va + o) f) hinv hr₁ fun o ho => ⟨o, ho, rfl⟩
      rw [← hm'] at hrest
      rw [hext.ttbr1] at hext' hleaf' hrest
      refine ⟨hext.trans hext', fun o ho => ?_⟩
      rcases List.mem_cons.mp ho with rfl | ho
      · -- the other iterations are for other pages
        rw [hrest.leaf _ hr _ ?_]
        · exact hself
        · rintro ⟨-, o', ho', hsame⟩
          exact hdistinct.1 o' ho' (samePage_iff.mpr hsame.symm)
      · rw [hleaf' o ho, hedit.leaf _ hr _ ?_]
        rintro ⟨-, hsame⟩
        exact hdistinct.1 o ho (samePage_iff.mpr hsame.symm)

/-- What `vmm_protect` leaves in the descriptors. -/
theorem Good.leaf_protectArea (h : m.Good roots live) (hne : m.ttbr1 ≠ 0) (va : Word) {size : Word}
    (hsize : size.toNat ≤ 2 ^ 48) (attrs : BitVec 32) :
    (m.protectArea va size attrs).ttbr1 = m.ttbr1 ∧ ∀ off ∈ pageOffsets size,
      ∀ d, m.leaf m.ttbr1 (va + off) = some d →
        (m.protectArea va size attrs).leaf m.ttbr1 (va + off)
          = some (pageDescriptor d (pteAttrs attrs)) := by
  obtain ⟨hext, hleaf⟩ := h.inv.rewriteOffsets (h.rooted.ttbr1 hne) va
    (fun e => pageDescriptor e (pteAttrs attrs)) (pageOffsets_distinct va hsize)
    (m.updateRange va size (pteAttrs attrs)) rfl
  rw [Mmu.protectArea, if_neg hne]
  refine ⟨hext.ttbr1, fun off hoff d hd => ?_⟩
  refine (hleaf off hoff).trans ?_
  rw [hd, Option.bind_some, descriptor_pageDescriptor]

/-- What `vmm_map` leaves in the descriptors, if there are pages for the missing tables. -/
theorem Good.leaf_mapArea (h : m.Good roots live) (hne : m.ttbr1 ≠ 0) (va pa : Word) {size : Word}
    (hsize : size.toNat ≤ 2 ^ 48)
    (hroom : m.missing m.ttbr1 (neededTables va size) ≤ m.pmm.pagesFree) (attrs : BitVec 32) :
    (m.mapArea va pa size attrs).ttbr1 = m.ttbr1 ∧ ∀ off ∈ pageOffsets size,
      (m.mapArea va pa size attrs).leaf m.ttbr1 (va + off)
        = some (pageDescriptor (pa + off) (pteAttrs attrs)) := by
  obtain ⟨hext, -, hmapped⟩ := h.inv.mapOffsets (h.rooted.ttbr1 hne) va pa (pteAttrs attrs)
    (fun off ho q hq => mem_neededTables.mpr ⟨off, ho, hq⟩) length_neededTables
    (pageOffsets_distinct va hsize) (m.mapRange va pa size (pteAttrs attrs)) rfl
  rw [Mmu.mapArea, if_neg hne]
  exact ⟨hext.ttbr1, hmapped hroom⟩

/-- What `vmm_unmap` and `vmm_map` leave in the descriptors of an area that was mapped: the tables are
there, so the second call has all it needs. -/
theorem Good.leaf_remapArea (h : m.Good roots live) (hne : m.ttbr1 ≠ 0) {a : Vma}
    (hsize : a.size.toNat ≤ 2 ^ 48) (hmaps : m.Maps a) (attrs : BitVec 32) :
    ((m.unmapArea a.va a.size).mapArea a.va a.pa a.size attrs).ttbr1 = m.ttbr1 ∧
      ∀ off ∈ pageOffsets a.size,
        ((m.unmapArea a.va a.size).mapArea a.va a.pa a.size attrs).leaf m.ttbr1 (a.va + off)
          = some (pageDescriptor (a.pa + off) (pteAttrs attrs)) := by
  have hr := h.rooted.ttbr1 hne
  obtain ⟨hext, -⟩ := h.inv.rewriteOffsets hr a.va (fun _ => 0) (pageOffsets_distinct a.va hsize)
    (m.unmapRange a.va a.size) rfl
  have hgood := h.unmapArea a.va a.size
  have harea : m.unmapArea a.va a.size = (m.unmapRange a.va a.size).tlbFlushRange a.va a.size :=
    if_neg hne
  have hreg : (m.unmapArea a.va a.size).ttbr1 = m.ttbr1 := by
    rw [harea]
    exact hext.ttbr1
  have hwalk : ∀ (q : List Index) (u : Word), q.length ≤ 3 → walk m.next m.ttbr1 q = some u →
      walk (m.unmapArea a.va a.size).next m.ttbr1 q = some u := by
    rw [harea]
    exact fun q u hq hw => hext.kept _ hr q u hq hw
  set m₁ := m.unmapArea a.va a.size
  -- no table of the range is missing
  have hmissing : m₁.missing m₁.ttbr1 (neededTables a.va a.size) = 0 := by
    refine Finset.card_eq_zero.mpr (Finset.filter_eq_empty_iff.mpr fun q hq hnone => ?_)
    obtain ⟨off, hoff, hplace⟩ := mem_neededTables.mp hq
    obtain ⟨d, hd, -⟩ := hmaps off hoff
    cases hw : walk m.next m.ttbr1 q with
    | none => exact absurd (hd.symm.trans (leaf_of_missing hplace hw)) (by simp)
    | some u =>
        rw [hreg, hwalk q u (length_neededTables q hq) hw] at hnone
        exact absurd hnone (by simp)
  obtain ⟨hreg₂, hleaf⟩ := hgood.leaf_mapArea (hreg.symm ▸ hne) a.va a.pa hsize
    (by rw [hmissing]; exact Nat.zero_le _) attrs
  rw [hreg] at hreg₂ hleaf
  exact ⟨hreg₂, hleaf⟩

end Loops

end Mmu

/-! ## The attribute bits -/

/-- The bits that forbid execution. -/
def upperAttrs (uxn pxn : Bool) : Word := (if uxn then pteUxn else 0) ||| (if pxn then ptePxn else 0)

theorem pteAttrs_upper (attrs : BitVec 32) : pteAttrs attrs &&& Mmu.upperBits
    = upperAttrs (attrs &&& vmmAttrUxn ≠ 0) (attrs &&& vmmAttrPxn ≠ 0) := by
  simp only [pteAttrs, upperAttrs, decide_eq_true_eq]
  split_ifs <;> decide

theorem upperAttrs_sub_iff : ∀ u p u' p' : Bool,
    upperAttrs u p &&& ~~~(upperAttrs u' p') = 0 ↔ (u = true → u' = true) ∧ (p = true → p' = true) := by
  decide

/-- Attributes go from `old` to `new` without allowing execution that was forbidden. -/
def Tightens (old new : BitVec 32) : Prop :=
  (old &&& vmmAttrUxn ≠ 0 → new &&& vmmAttrUxn ≠ 0) ∧
    (old &&& vmmAttrPxn ≠ 0 → new &&& vmmAttrPxn ≠ 0)

instance (old new : BitVec 32) : Decidable (Tightens old new) := inferInstanceAs (Decidable (_ ∧ _))

/-- For a descriptor that `vmm_map` wrote, the stale bits are those of forbidden execution. -/
theorem stale_iff {pa : Word} (hlt : pa.toNat < 2 ^ 48) (old new : BitVec 32) :
    ¬ Mmu.Stale (Mmu.pageDescriptor pa (pteAttrs old)) (pteAttrs new) ↔ Tightens old new := by
  have hpa : pageDown pa &&& Mmu.upperBits = 0 := by
    have hout : pageDown pa = Mmu.outputAddress pa := by
      apply BitVec.eq_of_toNat_eq
      rw [pageDown_toNat, Mmu.outputAddress_toNat, Nat.mod_eq_of_lt hlt]
    rw [hout, Mmu.outputAddress, BitVec.and_assoc, show Mmu.outputMask &&& Mmu.upperBits = 0 by decide]
    exact BitVec.and_zero
  have hupper : Mmu.pageDescriptor pa (pteAttrs old) &&& Mmu.upperBits
      = pteAttrs old &&& Mmu.upperBits := by
    rw [Mmu.pageDescriptor_and, hpa, show pteAf &&& Mmu.upperBits = 0 by decide,
      show pteValid &&& Mmu.upperBits = 0 by decide]
    simp
  have hmask : ∀ x y : Word, x &&& Mmu.upperBits &&& ~~~y
      = x &&& Mmu.upperBits &&& ~~~(y &&& Mmu.upperBits) := by
    intro x y
    apply BitVec.eq_of_getLsbD_eq
    intro i hi
    simp only [BitVec.getLsbD_and, BitVec.getLsbD_not, hi, decide_true, Bool.true_and]
    cases x.getLsbD i <;> cases y.getLsbD i <;> cases Mmu.upperBits.getLsbD i <;> rfl
  rw [Mmu.Stale, not_not, hupper, hmask, pteAttrs_upper, pteAttrs_upper, upperAttrs_sub_iff, Tightens]
  simp only [decide_eq_true_eq]

/-! ## The calls -/

namespace MmSys

open Mmu

section Remap

variable {roots : Set Word} {s : MmSys} {a : Vma} {attrs : BitVec 32} {m' m₁ m₂ : Mm}

/-- The descriptor of each page after `vmm_protect`, and after `vmm_unmap` and `vmm_map`. -/
theorem leaf_protect_remap (h : s.mm.mmu.Good roots s.live) (httbr : s.mm.mmu.ttbr1 ≠ 0)
    (harea : s.mm.vmm.Finds a) (hmaps : s.mm.mmu.Maps a)
    (hprotect : s.mm.vmmProtect a.va a.size attrs = some (0, m'))
    (hunmap : s.mm.vmmUnmap a.va a.size = some (0, m₁))
    (hmap : m₁.vmmMap a.va a.pa a.size attrs = some (0, m₂)) :
    a.size ≠ 0 ∧ a.pa.toNat % 4096 = 0 ∧ a.pa.toNat + a.size.toNat ≤ 2 ^ 48 ∧
      ∀ off ∈ pageOffsets a.size, ∀ d, s.mm.mmu.leaf s.mm.mmu.ttbr1 (a.va + off) = some d →
        m'.mmu.leaf m'.mmu.ttbr1 (a.va + off) = some (pageDescriptor d (pteAttrs attrs)) ∧
        m₂.mmu.leaf m₂.mmu.ttbr1 (a.va + off)
          = some (pageDescriptor (outputAddress d) (pteAttrs attrs)) := by
  have hmmu' := harea.vmmProtect hprotect
  have hmmu₁ := harea.vmmUnmap hunmap
  rcases Mm.vmmMap_cases hmap with ⟨-, hne, -⟩ | ⟨hrefuse, -, hmmu₂⟩
  · exact absurd rfl hne
  have hchecks : m₁.vmm.mapChecks a.va a.pa a.size = some 0 := by
    by_contra hne
    exact hrefuse (.inl hne)
  obtain ⟨hsize, -, hpa, -⟩ := Mm.mapChecks_zero hchecks
  have hfit := fits_of_outputs hsize hpa fun off hoff => by
    obtain ⟨d, -, hout⟩ := hmaps off hoff
    exact ⟨d, hout⟩
  have hle : a.size.toNat ≤ 2 ^ 48 := by omega
  refine ⟨hsize, hpa, hfit, fun off hoff d hd => ?_⟩
  obtain ⟨d', hd', hout⟩ := hmaps off hoff
  obtain rfl : d' = d := Option.some.inj (hd'.symm.trans hd)
  obtain ⟨hreg', hleaf'⟩ := h.leaf_protectArea httbr a.va hle attrs
  obtain ⟨hreg₂, hleaf₂⟩ := h.leaf_remapArea httbr hle hmaps attrs
  constructor
  · rw [hmmu', hreg']
    exact hleaf' off hoff d' hd
  · rw [hmmu₂, hmmu₁, hreg₂, hout]
    exact hleaf₂ off hoff

end Remap

/-- **Protecting an area is mapping it again exactly when no descriptor of it has stale bits**: in every
state reached after boot, for every area that is mapped and all attributes. For descriptors that `vmm_map`
wrote with the attributes of the area this says that no execution is allowed that was forbidden. -/
theorem protect_eq_remap_iff {env : BootEnv} {fuel : Nat} {p : Pmm}
    (hinit : env.pmmInitFromDtb fuel = some p) {mem : Word → Word} {s : MmSys}
    (hreach : Machine.Reach step Owns (boot p mem env.image) s) (httbr : s.mm.mmu.ttbr1 ≠ 0)
    {a : Vma} (harea : s.mm.vmm.Finds a) (hmaps : s.mm.mmu.Maps a) {attrs : BitVec 32} {m' m₁ m₂ : Mm}
    (hprotect : s.mm.vmmProtect a.va a.size attrs = some (0, m'))
    (hunmap : s.mm.vmmUnmap a.va a.size = some (0, m₁))
    (hmap : m₁.vmmMap a.va a.pa a.size attrs = some (0, m₂)) :
    ((∀ off ∈ pageOffsets a.size,
        m'.mmu.leaf m'.mmu.ttbr1 (a.va + off) = m₂.mmu.leaf m₂.mmu.ttbr1 (a.va + off) ∧
        m'.mmu.MapsTo (a.va + off) (a.pa + off) (pteAttrs attrs ||| pteAf ||| pteValid)) ↔
      ∀ off ∈ pageOffsets a.size, ∀ d, s.mm.mmu.leaf s.mm.mmu.ttbr1 (a.va + off) = some d →
        ¬ Stale d (pteAttrs attrs)) ∧
    ((∀ off ∈ pageOffsets a.size, s.mm.mmu.leaf s.mm.mmu.ttbr1 (a.va + off)
        = some (pageDescriptor (a.pa + off) (pteAttrs a.attrs))) →
      ((∀ off ∈ pageOffsets a.size, ∀ d, s.mm.mmu.leaf s.mm.mmu.ttbr1 (a.va + off) = some d →
        ¬ Stale d (pteAttrs attrs)) ↔ Tightens a.attrs attrs)) := by
  obtain ⟨roots, hgood⟩ := good_of_reach hinit hreach
  obtain ⟨hsize, hpa, hfit, hleaf⟩ := leaf_protect_remap hgood httbr harea hmaps hprotect hunmap hmap
  -- the physical pages of the area
  have hpage : ∀ off ∈ pageOffsets a.size,
      (a.pa + off).toNat % 4096 = 0 ∧ (a.pa + off).toNat < 2 ^ 48 := by
    intro off hoff
    obtain ⟨i, hi, rfl⟩ := mem_pageOffsets.mp hoff
    rw [BitVec.toNat_add, BitVec.toNat_ofNat]
    omega
  constructor
  · constructor
    · intro hsame off hoff d hd
      obtain ⟨hprot, hremap⟩ := hleaf off hoff d hd
      have heq := (hsame off hoff).1
      rw [hprot, hremap] at heq
      exact (pageDescriptor_eq_iff d _).mp (Option.some.inj heq)
    · intro hclean off hoff
      obtain ⟨d, hd, hout⟩ := hmaps off hoff
      obtain ⟨hprot, hremap⟩ := hleaf off hoff d hd
      have heq := (pageDescriptor_eq_iff d _).mpr (hclean off hoff d hd)
      rw [heq] at hprot
      refine ⟨hprot.trans hremap.symm, _, hprot, ?_⟩
      rw [hout]
      exact pageDescriptor_fields (hpage off hoff).1 (hpage off hoff).2 (pteAttrs_and_outputMask attrs)
  · intro hwrote
    constructor
    · intro hclean
      have hpos : a.size.toNat ≠ 0 := fun h0 => hsize (BitVec.eq_of_toNat_eq h0)
      have hfirst : BitVec.ofNat 64 (0 * 4096) ∈ pageOffsets a.size :=
        mem_pageOffsets.mpr ⟨0, by omega, rfl⟩
      exact (stale_iff (hpage _ hfirst).2 _ _).mp (hclean _ hfirst _ (hwrote _ hfirst))
    · intro htight off hoff d hd
      obtain rfl := Option.some.inj ((hwrote off hoff).symm.trans hd)
      exact (stale_iff (hpage off hoff).2 _ _).mpr htight

/-! ## On a machine with 1 GiB -/

/-- Where the manager stands for an address space, every area can be protected, and unmapped and mapped
again. -/
theorem remap_succeeds {m : Mm} {A : AddressSpace} (h : m.Refines A) {a : Vma} (ha : a ∈ A.areas)
    (attrs : BitVec 32) :
    m.vmm.Finds a ∧ (∃ m', m.vmmProtect a.va a.size attrs = some (0, m')) ∧
      ∃ m₁ m₂, m.vmmUnmap a.va a.size = some (0, m₁) ∧
        m₁.vmmMap a.va a.pa a.size attrs = some (0, m₂) := by
  obtain ⟨t, free, h⟩ := h
  have hfinds := Mm.finds_of_mem h ha
  obtain ⟨m', hprotect, -⟩ := Mm.vmmProtect_refines h a.va a.size attrs
  obtain ⟨m₁, hunmap, h₁⟩ := Mm.vmmUnmap_refines h a.va a.size
  rw [AddressSpace.protect, AddressSpace.onArea_of_mem ha] at hprotect
  rw [AddressSpace.unmap, AddressSpace.onArea_of_mem ha] at hunmap h₁
  refine ⟨hfinds, ⟨m', hprotect⟩, m₁, ?_⟩
  obtain ⟨t₁, free₁, h₁⟩ := h₁
  -- the area overlaps none of those left
  have hp := A.placed a ha
  set b : Vma := { a with attrs := attrs } with hb
  have hpb : b.Placed := ⟨hp.size, hp.aligned, hp.bound⟩
  have hno : ¬ ∃ c ∈ (A.remove a.va).areas, c.Overlaps b := by
    rintro ⟨c, hc, hover⟩
    obtain ⟨hc, hne⟩ := Finset.mem_filter.mp hc
    exact A.disjoint c hc a ha (fun heq => hne (heq ▸ rfl)) hover
  have hless : (A.remove a.va).areas.card < A.areas.card :=
    Finset.card_lt_card (Finset.filter_ssubset.mpr ⟨a, ha, by simp⟩)
  have hcard := Mm.Refines.card h
  have hlength := h.inv.length
  obtain ⟨m₂, hmap, -⟩ := Mm.vmmMap_placed h₁ hpb hno
    (show (A.remove a.va).areas.card < vmaPoolCap by omega)
  exact ⟨m₂, hunmap, hmap⟩

/-- The first page, mapped to itself right after boot. -/
theorem exists_mapped (attrs : BitVec 32) :
    ∃ p s, (oneBank 0x40000000 0x40000000).pmmInitFromDtb 20 = some p ∧
      Machine.Reach step Owns (boot p (fun _ => 0) (oneBank 0x40000000 0x40000000).image) s ∧
      s.mm.mmu.ttbr1 ≠ 0 ∧
      (∃ A, s.mm.Refines A ∧ (⟨0, 0, 4096, attrs⟩ : Vma) ∈ A.areas) ∧
      ∀ off ∈ pageOffsets 4096, s.mm.mmu.leaf s.mm.mmu.ttbr1 (0 + off)
        = some (pageDescriptor (0 + off) (pteAttrs attrs)) := by
  obtain ⟨p, hinit, hfree, -⟩ := init_oneGiB
  refine ⟨p, ?_⟩
  obtain ⟨roots, hgood, hroot⟩ := good_boot hinit (fun _ => 0) (oneBank 0x40000000 0x40000000).image
  obtain ⟨hne, -⟩ := hroot (by omega)
  have hleft := boot_free hinit (fun _ => 0) (oneBank 0x40000000 0x40000000).image
  have hhigh : (highPages (oneBank 0x40000000 0x40000000).image).length = 20 := by decide +kernel
  obtain ⟨t, free, hrefines⟩ : (boot p (fun _ => 0)
    (oneBank 0x40000000 0x40000000).image).mm.Refines .empty := Mm.booted_refines _
  generalize boot p (fun _ => 0) (oneBank 0x40000000 0x40000000).image = b at *
  have hp : (⟨0, 0, 4096, attrs⟩ : Vma).Placed := by
    refine ⟨show (4096 : Word) ≠ 0 by decide, ?_, show 4096 < 2 ^ 64 by decide⟩
    exact show pageOffset 0 = 0 ∧ pageOffset 0 = 0 ∧ pageOffset 4096 = 0 by decide
  have hno : ¬ ∃ c ∈ AddressSpace.empty.areas, c.Overlaps ⟨0, 0, 4096, attrs⟩ := by
    rintro ⟨c, hc, -⟩
    exact absurd hc (Finset.notMem_empty c)
  obtain ⟨m', hmap, hmmu, hrefines'⟩ := Mm.vmmMap_placed hrefines hp hno
    (show (∅ : Finset Vma).card < vmaPoolCap by simp [vmaPoolCap])
  have hstep : b.step (.vmm (.map 0 0 4096 attrs)) = some { b with mm := m' } := by
    have hmap' : b.mm.vmmMap 0 0 4096 attrs = some (0, m') := hmap
    rw [MmSys.step, Mm.step, Mm.call, hmap']
    rfl
  have hroom : b.mm.mmu.missing b.mm.mmu.ttbr1 (neededTables 0 4096) ≤ b.mm.mmu.pmm.pagesFree := by
    have hle := b.mm.mmu.missing_le b.mm.mmu.ttbr1 (neededTables 0 4096)
    have hcard : (neededTables 0 4096).card = 3 := by decide
    omega
  obtain ⟨hreg, hleaf⟩ := hgood.leaf_mapArea hne 0 0 (by decide) hroom attrs
  refine ⟨{ b with mm := m' }, hinit, Machine.Reach.next (.vmm (.map 0 0 4096 attrs)) .start trivial hstep,
    ?_, ⟨_, hrefines', ?_⟩, ?_⟩
  · show m'.mmu.ttbr1 ≠ 0
    rw [hmmu, hreg]
    exact hne
  · exact Finset.mem_insert_self _ _
  · show ∀ off ∈ pageOffsets 4096, m'.mmu.leaf m'.mmu.ttbr1 (0 + off) = _
    rw [hmmu, hreg]
    exact hleaf

theorem maps_of_leaf {m : Mmu} {attrs : BitVec 32}
    (h : ∀ off ∈ pageOffsets 4096, m.leaf m.ttbr1 (0 + off)
      = some (pageDescriptor (0 + off) (pteAttrs attrs))) : m.Maps ⟨0, 0, 4096, attrs⟩ := by
  intro off hoff
  have hzero : off = 0 := by simpa [pageOffsets] using hoff
  refine ⟨_, h off hoff, ?_⟩
  subst hzero
  exact (pageDescriptor_fields (by decide) (by decide) (pteAttrs_and_outputMask attrs)).1

/-- The page mapped without PXN, then protected with PXN. -/
theorem protect_eq_remap_oneGiB :
    ∃ s : MmSys, ∃ m' m₁ m₂ : Mm,
      s.mm.vmmProtect 0 4096 vmmAttrPxn = some (0, m') ∧ s.mm.vmmUnmap 0 4096 = some (0, m₁) ∧
      m₁.vmmMap 0 0 4096 vmmAttrPxn = some (0, m₂) ∧
      ∀ off ∈ pageOffsets 4096,
        m'.mmu.leaf m'.mmu.ttbr1 (0 + off) = m₂.mmu.leaf m₂.mmu.ttbr1 (0 + off) ∧
        m'.mmu.MapsTo (0 + off) (0 + off) (pteAttrs vmmAttrPxn ||| pteAf ||| pteValid) := by
  obtain ⟨p, s, hinit, hreach, hne, ⟨A, hrefines, hmem⟩, hleaf⟩ := exists_mapped 0
  obtain ⟨harea, ⟨m', hprotect⟩, m₁, m₂, hunmap, hmap⟩ := remap_succeeds hrefines hmem vmmAttrPxn
  obtain ⟨hiff, hwrote⟩ := protect_eq_remap_iff hinit hreach hne harea (maps_of_leaf hleaf) hprotect
    hunmap hmap
  exact ⟨s, m', m₁, m₂, hprotect, hunmap, hmap, hiff.mpr ((hwrote hleaf).mpr (by decide))⟩

/-- The page mapped with PXN, then protected without: privileged execution stays forbidden, which it is
not after mapping the page again. -/
theorem protect_keeps_pxn :
    ∃ p s, ∃ m' m₁ m₂ : Mm, (oneBank 0x40000000 0x40000000).pmmInitFromDtb 20 = some p ∧
      Machine.Reach step Owns (boot p (fun _ => 0) (oneBank 0x40000000 0x40000000).image) s ∧
      s.mm.vmm.Finds ⟨0, 0, 4096, vmmAttrPxn⟩ ∧
      s.mm.mmu.leaf s.mm.mmu.ttbr1 0 = some (pageDescriptor 0 (pteAttrs vmmAttrPxn)) ∧
      s.mm.vmmProtect 0 4096 0 = some (0, m') ∧ s.mm.vmmUnmap 0 4096 = some (0, m₁) ∧
      m₁.vmmMap 0 0 4096 0 = some (0, m₂) ∧
      (m'.mmu.leaf m'.mmu.ttbr1 0).map (· &&& ptePxn) = some ptePxn ∧
      (m₂.mmu.leaf m₂.mmu.ttbr1 0).map (· &&& ptePxn) = some 0 := by
  obtain ⟨p, s, hinit, hreach, hne, ⟨A, hrefines, hmem⟩, hleaf⟩ := exists_mapped vmmAttrPxn
  obtain ⟨harea, ⟨m', hprotect⟩, m₁, m₂, hunmap, hmap⟩ := remap_succeeds hrefines hmem 0
  obtain ⟨roots, hgood⟩ := good_of_reach hinit hreach
  have hfirst : (0 : Word) ∈ pageOffsets 4096 := by decide
  obtain ⟨-, -, -, hafter⟩ := leaf_protect_remap hgood hne harea (maps_of_leaf hleaf) hprotect hunmap
    hmap
  obtain ⟨hprot, hremap⟩ := hafter 0 hfirst _ (hleaf 0 hfirst)
  refine ⟨p, s, m', m₁, m₂, hinit, hreach, harea, hleaf 0 hfirst, hprotect, hunmap, hmap, ?_, ?_⟩
  · exact (congrArg (Option.map (· &&& ptePxn)) hprot).trans (by decide)
  · exact (congrArg (Option.map (· &&& ptePxn)) hremap).trans (by decide)

end MmSys

end Arcline
