import Arcline.Mm.Boot

set_option autoImplicit false

/-! # The window the page tables are accessed through

With the MMU on, `alloc_table` and the page operations dereference physical addresses, so all they touch
has to be in the identity map that `mmu_init` makes under TTBR0. That map ends at 2 GiB, whatever RAM
there is: what is free or a table when `mmu_init` returns decides for good, because later tables and
pages come from the pages that are free then.
-/

namespace Arcline

open Radix

namespace Mmu

/-- The page at `a` is one of the first 2 GiB, and TTBR0 translates it to itself. -/
def InWindow (m : Mmu) (a : Word) : Prop :=
  a.toNat < 0x80000000 ∧ ∃ d, m.leaf m.ttbr0 a = some d ∧ outputAddress d = a

/-- `r` is a root table in one of the two registers. -/
def Root (m : Mmu) (r : Word) : Prop := r ≠ 0 ∧ (r = m.ttbr0 ∨ r = m.ttbr1)

/-- What the code of the page tables may access is in the window: the page `pmm_alloc_page` returns,
and all tables. -/
structure Covered (m : Mmu) : Prop where
  alloc : m.pmm.allocPage.1 ≠ 0 → m.InWindow m.pmm.allocPage.1
  table : ∀ r, m.Root r → ∀ t, m.IsTable {r} t → m.InWindow t

/-- The same for all pages that are free. -/
structure FreeCovered (m : Mmu) : Prop where
  free : ∀ j < m.pmm.pagesTotal, m.pmm.bitmap j = false → m.InWindow (m.pmm.pageToAddr j)
  table : ∀ r, m.Root r → ∀ t, m.IsTable {r} t → m.InWindow t

/-- The identity map has a root of its own, unless there was no page for it. -/
structure Parted (roots : Set Word) (m : Mmu) : Prop where
  root : m.ttbr0 ≠ 0 → m.ttbr0 ∈ roots ∧ m.ttbr0 ≠ m.ttbr1
  none : m.ttbr0 = 0 → m.pmm.pagesFree = 0 ∧ m.ttbr1 = 0
  pgd : m.ttbr1Pgd = m.ttbr1

/-- Both roots are in use, and apart. -/
structure TwoHalves (roots : Set Word) (b : Mmu) : Prop extends Parted roots b where
  ttbr0 : b.ttbr0 ≠ 0
  ttbr1 : b.ttbr1 ≠ 0

/-- How a later state of the tables compares to the state `b` after boot: what is free, owned by callers
or a new table was free after boot, and TTBR0 translates as it did. -/
structure Since (b : Mmu) (roots : Set Word) (live : List (List Nat)) (m : Mmu) : Prop where
  good : m.Good roots live
  regs : m.regs = b.regs
  base : m.pmm.memBase = b.pmm.memBase
  total : m.pmm.pagesTotal = b.pmm.pagesTotal
  free : ∀ j < b.pmm.pagesTotal, m.pmm.bitmap j = false → b.pmm.bitmap j = false
  owned : ∀ j ∈ live.flatten, b.pmm.bitmap j = false
  table : ∀ r, b.Root r → ∀ t, m.IsTable {r} t → b.IsTable {r} t ∨
    ∃ j < b.pmm.pagesTotal, b.pmm.bitmap j = false ∧ t = b.pmm.pageToAddr j
  leaf : b.ttbr0 ≠ 0 → ∀ va, m.leaf b.ttbr0 va = b.leaf b.ttbr0 va

variable {b m m' : Mmu} {roots : Set Word} {live : List (List Nat)}

theorem Since.pageToAddr (h : Since b roots live m) (j : Nat) :
    m.pmm.pageToAddr j = b.pmm.pageToAddr j := by
  rw [Pmm.pageToAddr, Pmm.pageToAddr, h.base]

theorem Since.ttbr0 (h : Since b roots live m) : m.ttbr0 = b.ttbr0 :=
  (Prod.mk.inj (Prod.mk.inj (Prod.mk.inj h.regs).2).2).1

theorem Since.ttbr1 (h : Since b roots live m) : m.ttbr1 = b.ttbr1 :=
  (Prod.mk.inj (Prod.mk.inj (Prod.mk.inj h.regs).2).2).2

theorem Since.ttbr1Pgd (h : Since b roots live m) : m.ttbr1Pgd = b.ttbr1Pgd :=
  (Prod.mk.inj (Prod.mk.inj h.regs).2).1

theorem Since.refl (h : b.Good roots []) : Since b roots [] b where
  good := h
  regs := rfl
  base := rfl
  total := rfl
  free _ _ hj := hj
  owned _ hj := absurd hj List.not_mem_nil
  table _ _ _ ht := .inl ht
  leaf _ _ := rfl

/-- Edits under the root in TTBR1 keep it. -/
theorem Since.edits (h : Since b roots live m) (hb : Parted roots b) {S : Set (BitVec 36)}
    (hedit : Edits roots b.ttbr1 S m m') (hgood : m'.Good roots live) : Since b roots live m' where
  good := hgood
  regs := hedit.regs.trans h.regs
  base := hedit.takes.grows.base.trans h.base
  total := hedit.takes.grows.total.trans h.total
  free j hj hfree := by
    refine h.free j hj ?_
    cases hold : m.pmm.bitmap j with
    | false => rfl
    | true => exact absurd (hfree.symm.trans (hedit.takes.grows.bits j hold)) (by simp)
  owned := h.owned
  table r hr t ht := by
    by_cases heq : r = b.ttbr1
    · rw [← heq] at hedit
      rcases hedit.takes.fresh t ht with ht | ⟨j, hj, hfree, rfl⟩
      · exact h.table r hr t ht
      · rw [h.total] at hj
        exact .inr ⟨j, hj, h.free j hj hfree, h.pageToAddr j⟩
    · have hzero : r = b.ttbr0 := hr.2.resolve_right heq
      have hroot := (hb.root (hzero ▸ hr.1)).1
      exact h.table r hr t ((hedit.others r (hzero ▸ hroot) heq t).mp ht)
  leaf hne va := by
    obtain ⟨hroot, hother⟩ := hb.root hne
    rw [hedit.leaf _ hroot va fun hc => hother hc.1]
    exact h.leaf hne va

section Entries

variable (hentry : ∀ u, m.IsTable roots u → ∀ i : Index,
    m'.entry u (i.setWidth 64) = m.entry u (i.setWidth 64))

include hentry

/-! Where the entries of tables are the same, so are the tables and what they translate. -/

theorem next_congr {u : Word} (hu : Inner m.next roots 3 u) (i : Index) :
    m'.next u i = m.next u i := by
  rw [next_eq, next_eq, hentry u hu.reached]

theorem leaf_congr {r : Word} (hr : r ∈ roots) (va : Word) : m'.leaf r va = m.leaf r va := by
  rw [leaf_eq, leaf_eq,
    walk_congr (fun _ hu => next_congr hentry hu) hr (p := tablePath va) (Nat.le_refl 3)]
  cases hw : walk m.next r (tablePath va) with
  | none => rfl
  | some u =>
      rw [Option.bind_some, Option.bind_some, hentry u ⟨r, hr, tablePath va, Nat.le_refl 3, hw⟩]

theorem Since.store (h : Since b roots live m) (hb : Parted roots b) (hpmm : m'.pmm = m.pmm)
    (hregs : m'.regs = m.regs) (hgood : m'.Good roots live) : Since b roots live m' := by
  have htable : ∀ r ∈ roots, ∀ t, m'.IsTable {r} t ↔ m.IsTable {r} t := by
    intro r hr
    refine reached_congr fun u hu => next_congr hentry ?_
    obtain ⟨r', rfl, hp⟩ := hu
    exact ⟨r', hr, hp⟩
  have hroots : ∀ r, b.Root r → r ∈ roots := by
    rintro r ⟨hne, rfl | rfl⟩
    · exact (hb.root hne).1
    · exact h.ttbr1 ▸ h.good.rooted.ttbr1 (h.ttbr1.symm ▸ hne)
  refine ⟨hgood, hregs.trans h.regs, ?_, ?_, ?_, h.owned, ?_, ?_⟩
  · exact hpmm ▸ h.base
  · exact hpmm ▸ h.total
  · exact hpmm ▸ h.free
  · intro r hr t ht
    exact h.table r hr t ((htable r (hroots r hr) t).mp ht)
  · intro hne va
    rw [← h.leaf hne va]
    exact leaf_congr hentry (hb.root hne).1 va

end Entries

/-- Callers who take and free pages keep it. -/
theorem Since.callers (h : Since b roots live m) {op : PmmOp}
    (hown : PmmState.Owns ⟨m.pmm, live⟩ op) {q : PmmState}
    (hq : PmmState.step ⟨m.pmm, live⟩ op = some q) :
    Since b roots q.live { m with pmm := q.pmm } := by
  obtain ⟨-, hbase, htotal⟩ := h.good.inv.pmm.step hown hq
  obtain ⟨hfree, howned⟩ := h.good.inv.pmm.step_pages hown hq
  refine ⟨h.good.callers hown hq, h.regs, hbase.trans h.base, htotal.trans h.total, ?_, ?_, h.table,
    h.leaf⟩
  · intro j hj hclear
    rcases hfree j hclear with hclear | hj'
    · exact h.free j hj hclear
    · exact h.owned j hj'
  · intro j hj
    rcases howned j hj with hj | hclear
    · exact h.owned j hj
    · have hlt := (h.good.callers hown hq).inv.pmm.used j hj
      exact h.free j (h.total ▸ htotal ▸ hlt.1) hclear

/-- What was in the window after boot still is. -/
theorem Since.inWindow (h : Since b roots live m) (hne : b.ttbr0 ≠ 0) {a : Word}
    (ha : b.InWindow a) : m.InWindow a := by
  obtain ⟨hlt, d, hleaf, hout⟩ := ha
  refine ⟨hlt, d, ?_, hout⟩
  rw [h.ttbr0, h.leaf hne]
  exact hleaf

theorem Since.covered (h : Since b roots live m) (hb : Parted roots b) (hgood : b.Good roots [])
    (hfree : b.FreeCovered) : m.Covered := by
  -- without the identity map there is no page and no table
  have hzero : ∀ j < b.pmm.pagesTotal, b.pmm.bitmap j = false → b.ttbr0 ≠ 0 := by
    intro j hj hclear hc
    have hcount : b.pmm.pagesFree = b.pmm.clearBits := hgood.inv.pmm.counted
    rw [(hb.none hc).1] at hcount
    have hpos : 0 < b.pmm.clearBits :=
      List.countP_pos_iff.mpr ⟨j, List.mem_range.mpr hj, by simp [hclear]⟩
    omega
  constructor
  · intro hne
    rcases m.pmm.allocPage_cases with heq | ⟨j, hj, hclear, haddr, -⟩
    · rw [heq] at hne
      exact absurd rfl hne
    · rw [h.total] at hj
      have hclear' := h.free j hj hclear
      rw [haddr, h.pageToAddr]
      exact h.inWindow (hzero j hj hclear') (hfree.free j hj hclear')
  · intro r hr t ht
    have hroot : b.Root r := ⟨hr.1, h.ttbr0 ▸ h.ttbr1 ▸ hr.2⟩
    have hne : b.ttbr0 ≠ 0 := by
      intro hc
      rcases hroot.2 with hr' | hr'
      · exact hr.1 (hr'.trans hc)
      · exact hr.1 (hr'.trans (hb.none hc).2)
    rcases h.table r hroot t ht with ht | ⟨j, hj, hclear, rfl⟩
    · exact h.inWindow hne (hfree.table r hroot t ht)
    · exact h.inWindow hne (hfree.free j hj hclear)

end Mmu

namespace MmSys

open Mmu

variable {b : Mmu} {roots : Set Word} {s : MmSys} {env : BootEnv} {fuel : Nat} {p : Pmm}

theorem since_step {s' : MmSys} (h : Since b roots s.live s.mm.mmu) (hb : Parted roots b) {op : MmOp}
    (hown : s.Owns op) (hs : s.step op = some s') : Since b roots s'.live s'.mm.mmu := by
  have hgood := good_step h.good hown hs
  cases op with
  | vmm op =>
      obtain ⟨mm, hmm, rfl⟩ := Option.map_eq_some_iff.mp hs
      obtain ⟨S, hedit⟩ := h.good.step_edits hmm
      exact h.edits hb (h.ttbr1 ▸ hedit) hgood
  | mapRegion pa size attrs =>
      obtain rfl := Option.some.inj hs
      have hedit := h.good.mapRegion_edits pa size attrs
      rw [h.ttbr1Pgd, hb.pgd] at hedit
      exact h.edits hb hedit hgood
  | pmm op =>
      obtain ⟨q, hq, rfl⟩ := Option.map_eq_some_iff.mp hs
      exact h.callers hown hq
  | store addr v =>
      obtain rfl := Option.some.inj hs
      obtain ⟨-, j, hj, hpage⟩ := hown
      obtain ⟨hlt, -, hnot⟩ := h.good.inv.pmm.used j hj
      exact Since.store (fun u hu i => h.good.inv.entry_store hlt hpage
        (fun ht => hnot (.inr ht)) v hu i) h hb rfl rfl hgood

/-! ## After boot -/

/-- The tables after boot, in two cases. -/
theorem boot_cases (hinit : env.pmmInitFromDtb fuel = some p) (mem : Word → Word) (img : Image) :
    (p.pagesFree < 2 ∧ ∃ roots, (boot p mem img).mm.mmu.Good roots [] ∧
        Parted roots (boot p mem img).mm.mmu) ∨
      ∃ m t0 t1, TwoRoots [] ⟨p, mem, 0, 0, 0, 0, []⟩ m t0 t1 ∧
        (boot p mem img).mm.mmu = (m.mapBoot t0 t1 img).enable ∧
        (boot p mem img).mm.mmu.Good {t1, t0} [] ∧ TwoHalves {t1, t0} (boot p mem img).mm.mmu ∧
        (boot p mem img).mm.mmu.ttbr0 = t0 ∧ (boot p mem img).mm.mmu.ttbr1 = t1 ∧
        (boot p mem img).mm.mmu.pmm.memBase = p.memBase ∧
        (boot p mem img).mm.mmu.pmm.pagesTotal = p.pagesTotal := by
  have hmmu : (boot p mem img).mm.mmu = ((⟨p, mem, 0, 0, 0, 0, []⟩ : Mmu).init img).enable := rfl
  rw [hmmu]
  rcases (inv_initial hinit mem).init_cases img with
    ⟨hfew, hfree, hpgd, hreg, roots, hinv, hroot⟩ | ⟨m, t0, t1, htwo, heq⟩
  · refine .inl ⟨hfew, roots, ?_⟩
    generalize (⟨p, mem, 0, 0, 0, 0, []⟩ : Mmu).init img = m at hfree hpgd hreg hinv hroot
    have hgood : m.Good roots [] := ⟨hinv, fun hc => absurd hreg hc, fun hc => absurd hpgd hc⟩
    refine ⟨hgood.enable, fun hne => ⟨hroot.resolve_left hne, ?_⟩, fun _ => ⟨hfree, hpgd⟩, rfl⟩
    show m.ttbr0Pgd ≠ m.ttbr1Pgd
    rw [hpgd]
    exact hne
  · obtain ⟨hgood, hregs, hbase, htotal⟩ := htwo.mapBoot rfl img
    rw [heq]
    have h0 : (m.mapBoot t0 t1 img).enable.ttbr0 = t0 := (Prod.mk.inj hregs).1.trans htwo.pgd0
    have h1 : (m.mapBoot t0 t1 img).enable.ttbr1 = t1 :=
      (Prod.mk.inj (Prod.mk.inj hregs).2).1.trans htwo.pgd1
    refine .inr ⟨m, t0, t1, htwo, rfl, hgood.enable, ⟨⟨fun _ => ?_, ?_, rfl⟩, ?_, ?_⟩, h0, h1, hbase,
      htotal⟩
    · rw [h0, h1]
      exact ⟨Set.mem_insert_of_mem _ rfl, htwo.ne.symm⟩
    · exact fun hc => absurd (h0.symm.trans hc) htwo.ne0
    · exact fun hc => htwo.ne0 (h0.symm.trans hc)
    · exact fun hc => htwo.ne1 (h1.symm.trans hc)

theorem parted_boot (hinit : env.pmmInitFromDtb fuel = some p) (mem : Word → Word) (img : Image) :
    ∃ roots, (boot p mem img).mm.mmu.Good roots [] ∧ Parted roots (boot p mem img).mm.mmu := by
  rcases boot_cases hinit mem img with ⟨-, hfew⟩ | ⟨m, t0, t1, -, -, hgood, hhalves, -⟩
  · exact hfew
  · exact ⟨{t1, t0}, hgood, hhalves.toParted⟩

/-- The pages boot leaves free. -/
theorem boot_free (hinit : env.pmmInitFromDtb fuel = some p) (mem : Word → Word) (img : Image) :
    p.pagesFree ≤ (boot p mem img).mm.mmu.pmm.pagesFree + 1029 + 3 * (highPages img).length := by
  rcases boot_cases hinit mem img with ⟨hfew, -⟩ | ⟨m, t0, t1, htwo, heq, -⟩
  · omega
  · rw [heq]
    exact htwo.mapBoot_free rfl img

theorem outputAddress_boot {pa : Word} (hal : pa.toNat % 4096 = 0) (hlt : pa.toNat < 0x80000000) :
    outputAddress (pageDescriptor pa bootAttrs) = pa :=
  (pageDescriptor_fields hal (by omega) (by decide)).1

/-- With the pages for the identity map, and RAM that ends at 2 GiB, everything is in the window. -/
theorem boot_freeCovered (hinit : env.pmmInitFromDtb fuel = some p) (mem : Word → Word) (img : Image)
    (hroom : 1029 ≤ p.pagesFree) (htop : p.memBase.toNat + 4096 * p.pagesTotal ≤ 0x80000000) :
    (boot p mem img).mm.mmu.FreeCovered := by
  rcases boot_cases hinit mem img with
    ⟨hfew, -⟩ | ⟨m, t0, t1, htwo, heq, hgood, -, httbr0, httbr1, hbase, htotal⟩
  · omega
  have h0 : t0 ∈ ({t1, t0} : Set Word) := Set.mem_insert_of_mem _ rfl
  have h1 : t1 ∈ ({t1, t0} : Set Word) := Set.mem_insert t1 _
  have hhigh := ((htwo.good rfl).mapBoot_high h0 h1 img).1
  -- every managed page was mapped by the identity map, and later mappings are under the other root
  have hpage : ∀ j < (boot p mem img).mm.mmu.pmm.pagesTotal,
      (boot p mem img).mm.mmu.InWindow ((boot p mem img).mm.mmu.pmm.pageToAddr j) := by
    intro j hj
    have haddr := hgood.inv.pmm.region.pageToAddr hj
    have hbase' := hgood.inv.pmm.region.base
    simp only [hbase] at haddr hbase'
    rw [htotal] at hj
    generalize (boot p mem img).mm.mmu.pmm.pageToAddr j = a at haddr
    have hal : a.toNat % 4096 = 0 := by omega
    have hlt : a.toNat < 0x80000000 := by omega
    refine ⟨hlt, _, ?_, outputAddress_boot hal hlt⟩
    rw [httbr0, heq]
    exact (hhigh.leaf t0 h0 _ fun hc => htwo.ne hc.1.symm).trans (htwo.low_mapped hroom hal hlt)
  constructor
  · intro j hj _
    exact hpage j hj
  · rintro r ⟨-, hr⟩ t ht
    rw [httbr0, httbr1] at hr
    have hroot : r ∈ ({t1, t0} : Set Word) := by
      rcases hr with hr | hr
      · exact hr ▸ h0
      · exact hr ▸ h1
    have ht' : (boot p mem img).mm.mmu.IsTable {t1, t0} t := by
      obtain ⟨r', rfl, hp⟩ := ht
      exact ⟨r', hroot, hp⟩
    obtain ⟨-, j, hj, rfl⟩ := hgood.inv.table t ht'
    exact hpage j hj

/-! ## Every free page is returned in some run -/

theorem alloc_pmm (s : MmSys) : (s.pages.alloc 1).pmm = s.mm.mmu.pmm.allocPage.2 := by
  rw [PmmState.alloc]
  dsimp only
  split <;> rfl

/-- Callers can take pages until a given one is next. -/
theorem exists_alloc (h : s.mm.mmu.Good roots s.live) {j : Nat} (hj : j < s.mm.mmu.pmm.pagesTotal)
    (hfree : s.mm.mmu.pmm.bitmap j = false) :
    ∃ s' : MmSys, Machine.Reach step Owns s s' ∧
      s'.mm.mmu = { s.mm.mmu with pmm := s'.mm.mmu.pmm } ∧
      s'.mm.mmu.pmm.allocPage.1 = s.mm.mmu.pmm.pageToAddr j := by
  generalize hn : s.mm.mmu.pmm.pagesFree = n
  induction n using Nat.strong_induction_on generalizing s with
  | _ n ih =>
      rcases h.inv.pmm.take with ⟨-, hzero⟩ | ⟨i, p', halloc, -, -, -, hbase, htotal, hless, -⟩
      · -- a free page, but none counted
        have hcount : s.mm.mmu.pmm.pagesFree = s.mm.mmu.pmm.clearBits := h.inv.pmm.counted
        have hpos : 0 < s.mm.mmu.pmm.clearBits :=
          List.countP_pos_iff.mpr ⟨j, List.mem_range.mpr hj, by simp [hfree]⟩
        have hzero' : s.mm.mmu.pmm.pagesFree = 0 := hzero
        omega
      have halloc' : s.mm.mmu.pmm.allocPage = (s.mm.mmu.pmm.pageToAddr i, p') := halloc
      rcases s.mm.mmu.pmm.allocPage_cases with heq | ⟨k, -, hkfree, haddr, hbits⟩
      · have hp' : p' = s.mm.mmu.pmm := (Prod.mk.inj (halloc'.symm.trans heq)).2
        have hless' : p'.pagesFree + 1 = s.mm.mmu.pmm.pagesFree := hless
        rw [hp'] at hless'
        omega
      by_cases hkj : k = j
      · exact ⟨s, .start, rfl, hkj ▸ haddr⟩
      · -- another page is next: take it and go on
        rw [halloc'] at hbits
        have hpmm : (s.pages.alloc 1).pmm = p' := by rw [alloc_pmm, halloc']
        have hstep : s.step (.pmm .allocPage)
            = some ⟨{ s.mm with mmu := { s.mm.mmu with pmm := (s.pages.alloc 1).pmm } },
              (s.pages.alloc 1).live⟩ := rfl
        have hgood := good_step h (show s.Owns (.pmm .allocPage) from trivial) hstep
        rw [hpmm] at hstep hgood
        have hless' : p'.pagesFree + 1 = s.mm.mmu.pmm.pagesFree := hless
        have hj' : j < p'.pagesTotal := htotal.symm ▸ hj
        have hfree' : p'.bitmap j = false := by
          have hother : p'.bitmap j = s.mm.mmu.pmm.bitmap j := by
            rw [hbits, Function.update_of_ne fun hc => hkj hc.symm]
          exact hother.trans hfree
        obtain ⟨s', hreach, hmmu, hnext⟩ := ih p'.pagesFree (by omega) hgood hj' hfree' rfl
        refine ⟨s', (Machine.Reach.next _ .start trivial hstep).trans hreach, hmmu, hnext.trans ?_⟩
        show p'.pageToAddr j = s.mm.mmu.pmm.pageToAddr j
        have hbase' : p'.memBase = s.mm.mmu.pmm.memBase := hbase
        rw [Pmm.pageToAddr, Pmm.pageToAddr, hbase']

theorem since_of_reach {mem : Word → Word} {img : Image} (hgood : (boot p mem img).mm.mmu.Good roots [])
    (hparted : Parted roots (boot p mem img).mm.mmu) (h : Machine.Reach step Owns (boot p mem img) s) :
    Since (boot p mem img).mm.mmu roots s.live s.mm.mmu := by
  refine h.invariant (P := fun s => Since (boot p mem img).mm.mmu roots s.live s.mm.mmu)
    (.refl hgood) ?_
  intro s op s' hs hown hstep
  exact since_step hs hparted hown hstep

/-- **The window.** In every state reached after boot, the page `pmm_alloc_page` returns and all tables
are identity-mapped, exactly when all pages that `mmu_init` leaves free and all its tables are. They are
if 1029 pages were free before and the managed region ends at 2 GiB or below. -/
theorem table_access_in_window_iff {env : BootEnv} {fuel : Nat} {p : Pmm}
    (hinit : env.pmmInitFromDtb fuel = some p) (mem : Word → Word) :
    ((∀ s, Machine.Reach step Owns (boot p mem env.image) s → s.mm.mmu.Covered) ↔
        (boot p mem env.image).mm.mmu.FreeCovered) ∧
      (1029 ≤ p.pagesFree → p.memBase.toNat + 4096 * p.pagesTotal ≤ 0x80000000 →
        (boot p mem env.image).mm.mmu.FreeCovered) := by
  obtain ⟨roots, hgood, hparted⟩ := parted_boot hinit mem env.image
  refine ⟨⟨fun h => ⟨fun j hj hfree => ?_, (h _ .start).table⟩, fun h s hreach => ?_⟩,
    boot_freeCovered hinit mem env.image⟩
  · -- in some run this page is the next to be returned
    obtain ⟨s, hreach, hmmu, hnext⟩ := exists_alloc
      (s := boot p mem env.image) hgood hj hfree
    have hne : (boot p mem env.image).mm.mmu.pmm.pageToAddr j ≠ 0 := by
      intro hzero
      have hkept := hgood.inv.pmm.kept j hj (.inl hzero)
      exact absurd (hfree.symm.trans hkept) (by simp)
    have hcov := (h s hreach).alloc (hnext ▸ hne)
    rw [hnext, hmmu] at hcov
    exact hcov
  · exact (since_of_reach hgood hparted hreach).covered hparted hgood h

/-- A machine with 1 GiB of RAM at `0x40000000`. -/
theorem table_access_in_window_oneGiB :
    ∃ p, (oneBank 0x40000000 0x40000000).pmmInitFromDtb 20 = some p ∧
      ∀ s, Machine.Reach step Owns (boot p (fun _ => 0) (oneBank 0x40000000 0x40000000).image) s →
        s.mm.mmu.Covered := by
  obtain ⟨p, hinit, hfree, hbase, htotal⟩ := init_oneGiB
  obtain ⟨hiff, hcov⟩ := table_access_in_window_iff hinit (fun _ => 0)
  refine ⟨p, hinit, hiff.mpr (hcov (by omega) ?_)⟩
  rw [hbase, htotal]
  decide

/-- A machine with 2 GiB of RAM at `0x40000000`: once the pages of the first GiB are taken,
`pmm_alloc_page` returns pages that are not in the identity map. -/
theorem alloc_page_outside_window :
    ∃ p s, (oneBank 0x40000000 0x80000000).pmmInitFromDtb 20 = some p ∧
      Machine.Reach step Owns (boot p (fun _ => 0) (oneBank 0x40000000 0x80000000).image) s ∧
      s.mm.mmu.pmm.allocPage.1 ≠ 0 ∧ ¬ s.mm.mmu.InWindow s.mm.mmu.pmm.allocPage.1 := by
  obtain ⟨p, hinit, hfree, hbase⟩ : ∃ p, (oneBank 0x40000000 0x80000000).pmmInitFromDtb 20 = some p ∧
      p.pagesFree = 524031 ∧ p.memBase = 0x40000000 :=
    ⟨oneBankPmm 0x80000000 524288, BootEnv.init_oneBank _ _ (by decide +kernel) (fun _ => rfl) (by decide)
      (by decide) (by decide), by decide, rfl⟩
  rcases boot_cases hinit (fun _ => 0) (oneBank 0x40000000 0x80000000).image with
    ⟨hfew, -⟩ | ⟨-, t0, t1, -, -, hgood, -, -, -, hbase', -⟩
  · omega
  have hleft := boot_free hinit (fun _ => 0) (oneBank 0x40000000 0x80000000).image
  have hhigh : (highPages (oneBank 0x40000000 0x80000000).image).length = 20 := by decide +kernel
  have hlive : (boot p (fun _ => 0) (oneBank 0x40000000 0x80000000).image).live = [] := rfl
  rw [← hlive] at hgood
  refine ⟨p, ?_⟩
  generalize boot p (fun _ => 0) (oneBank 0x40000000 0x80000000).image = b at hgood hbase' hleft ⊢
  -- more pages are left than the first GiB has
  obtain ⟨j, hlow, hj, hclear⟩ := Pmm.exists_clear_above (n := 262144) hgood.inv.pmm.counted
    (show 262144 < b.mm.mmu.pmm.pagesFree by omega)
  obtain ⟨s, hreach, -, hnext⟩ := exists_alloc hgood hj hclear
  have haddr := hgood.inv.pmm.region.pageToAddr hj
  rw [hbase', hbase, ← hnext] at haddr
  have hout : 0x80000000 ≤ s.mm.mmu.pmm.allocPage.1.toNat := by
    rw [haddr]
    show 0x80000000 ≤ 0x40000000 + 4096 * j
    omega
  refine ⟨s, hinit, hreach, fun hzero => ?_, fun hin => ?_⟩
  · rw [hzero] at hout
    exact absurd hout (by decide)
  · have hlt := hin.1
    omega

end MmSys

end Arcline
