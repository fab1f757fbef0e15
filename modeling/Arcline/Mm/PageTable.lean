import Arcline.Mm.PmmOwn
import Arcline.Radix
import Mathlib.Data.Finset.Card

set_option autoImplicit false

/-! # The tables of the MMU as a forest

Every table is a page of the physical allocator that no caller owns, and is reached in one way only:
from one root along one path of entries. So giving an empty entry a fresh table, or writing an entry
of a last-level table, changes no other translation.
-/

namespace Arcline

open Radix

/-- The number of an entry in its table. -/
abbrev Index := BitVec 9

/-- The entries that lead from a root to the last-level table of an address. -/
def tablePath (va : Word) : List Index :=
  [va.extractLsb' 39 9, va.extractLsb' 30 9, va.extractLsb' 21 9]

/-- The entry of an address in its last-level table. -/
def leafIndex (va : Word) : Index := va.extractLsb' 12 9

theorem index_eq (va : Word) (n : Nat) : (va >>> n) &&& 0x1FF = (va.extractLsb' n 9).setWidth 64 := by
  apply BitVec.eq_of_toNat_eq
  have h := Nat.and_two_pow_sub_one_eq_mod (va.toNat >>> n) 9
  have hlt : va.toNat >>> n % 512 < 2 ^ 64 := by omega
  simp only [BitVec.toNat_and, BitVec.toNat_ushiftRight, BitVec.toNat_setWidth,
    BitVec.extractLsb'_toNat]
  rw [Nat.mod_eq_of_lt hlt]
  exact h

/-- Two addresses with the same entries at all four levels agree in their bits 47:12. -/
theorem page_eq_of_path {va va' : Word} (hpath : tablePath va = tablePath va')
    (hleaf : leafIndex va = leafIndex va') :
    va.toNat / 4096 % 2 ^ 36 = va'.toNat / 4096 % 2 ^ 36 := by
  simp only [tablePath, leafIndex, List.cons.injEq, and_true, BitVec.toNat_eq,
    BitVec.extractLsb'_toNat, Nat.shiftRight_eq_div_pow] at hpath hleaf
  obtain ⟨h1, h2, h3⟩ := hpath
  omega

/-! ## Entries in memory -/

theorem entryAddr_toNat {t : Word} (ht : t.toNat % 4096 = 0) (i : Index) :
    (entryAddr t (i.setWidth 64)).toNat = t.toNat + 8 * i.toNat := by
  have hi := i.isLt
  have hlt := t.isLt
  rw [entryAddr, BitVec.toNat_add, BitVec.toNat_mul, BitVec.toNat_setWidth,
    show (8 : Word).toNat = 8 from rfl]
  omega

theorem entryAddr_inj {t t' : Word} (ht : t.toNat % 4096 = 0) (ht' : t'.toNat % 4096 = 0)
    {i i' : Index} :
    entryAddr t (i.setWidth 64) = entryAddr t' (i'.setWidth 64) ↔ t = t' ∧ i = i' := by
  have hi := i.isLt
  have hi' := i'.isLt
  rw [BitVec.toNat_eq, entryAddr_toNat ht, entryAddr_toNat ht', BitVec.toNat_eq (x := t),
    BitVec.toNat_eq (x := i)]
  omega

theorem pageDown_or_flags {t flags : Word} (ht : t.toNat % 4096 = 0) (hf : flags.toNat < 4096) :
    pageDown (t ||| flags) = t := by
  have hor : (t ||| flags).toNat = t.toNat + flags.toNat := by
    rw [BitVec.toNat_or]
    have := Nat.two_pow_add_eq_or_of_lt (i := 12) hf (t.toNat / 4096)
    rw [show 2 ^ 12 * (t.toNat / 4096) = t.toNat by omega] at this
    exact this.symm
  apply BitVec.eq_of_toNat_eq
  rw [pageDown_toNat, hor]
  omega

namespace Mmu

variable {m : Mmu} {t t' : Word}

theorem entry_setEntry (ht : t.toNat % 4096 = 0) (ht' : t'.toNat % 4096 = 0) (i i' : Index)
    (v : Word) :
    (m.setEntry t (i.setWidth 64) v).entry t' (i'.setWidth 64)
      = if t' = t ∧ i' = i then v else m.entry t' (i'.setWidth 64) := by
  unfold entry setEntry
  dsimp only
  rw [Function.update_apply]
  simp only [entryAddr_inj ht' ht]

/-- Clearing the page at `t` clears the entries of the table `t` and of no other. -/
theorem zeroPage_entryAddr (mem : Word → Word) (ht : t.toNat % 4096 = 0)
    (ht' : t'.toNat % 4096 = 0) (i : Index) :
    zeroPage mem t (entryAddr t' (i.setWidth 64))
      = if t' = t then 0 else mem (entryAddr t' (i.setWidth 64)) := by
  have hi := i.isLt
  have hlt := t.isLt
  have haddr := entryAddr_toNat ht' i
  have hiff : entryAddr t' (i.setWidth 64) - t < pageSize ↔ t' = t := by
    rw [BitVec.lt_def, BitVec.toNat_sub, haddr, pageSize_toNat, BitVec.toNat_eq (x := t')]
    omega
  rw [zeroPage]
  simp only [hiff]

/-! ## Walks -/

/-- `nextTable` by entry number. -/
def next (m : Mmu) (t : Word) (i : Index) : Option Word := m.nextTable t (i.setWidth 64)

/-- What an upper-level entry points to. -/
def tableOf (e : Word) : Option Word := if e &&& pteValid ≠ 0 then some (pageDown e) else none

theorem next_eq (m : Mmu) (t : Word) (i : Index) : m.next t i = tableOf (m.entry t (i.setWidth 64)) :=
  rfl

theorem tableOf_zero : tableOf 0 = none := by decide

/-- The entry made for a fresh table points to it. -/
theorem tableOf_link (ht : t.toNat % 4096 = 0) : tableOf (t ||| pteTable ||| pteValid) = some t := by
  have hvalid : (t ||| pteTable ||| pteValid) &&& pteValid ≠ 0 := by
    rw [BitVec.and_comm, BitVec.and_or_distrib_left]
    simp [pteValid]
  rw [tableOf, if_pos hvalid, BitVec.or_assoc, pageDown_or_flags ht (by decide)]

/-- The code's walk to the last-level table. -/
theorem leafTable_eq (m : Mmu) (pgd va : Word) :
    m.leafTable pgd va = walk m.next pgd (tablePath va) := by
  simp only [leafTable, tablePath, pgdIndex, pudIndex, pmdIndex, index_eq, walk_cons, walk_nil, next,
    Option.bind_assoc, Option.bind_fun_some]

/-- A last-level descriptor, if it is valid. -/
def descriptor (e : Word) : Option Word := if e &&& pteValid ≠ 0 then some e else none

/-- The descriptor for `va` under the root `pgd`, if there is one: what a walk through four levels
ends with. -/
def leaf (m : Mmu) (pgd va : Word) : Option Word :=
  (m.leafTable pgd va).bind fun t => descriptor (m.entry t (pteIndex va))

theorem leaf_eq (m : Mmu) (pgd va : Word) :
    m.leaf pgd va = (walk m.next pgd (tablePath va)).bind fun t =>
      descriptor (m.entry t ((leafIndex va).setWidth 64)) := by
  rw [leaf, leafTable_eq, show pteIndex va = (leafIndex va).setWidth 64 from index_eq va 12]

/-- `t` is a table under one of the roots. -/
def IsTable (m : Mmu) (roots : Set Word) (t : Word) : Prop := Reached m.next roots 3 t

/-- What a walk needs of the tables: no two walks meet, and every table is a page. -/
structure Tree (roots : Set Word) (m : Mmu) : Prop where
  forest : Forest m.next roots 3
  aligned : ∀ t, m.IsTable roots t → t.toNat % 4096 = 0

/-- The state of the tables between calls: they form a forest of pages of the allocator, and these
pages and the page at address 0 are in use and not owned by callers. -/
structure Inv (roots : Set Word) (live : List (List Nat)) (m : Mmu) : Prop where
  forest : Forest m.next roots 3
  table : ∀ t, m.IsTable roots t → t ≠ 0 ∧ ∃ j < m.pmm.pagesTotal, t = m.pmm.pageToAddr j
  pmm : PmmState.Inv
    (fun j => m.pmm.pageToAddr j = 0 ∨ m.IsTable roots (m.pmm.pageToAddr j)) ⟨m.pmm, live⟩

variable {roots : Set Word} {live : List (List Nat)}

theorem Inv.aligned (h : m.Inv roots live) (ht : m.IsTable roots t) : t.toNat % 4096 = 0 := by
  obtain ⟨-, j, hj, rfl⟩ := h.table t ht
  have hbase := h.pmm.region.base
  rw [h.pmm.region.pageToAddr hj]
  omega

theorem Inv.tree (h : m.Inv roots live) : m.Tree roots := ⟨h.forest, fun _ ht => h.aligned ht⟩

variable {m' m'' : Mmu} {p' : Pmm} {p q : List Index} {i : Index} {t₁ va : Word}

/-- The invariant is about the upper-level entries and the allocator only. -/
theorem Inv.congr (h : m.Inv roots live) (hpmm : m'.pmm = m.pmm)
    (hsame : ∀ u, Inner m.next roots 3 u → ∀ i, m'.next u i = m.next u i) : m'.Inv roots live := by
  refine ⟨h.forest.congr hsame, fun u hu => ?_, ?_⟩
  · rw [hpmm]
    exact h.table u ((reached_congr hsame u).mp hu)
  · rw [hpmm]
    refine h.pmm.congr fun j _ => ?_
    exact or_congr Iff.rfl (reached_congr hsame _)

/-- What adding tables needs: no two walks meet, the tables are pages, and the allocator has only pages to
give that are not tables. -/
structure Supplied (roots : Set Word) (m : Mmu) : Prop where
  tree : m.Tree roots
  base : m.pmm.memBase.toNat % 4096 = 0
  bound : m.pmm.memBase.toNat + 4096 * m.pmm.pagesTotal ≤ 2 ^ 64
  free : ∀ j < m.pmm.pagesTotal, m.pmm.bitmap j = false → ¬ m.IsTable roots (m.pmm.pageToAddr j)

theorem Inv.supplied (h : m.Inv roots live) : m.Supplied roots where
  tree := h.tree
  base := h.pmm.region.base
  bound := h.pmm.region.le
  free j hj hbit ht := absurd (hbit.symm.trans (h.pmm.kept j hj (.inr ht))) (by simp)

/-! ## A fresh table -/

/-- `t` is a page just taken from the allocator of `m`, which it leaves as `p'`. -/
structure FreshTable (roots : Set Word) (live : List (List Nat)) (m : Mmu) (t : Word) (p' : Pmm) :
    Prop where
  ne : t ≠ 0
  notTable : ¬ m.IsTable roots t
  page : ∃ j < m.pmm.pagesTotal, t = m.pmm.pageToAddr j
  base : p'.memBase = m.pmm.memBase
  total : p'.pagesTotal = m.pmm.pagesTotal
  free : p'.pagesFree + 1 = m.pmm.pagesFree
  pmm : PmmState.Inv (fun k => (m.pmm.pageToAddr k = 0 ∨ m.IsTable roots (m.pmm.pageToAddr k)) ∨
    m.pmm.pageToAddr k = t) ⟨p', live⟩

/-- `alloc_table` gives a fresh page, cleared, unless there is none. -/
theorem Inv.allocTable (h : m.Inv roots live) :
    (m.allocTable = (0, m) ∧ m.pmm.pagesFree = 0) ∨
      ∃ t p', m.allocTable = (t, { m with pmm := p', mem := zeroPage m.mem t }) ∧
        FreshTable roots live m t p' := by
  rcases h.pmm.take with ⟨heq, hfree⟩ | ⟨j, p', heq, hj, -, hprot, hbase, htotal, hfree, hinv⟩
  · refine .inl ⟨?_, hfree⟩
    have heq' : m.pmm.allocPage = (0, m.pmm) := heq
    simp [Mmu.allocTable, heq']
  · have hne : m.pmm.pageToAddr j ≠ 0 := fun h0 => hprot (.inl h0)
    refine .inr ⟨m.pmm.pageToAddr j, p', ?_, hne, fun ht => hprot (.inr ht), ⟨j, hj, rfl⟩, hbase,
      htotal, hfree, ?_⟩
    · have heq' : m.pmm.allocPage = (m.pmm.pageToAddr j, p') := heq
      rw [Mmu.allocTable, heq']
      exact if_neg hne
    · refine hinv.congr fun k hk => ?_
      have hk' : k < m.pmm.pagesTotal := htotal ▸ hk
      -- different pages have different addresses
      have hinj : m.pmm.pageToAddr k = m.pmm.pageToAddr j ↔ k = j := by
        constructor
        · intro haddr
          have hk2 := h.pmm.region.addrToPage_pageToAddr hk'
          have hj2 := h.pmm.region.addrToPage_pageToAddr hj
          exact hk2.symm.trans ((congrArg m.pmm.addrToPage haddr).trans hj2)
        · rintro rfl
          rfl
      rw [hinj]

theorem FreshTable.aligned (hf : FreshTable roots live m t p') (h : m.Inv roots live) :
    t.toNat % 4096 = 0 := by
  obtain ⟨j, hj, rfl⟩ := hf.page
  have hbase := h.pmm.region.base
  rw [h.pmm.region.pageToAddr hj]
  omega

/-- The invariant holds again once the fresh page is one of the tables. -/
theorem FreshTable.inv {roots' : Set Word} (hf : FreshTable roots live m t p') (h : m.Inv roots live)
    (hpmm : m'.pmm = p') (hforest : Forest m'.next roots' 3)
    (htable : ∀ u, m'.IsTable roots' u ↔ m.IsTable roots u ∨ u = t) : m'.Inv roots' live := by
  have haddr : ∀ k, m'.pmm.pageToAddr k = m.pmm.pageToAddr k := by
    intro k
    rw [hpmm, Pmm.pageToAddr, Pmm.pageToAddr, hf.base]
  refine ⟨hforest, fun u hu => ?_, ?_⟩
  · have htotal : m'.pmm.pagesTotal = m.pmm.pagesTotal := hpmm ▸ hf.total
    rcases (htable u).mp hu with hu | rfl
    · obtain ⟨hne, j, hj, rfl⟩ := h.table u hu
      exact ⟨hne, j, by omega, (haddr j).symm⟩
    · obtain ⟨j, hj, hpage⟩ := hf.page
      exact ⟨hf.ne, j, by omega, hpage.trans (haddr j).symm⟩
  · have hinv : PmmState.Inv _ ⟨m'.pmm, live⟩ := hpmm ▸ hf.pmm
    refine hinv.congr fun k _ => ?_
    rw [haddr, htable, or_assoc]

/-- A fresh table may become a root; it has no entries. -/
theorem FreshTable.addRoot (hf : FreshTable roots live m t p') (m' : Mmu) (h : m.Inv roots live)
    (hpmm : m'.pmm = p') (hmem : m'.mem = zeroPage m.mem t) :
    m'.Inv (insert t roots) live ∧ ∀ i, m'.next t i = none := by
  have hal := hf.aligned h
  have hentry : ∀ u : Word, u.toNat % 4096 = 0 → ∀ i : Index,
      m'.entry u (i.setWidth 64) = if u = t then 0 else m.entry u (i.setWidth 64) := by
    intro u hu i
    rw [entry, hmem]
    exact zeroPage_entryAddr m.mem hal hu i
  have hempty : ∀ i, m'.next t i = none := by
    intro i
    rw [next_eq, hentry t hal, if_pos rfl]
    exact tableOf_zero
  have hsame : ∀ u, Inner m.next roots 3 u → ∀ i, m'.next u i = m.next u i := by
    intro u hu i
    have hut : u ≠ t := fun heq => hf.notTable (heq ▸ hu.reached)
    rw [next_eq, hentry u (h.aligned hu.reached), if_neg hut]
    rfl
  exact ⟨hf.inv h hpmm (h.forest.insert hsame hempty hf.notTable) (reached_insert hsame hempty),
    hempty⟩

/-- `m` with the fresh table `t` at an entry of the table `t₀`. -/
def linkTable (m : Mmu) (p' : Pmm) (t t₀ : Word) (i₀ : Index) : Mmu :=
  ({ m with pmm := p', mem := zeroPage m.mem t } : Mmu).setEntry t₀ (i₀.setWidth 64)
    (t ||| pteTable ||| pteValid)

theorem entry_linkTable {t₀ u : Word} (ht : t.toNat % 4096 = 0) (ht₀ : t₀.toNat % 4096 = 0)
    (hu : u.toNat % 4096 = 0) (i₀ i : Index) :
    (m.linkTable p' t t₀ i₀).entry u (i.setWidth 64)
      = if u = t₀ ∧ i = i₀ then t ||| pteTable ||| pteValid
        else if u = t then 0 else m.entry u (i.setWidth 64) := by
  rw [linkTable, entry_setEntry ht₀ hu]
  exact congrArg _ (zeroPage_entryAddr m.mem ht hu i)

section Link

variable {p' : Pmm} {r₀ t₀ : Word} {p₀ : List Index} {i₀ : Index}

/-- Entering a fresh table at an empty entry. -/
theorem Tree.links (h : m.Tree roots) (p' : Pmm) (hal : t.toNat % 4096 = 0) (hfresh : ¬ m.IsTable roots t)
    (hr : r₀ ∈ roots) (hw : walk m.next r₀ p₀ = some t₀) (hp : p₀.length < 3)
    (hnone : m.next t₀ i₀ = none) :
    Links m.next (m.linkTable p' t t₀ i₀).next roots 3 r₀ p₀ t₀ i₀ t := by
  have ht₀ : m.IsTable roots t₀ := ⟨r₀, hr, p₀, Nat.le_of_lt hp, hw⟩
  have hal₀ := h.aligned t₀ ht₀
  have hne : t ≠ t₀ := fun heq => hfresh (heq ▸ ht₀)
  refine ⟨hr, hw, hp, hnone, ?_, fun i => ?_, fun u hu i hplace => ?_, hfresh⟩
  · rw [next_eq, entry_linkTable hal hal₀ hal₀, if_pos ⟨rfl, rfl⟩]
    exact tableOf_link hal
  · rw [next_eq, entry_linkTable hal hal₀ hal, if_neg (fun hc => hne hc.1), if_pos rfl]
    exact tableOf_zero
  · have hut : u ≠ t := fun heq => hfresh (heq ▸ hu.reached)
    rw [next_eq, entry_linkTable hal hal₀ (h.aligned u hu.reached), if_neg hplace, if_neg hut]
    rfl

/-- A fresh table translates nothing. -/
theorem Tree.leaf_linkTable (h : m.Tree roots) (hal : t.toNat % 4096 = 0)
    (hlinks : Links m.next (m.linkTable p' t t₀ i₀).next roots 3 r₀ p₀ t₀ i₀ t) {r : Word}
    (hr : r ∈ roots) (va : Word) : (m.linkTable p' t t₀ i₀).leaf r va = m.leaf r va := by
  have ht₀ : m.IsTable roots t₀ := ⟨r₀, hlinks.root, p₀, Nat.le_of_lt hlinks.inner, hlinks.at_path⟩
  have hal₀ := h.aligned t₀ ht₀
  have hlen : (tablePath va).length ≤ 3 := Nat.le_refl 3
  rw [leaf_eq, leaf_eq]
  by_cases hplace : r = r₀ ∧ tablePath va = p₀ ++ [i₀]
  · have hne : t ≠ t₀ := fun heq => hlinks.fresh (heq ▸ ht₀)
    rw [(hlinks.walk_eq h.forest hr hlen).1 hplace, Option.bind_some,
      entry_linkTable hal hal₀ hal, if_neg (fun hc => hne hc.1), if_pos rfl, hplace.1, hplace.2,
      hlinks.walk_none]
    rfl
  · rw [hlinks.walk_old h.forest hr hlen hplace]
    cases hw : walk m.next r (tablePath va) with
    | none => rfl
    | some u =>
        have hu : m.IsTable roots u := ⟨r, hr, _, hlen, hw⟩
        have hut : u ≠ t := fun heq => hlinks.fresh (heq ▸ hu)
        -- `t₀` is an upper-level table, `u` a last-level one
        have hut₀ : u ≠ t₀ := by
          rintro rfl
          obtain ⟨-, heq⟩ := h.forest r hr r₀ hlinks.root _ _ u hlen (Nat.le_of_lt hlinks.inner) hw
            hlinks.at_path
          have hinner := hlinks.inner
          rw [← heq] at hinner
          exact absurd hinner (by simp [tablePath])
        rw [Option.bind_some, Option.bind_some, entry_linkTable hal hal₀ (h.aligned u hu),
          if_neg (fun hc => hut₀ hc.1), if_neg hut]

end Link

/-! ## Tables added for a range -/

/-- How many of the tables at the paths `N` under `r` do not exist. -/
def missing (m : Mmu) (r : Word) (N : Finset (List Index)) : Nat :=
  (N.filter fun q => walk m.next r q = none).card

/-- In `m'` there are the tables of `m` and tables at paths of `N` under `r`, each for one free page. -/
structure Grown (roots : Set Word) (r : Word) (N : Finset (List Index)) (m m' : Mmu) : Prop where
  ttbr1 : m'.ttbr1 = m.ttbr1
  ttbr0Pgd : m'.ttbr0Pgd = m.ttbr0Pgd
  ttbr1Pgd : m'.ttbr1Pgd = m.ttbr1Pgd
  kept : ∀ r' ∈ roots, ∀ (q : List Index) (u : Word), q.length ≤ 3 →
    walk m.next r' q = some u → walk m'.next r' q = some u
  only : ∀ r' ∈ roots, ∀ (q : List Index) (u : Word), q.length ≤ 3 →
    walk m'.next r' q = some u → walk m.next r' q = some u ∨ r' = r ∧ q ∈ N
  balance : m'.pmm.pagesFree + m.missing r N = m.pmm.pagesFree + m'.missing r N

/-- The tables of `m'` are those of `m` and others at paths of `N`, between calls. -/
structure Extends (roots : Set Word) (live : List (List Nat)) (r : Word) (N : Finset (List Index))
    (m m' : Mmu) : Prop extends Grown roots r N m m' where
  inv : m'.Inv roots live

variable {r : Word} {N : Finset (List Index)}

theorem Grown.refl : Grown roots r N m m :=
  ⟨rfl, rfl, rfl, fun _ _ _ _ _ hw => hw, fun _ _ _ _ _ hw => .inl hw, rfl⟩

theorem Grown.trans (h : Grown roots r N m m') (h' : Grown roots r N m' m'') :
    Grown roots r N m m'' where
  ttbr1 := h'.ttbr1.trans h.ttbr1
  ttbr0Pgd := h'.ttbr0Pgd.trans h.ttbr0Pgd
  ttbr1Pgd := h'.ttbr1Pgd.trans h.ttbr1Pgd
  kept r' hr' q u hq hw := h'.kept r' hr' q u hq (h.kept r' hr' q u hq hw)
  only r' hr' q u hq hw := by
    rcases h'.only r' hr' q u hq hw with hw | hN
    · exact h.only r' hr' q u hq hw
    · exact .inr hN
  balance := by
    have h1 := h.balance
    have h2 := h'.balance
    omega

theorem Extends.refl (h : m.Inv roots live) : Extends roots live r N m m := ⟨.refl, h⟩

theorem Extends.trans (h : Extends roots live r N m m') (h' : Extends roots live r N m' m'') :
    Extends roots live r N m m'' :=
  ⟨h.toGrown.trans h'.toGrown, h'.inv⟩

/-- `m'` is `m` with pages taken for tables under `r`, and for nothing else. -/
structure Takes (r : Word) (m m' : Mmu) : Prop where
  grows : m.pmm.Grows m'.pmm
  kept : ∀ t, m.IsTable {r} t → m'.IsTable {r} t
  taken : ∀ j < m.pmm.pagesTotal, m.pmm.bitmap j = false → m'.pmm.bitmap j = true →
    m'.IsTable {r} (m.pmm.pageToAddr j)
  fresh : ∀ t, m'.IsTable {r} t → m.IsTable {r} t ∨
    ∃ j < m.pmm.pagesTotal, m.pmm.bitmap j = false ∧ t = m.pmm.pageToAddr j

theorem Takes.refl (r : Word) (m : Mmu) : Takes r m m where
  grows := .refl _
  kept _ ht := ht
  taken j _ hfree hbit := absurd (hfree.symm.trans hbit) (by simp)
  fresh _ ht := .inl ht

theorem Takes.trans (h : Takes r m m') (h' : Takes r m' m'') : Takes r m m'' where
  grows := h.grows.trans h'.grows
  kept t ht := h'.kept t (h.kept t ht)
  taken j hj hfree hbit := by
    cases hmid : m'.pmm.bitmap j with
    | true => exact h'.kept _ (h.taken j hj hfree hmid)
    | false =>
        have ht := h'.taken j (h.grows.total ▸ hj) hmid hbit
        rwa [h.grows.pageToAddr] at ht
  fresh t ht := by
    rcases h'.fresh t ht with ht | ⟨j, hj, hfree, rfl⟩
    · exact h.fresh t ht
    · refine .inr ⟨j, h.grows.total ▸ hj, ?_, h.grows.pageToAddr j⟩
      cases hold : m.pmm.bitmap j with
      | false => rfl
      | true => exact absurd (hfree.symm.trans (h.grows.bits j hold)) (by simp)

/-- Where the allocator and the upper-level entries are the same, no page was taken. -/
theorem takes_of_same (hpmm : m'.pmm = m.pmm)
    (hsame : ∀ u, Inner m.next roots 3 u → ∀ i, m'.next u i = m.next u i) (hr : r ∈ roots) :
    Takes r m m' := by
  have htable : ∀ t, m'.IsTable {r} t ↔ m.IsTable {r} t := by
    refine reached_congr fun u hu => hsame u ?_
    obtain ⟨r', rfl, hp⟩ := hu
    exact ⟨r', hr, hp⟩
  refine ⟨hpmm ▸ .refl _, fun t ht => (htable t).mpr ht, fun j _ hfree hbit => ?_,
    fun t ht => .inl ((htable t).mp ht)⟩
  rw [hpmm, hfree] at hbit
  exact absurd hbit (by simp)

/-- A page of the allocator that is entered as a table is taken for it. -/
theorem takes_of_links (hlinks : Links m.next m'.next roots 3 r p t i t₁)
    (hforest : Forest m.next roots 3) (halloc : m.pmm.allocPage = (t₁, m'.pmm)) (hne : t₁ ≠ 0) :
    Takes r m m' := by
  have hsub : {r} ⊆ roots := Set.singleton_subset_iff.mpr hlinks.root
  have htable : ∀ u, m'.IsTable {r} u ↔ m.IsTable {r} u ∨ u = t₁ :=
    (hlinks.mono hsub rfl).reached (hforest.mono hsub)
  have hgrows := m.pmm.grows_allocPage
  rw [halloc] at hgrows
  rcases m.pmm.allocPage_cases with heq | ⟨j, hj, hfree, haddr, hbits⟩
  · rw [halloc] at heq
    exact absurd (congrArg Prod.fst heq) hne
  · rw [halloc] at haddr hbits
    dsimp only at haddr hbits
    refine ⟨hgrows, fun u hu => (htable u).mpr (.inl hu), fun k _ hkfree hkbit => ?_, fun u hu => ?_⟩
    · rw [hbits, Function.update_apply] at hkbit
      split at hkbit
      · rename_i hkj
        rw [hkj]
        exact (htable _).mpr (.inr haddr.symm)
      · rw [hkfree] at hkbit
        exact absurd hkbit (by simp)
    · rcases (htable u).mp hu with hu | rfl
      · exact .inl hu
      · exact .inr ⟨j, hj, hfree, haddr⟩

/-- A fresh table is missing no more, and nothing else changes. -/
theorem missing_of_links (hlinks : Links m.next m'.next roots 3 r p t i t₁)
    (hforest : Forest m.next roots 3) (hN : p ++ [i] ∈ N) (hshort : ∀ q ∈ N, q.length ≤ 3) :
    m.missing r N = m'.missing r N + 1 := by
  have herase : (N.filter fun q => walk m'.next r q = none)
      = (N.filter fun q => walk m.next r q = none).erase (p ++ [i]) := by
    ext q
    simp only [Finset.mem_filter, Finset.mem_erase]
    by_cases hq : q = p ++ [i]
    · subst hq
      simp [hlinks.walk_new hforest]
    · constructor
      · rintro ⟨hqN, hnone⟩
        rw [hlinks.walk_old hforest hlinks.root (hshort q hqN) (fun hc => hq hc.2)] at hnone
        exact ⟨hq, hqN, hnone⟩
      · rintro ⟨-, hqN, hnone⟩
        rw [hlinks.walk_old hforest hlinks.root (hshort q hqN) (fun hc => hq hc.2)]
        exact ⟨hqN, hnone⟩
  rw [missing, missing, herase, Finset.card_erase_add_one]
  exact Finset.mem_filter.mpr ⟨hN, hlinks.walk_none⟩

/-- One level of `mmu_map_page`: it follows a valid entry, or asks for a page, and links that as a
table if it gets one. -/
theorem ensureTable_cases (m : Mmu) (t : Word) (i : Index) :
    (∃ t', m.next t i = some t' ∧ m.ensureTable t (i.setWidth 64) = (some t', m)) ∨
      m.next t i = none ∧ ∃ a p', m.pmm.allocPage = (a, p') ∧
        (a = 0 ∧ m.ensureTable t (i.setWidth 64) = (none, { m with pmm := p' }) ∨
          a ≠ 0 ∧ m.ensureTable t (i.setWidth 64)
            = (some (pageDown ((m.linkTable p' a t i).entry t (i.setWidth 64))),
              m.linkTable p' a t i)) := by
  unfold Mmu.ensureTable
  rw [next_eq, tableOf]
  by_cases hvalid : m.entry t (i.setWidth 64) &&& pteValid ≠ 0
  · rw [if_pos hvalid, if_pos hvalid]
    exact .inl ⟨_, rfl, rfl⟩
  · rw [if_neg hvalid, if_neg hvalid]
    unfold Mmu.allocTable
    cases m.pmm.allocPage with
    | mk a p' =>
        refine .inr ⟨rfl, a, p', rfl, ?_⟩
        dsimp only
        by_cases ha : a = 0
        · rw [if_pos ha]
          exact .inl ⟨ha, if_pos rfl⟩
        · rw [if_neg ha]
          exact .inr ⟨ha, if_neg ha⟩

/-- The entry written for a fresh table is read back as that table. -/
theorem pageDown_linked (h : (m.linkTable p' t₁ t i).next t i = some t₁) :
    pageDown ((m.linkTable p' t₁ t i).entry t (i.setWidth 64)) = t₁ := by
  rw [next_eq, tableOf] at h
  split at h
  · exact Option.some.inj h
  · exact absurd h (by simp)

/-- The same while a page is mapped: the tables added are pages of the allocator, and translate nothing. -/
structure Adds (roots : Set Word) (r : Word) (N : Finset (List Index)) (m m' : Mmu) : Prop
    extends Grown roots r N m m' where
  supplied : m'.Supplied roots
  takes : Takes r m m'
  leaf : ∀ r' ∈ roots, ∀ va, m'.leaf r' va = m.leaf r' va
  clear : m'.pmm.clearBits + m.missing r N = m.pmm.clearBits + m'.missing r N
  null : m.pmm.NullFree → m' = m

theorem Adds.refl (h : m.Supplied roots) : Adds roots r N m m :=
  ⟨.refl, h, .refl r m, fun _ _ _ => rfl, rfl, fun _ => rfl⟩

theorem Adds.trans (h : Adds roots r N m m') (h' : Adds roots r N m' m'') :
    Adds roots r N m m'' where
  toGrown := h.toGrown.trans h'.toGrown
  supplied := h'.supplied
  takes := h.takes.trans h'.takes
  leaf r' hr' va := (h'.leaf r' hr' va).trans (h.leaf r' hr' va)
  clear := by have h1 := h.clear; have h2 := h'.clear; omega
  null hnull := by
    obtain rfl := h.null hnull
    exact h'.null hnull

/-- A page of the allocator is entered as a table at an empty entry. -/
theorem Supplied.link (h : m.Supplied roots) (hr : r ∈ roots) {a : Word}
    (halloc : m.pmm.allocPage = (a, p')) (hne : a ≠ 0) (hw : walk m.next r p = some t)
    (hp : p.length < 3) (hnone : m.next t i = none) (hN : p ++ [i] ∈ N) (hshort : ∀ q ∈ N, q.length ≤ 3) :
    Adds roots r N m (m.linkTable p' a t i) ∧ (m.linkTable p' a t i).next t i = some a ∧
      walk (m.linkTable p' a t i).next r (p ++ [i]) = some a := by
  obtain ⟨j, hj, hfree, rfl, hbits⟩ : ∃ j < m.pmm.pagesTotal, m.pmm.bitmap j = false ∧
      a = m.pmm.pageToAddr j ∧ p'.bitmap = Function.update m.pmm.bitmap j true := by
    rcases m.pmm.allocPage_cases with heq | hgiven
    · exact absurd (Prod.mk.inj (halloc.symm.trans heq)).1 hne
    · rwa [halloc] at hgiven
  have hgrows := m.pmm.grows_allocPage
  rw [halloc] at hgrows
  have hpage : ∀ k < m.pmm.pagesTotal, (m.pmm.pageToAddr k).toNat = m.pmm.memBase.toNat + 4096 * k :=
    fun k hk => Pmm.pageToAddr_toNat h.bound hk
  have hbase := h.base
  have haddr := hpage j hj
  have hal : (m.pmm.pageToAddr j).toNat % 4096 = 0 := by omega
  have hlinks := h.tree.links p' hal (h.free j hj hfree) hr hw hp hnone
  have hforest := h.tree.forest
  obtain ⟨hcount, hclear, hnull⟩ := Pmm.allocPage_given halloc hne
  have hmiss := missing_of_links hlinks hforest hN hshort
  refine ⟨⟨⟨rfl, rfl, rfl, fun r' hr' q u hq hwalk => ?_, fun r' hr' q u hq hwalk => ?_, ?_⟩,
    ⟨⟨hlinks.forest hforest, fun u hu => ?_⟩, ?_, ?_, fun k hk hbit hu => ?_⟩,
    takes_of_links hlinks hforest halloc hne, fun r' hr' va => h.tree.leaf_linkTable hal hlinks hr' va,
    ?_, fun hc => absurd hc hnull⟩, hlinks.linked, hlinks.walk_new hforest⟩
  · rw [hlinks.walk_old hforest hr' hq]
    · exact hwalk
    · rintro ⟨rfl, rfl⟩
      exact absurd (hlinks.walk_none.symm.trans hwalk) (by simp)
  · by_cases hplace : r' = r ∧ q = p ++ [i]
    · exact .inr ⟨hplace.1, hplace.2 ▸ hN⟩
    · exact .inl ((hlinks.walk_old hforest hr' hq hplace).symm.trans hwalk)
  · show p'.pagesFree + _ = _
    omega
  · rcases (hlinks.reached hforest u).mp hu with hu | rfl
    · exact h.tree.aligned u hu
    · exact hal
  · exact hgrows.base ▸ hbase
  · exact (hgrows.base ▸ hgrows.total ▸ h.bound :)
  · -- a page still free is neither an old table nor the new one
    have hk' : k < m.pmm.pagesTotal := hgrows.total ▸ hk
    have hbit' : p'.bitmap k = false := hbit
    rw [hbits, Function.update_apply] at hbit'
    split at hbit'
    · exact absurd hbit' (by simp)
    · rename_i hkj
      rw [show (m.linkTable p' (m.pmm.pageToAddr j) t i).pmm.pageToAddr k = m.pmm.pageToAddr k from
        hgrows.pageToAddr k] at hu
      rcases (hlinks.reached hforest _).mp hu with hu | heq
      · exact h.free k hk' hbit' hu
      · have hk2 := hpage k hk'
        rw [heq] at hk2
        omega
  · show p'.clearBits + _ = _
    omega

/-- One level of `mmu_map_page`: afterwards the table it returns is the one at its path; without one, the
allocator has answered NULL. -/
theorem Supplied.ensureTable (h : m.Supplied roots) (hr : r ∈ roots) (hw : walk m.next r p = some t)
    (hp : p.length < 3) (hN : p ++ [i] ∈ N) (hshort : ∀ q ∈ N, q.length ≤ 3) :
    ∃ m₁, Adds roots r N m m₁ ∧
      ((∃ u, m.ensureTable t (i.setWidth 64) = (some u, m₁) ∧ walk m₁.next r (p ++ [i]) = some u) ∨
        ∃ p', m₁.pmm.allocPage = (0, p') ∧
          m.ensureTable t (i.setWidth 64) = (none, { m₁ with pmm := p' }) ∧
          walk m₁.next r (p ++ [i]) = none) := by
  have hwalk : walk m.next r (p ++ [i]) = m.next t i := by rw [walk_concat, hw, Option.bind_some]
  rcases m.ensureTable_cases t i with ⟨t', hnext, heq⟩ | ⟨hnone, a, p', halloc, hcase⟩
  · exact ⟨m, .refl h, .inl ⟨t', heq, hwalk.trans hnext⟩⟩
  rcases hcase with ⟨rfl, heq⟩ | ⟨hne, heq⟩
  · exact ⟨m, .refl h, .inr ⟨p', halloc, heq, hwalk.trans hnone⟩⟩
  · obtain ⟨hadds, hlinked, hnew⟩ := h.link hr halloc hne hw hp hnone hN hshort
    rw [pageDown_linked hlinked] at heq
    exact ⟨_, hadds, .inl ⟨a, heq, hnew⟩⟩

/-- The levels of `mmu_map_page` above the last, one after the other. -/
def ensurePath : Mmu → Word → List Index → Option Word × Mmu
  | m, t, [] => (some t, m)
  | m, t, i :: path =>
      match m.ensureTable t (i.setWidth 64) with
      | (none, m) => (none, m)
      | (some t, m) => ensurePath m t path

/-- Adding the tables on a path. The walk along the path then ends in the table found; where there is
none the allocator has answered NULL, and a table on the path is missing. -/
theorem Supplied.ensurePath (h : m.Supplied roots) (hr : r ∈ roots) (hw : walk m.next r p = some t)
    (path : List Index) (hlen : p.length + path.length ≤ 3) (hN : ∀ q, q ≠ [] → q <+: path → p ++ q ∈ N)
    (hshort : ∀ q ∈ N, q.length ≤ 3) :
    ∃ m₁, Adds roots r N m m₁ ∧
      ((∃ u, m.ensurePath t path = (some u, m₁) ∧ walk m₁.next r (p ++ path) = some u) ∨
        ∃ p', m₁.pmm.allocPage = (0, p') ∧ m.ensurePath t path = (none, { m₁ with pmm := p' }) ∧
          ∃ q, q ≠ [] ∧ q <+: path ∧ walk m₁.next r (p ++ q) = none) := by
  induction path generalizing m t p with
  | nil => exact ⟨m, .refl h, .inl ⟨t, rfl, by rw [List.append_nil, hw]⟩⟩
  | cons i path ih =>
      rw [List.length_cons] at hlen
      have happ : ∀ q, p ++ i :: q = (p ++ [i]) ++ q := by simp
      have hfirst : [i] <+: i :: path := ⟨path, rfl⟩
      obtain ⟨m₁, hadds, ⟨t', heq, hwalk⟩ | ⟨p', hnull, heq, hnone⟩⟩ :=
        h.ensureTable hr hw (by omega) (hN [i] (by simp) hfirst) hshort
      · obtain ⟨m₂, hadds₂, hcase⟩ :=
          ih hadds.supplied hwalk (by rw [List.length_append, List.length_singleton]; omega)
            fun q hq hpre => happ q ▸ hN (i :: q) (by simp) (List.cons_prefix_cons.mpr ⟨rfl, hpre⟩)
        refine ⟨m₂, hadds.trans hadds₂, ?_⟩
        rw [Mmu.ensurePath, heq, happ]
        refine hcase.imp id fun ⟨p', hnull, heq₂, q, hq, hpre, hmissing⟩ => ?_
        exact ⟨p', hnull, heq₂, i :: q, by simp, List.cons_prefix_cons.mpr ⟨rfl, hpre⟩,
          happ q ▸ hmissing⟩
      · refine ⟨m₁, hadds, .inr ⟨p', hnull, ?_, [i], by simp, hfirst, hnone⟩⟩
        rw [Mmu.ensurePath, heq]

/-- Tables added by the page keep the invariant: the pages taken are tables now. -/
theorem Adds.extends (hadds : Adds roots r N m m') (h : m.Inv roots live) :
    Extends roots live r N m m' := by
  have hgrows := hadds.takes.grows
  have haddr := hgrows.pageToAddr
  -- a table is an old one, or a page that was free and is in use now
  have htable : ∀ t, m'.IsTable roots t → m.IsTable roots t ∨
      ∃ j < m.pmm.pagesTotal, m.pmm.bitmap j = false ∧ t = m.pmm.pageToAddr j := by
    rintro t ⟨r', hr', q, hq, hw⟩
    rcases hadds.only r' hr' q t hq hw with hw | ⟨rfl, -⟩
    · exact .inl ⟨r', hr', q, hq, hw⟩
    · refine (hadds.takes.fresh t ⟨r', rfl, q, hq, hw⟩).imp_left ?_
      rintro ⟨_, rfl, q', hq', hw'⟩
      exact ⟨_, hr', q', hq', hw'⟩
  have hinv : m'.Inv roots live := by
    refine ⟨hadds.supplied.tree.forest, fun t ht => ?_, hgrows.region h.pmm.region,
      hgrows.counted h.pmm.counted, h.pmm.nodup, fun j hj => ?_, fun j hj hprot => ?_⟩
    · rcases htable t ht with ht | ⟨j, hj, hfree, rfl⟩
      · obtain ⟨hne, j, hj, rfl⟩ := h.table t ht
        exact ⟨hne, j, hgrows.total ▸ hj, (haddr j).symm⟩
      · refine ⟨fun hzero => ?_, j, hgrows.total ▸ hj, (haddr j).symm⟩
        exact absurd (hfree.symm.trans (h.pmm.kept j hj (.inl hzero))) (by simp)
    · obtain ⟨hlt, hbit, hno⟩ := h.pmm.used j hj
      refine ⟨hgrows.total ▸ hlt, hgrows.bits j hbit, ?_⟩
      rw [haddr]
      rintro (hzero | ht)
      · exact hno (.inl hzero)
      · rcases htable _ ht with ht | ⟨k, hk, hfree, hkj⟩
        · exact hno (.inr ht)
        · have hkj' := congrArg m.pmm.addrToPage hkj
          rw [h.pmm.region.addrToPage_pageToAddr hlt, h.pmm.region.addrToPage_pageToAddr hk] at hkj'
          rw [← hkj'] at hfree
          exact absurd (hfree.symm.trans hbit) (by simp)
    · rcases hprot with hzero | ht
      · rw [haddr] at hzero
        exact hgrows.bits j (h.pmm.kept j (hgrows.total ▸ hj) (.inl hzero))
      · by_contra hbit
        exact hadds.supplied.free j hj (by simpa using hbit) ht
  exact ⟨hadds.toGrown, hinv⟩

/-! ## Writing a last-level entry -/

section Leaf

variable {q : List Index}

/-- Writing an entry of a last-level table changes no upper-level entry. -/
theorem Tree.next_setLeaf (h : m.Tree roots) (hr : r ∈ roots) (hw : walk m.next r q = some t)
    (hq : q.length = 3) (i : Index) (v : Word) {u : Word} (hu : Inner m.next roots 3 u) (j : Index) :
    (m.setEntry t (i.setWidth 64) v).next u j = m.next u j := by
  have hal := h.aligned t ⟨r, hr, q, Nat.le_of_eq hq, hw⟩
  have hut : u ≠ t := by
    rintro rfl
    obtain ⟨r', hr', p, hp, hwu⟩ := hu
    obtain ⟨-, rfl⟩ := h.forest r' hr' r hr p q u (Nat.le_of_lt hp) (Nat.le_of_eq hq) hwu hw
    omega
  rw [next_eq, entry_setEntry hal (h.aligned u hu.reached), if_neg (fun hc => hut hc.1)]
  rfl

/-- Writing an entry of a last-level table changes one translation. -/
theorem Tree.leaf_setLeaf (h : m.Tree roots) (hr : r ∈ roots) (hw : walk m.next r q = some t)
    (hq : q.length = 3) (i : Index) (v : Word) {r' : Word} (hr' : r' ∈ roots) (va : Word) :
    (m.setEntry t (i.setWidth 64) v).leaf r' va
      = if r' = r ∧ tablePath va = q ∧ leafIndex va = i then descriptor v else m.leaf r' va := by
  have hal := h.aligned t ⟨r, hr, q, Nat.le_of_eq hq, hw⟩
  have hwalk := walk_congr (fun u hu j => h.next_setLeaf hr hw hq i v hu j) hr'
    (p := tablePath va) (Nat.le_refl 3)
  rw [leaf_eq, leaf_eq, hwalk]
  cases hwu : walk m.next r' (tablePath va) with
  | none =>
      rw [if_neg]
      · rfl
      · rintro ⟨rfl, rfl, -⟩
        rw [hw] at hwu
        exact absurd hwu (by simp)
  | some u =>
      have hu : m.IsTable roots u := ⟨r', hr', tablePath va, Nat.le_refl 3, hwu⟩
      have hplace : u = t ↔ r' = r ∧ tablePath va = q := by
        constructor
        · rintro rfl
          exact h.forest r' hr' r hr _ q u (Nat.le_refl 3) (Nat.le_of_eq hq) hwu hw
        · rintro ⟨rfl, rfl⟩
          exact Option.some.inj (hwu.symm.trans hw)
      rw [Option.bind_some, Option.bind_some, entry_setEntry hal (h.aligned u hu)]
      by_cases hc : u = t ∧ leafIndex va = i
      · rw [if_pos hc, if_pos ⟨(hplace.mp hc.1).1, (hplace.mp hc.1).2, hc.2⟩]
      · rw [if_neg hc, if_neg fun hc' => hc ⟨hplace.mpr ⟨hc'.1, hc'.2.1⟩, hc'.2.2⟩]

/-- Writing an entry of a last-level table changes no walk and one translation. -/
theorem Inv.setLeaf (h : m.Inv roots live) (hr : r ∈ roots) (hw : walk m.next r q = some t)
    (hq : q.length = 3) (i : Index) (v : Word) (hshort : ∀ q ∈ N, q.length ≤ 3) :
    Extends roots live r N m (m.setEntry t (i.setWidth 64) v) ∧
      ∀ r' ∈ roots, ∀ va, (m.setEntry t (i.setWidth 64) v).leaf r' va
        = if r' = r ∧ tablePath va = q ∧ leafIndex va = i then descriptor v else m.leaf r' va := by
  have hsame := fun u hu j => h.tree.next_setLeaf hr hw hq i v (u := u) hu j
  have hwalk : ∀ r' ∈ roots, ∀ q' : List Index, q'.length ≤ 3 →
      walk (m.setEntry t (i.setWidth 64) v).next r' q' = walk m.next r' q' :=
    fun r' hr' q' hq' => walk_congr hsame hr' hq'
  refine ⟨⟨⟨rfl, rfl, rfl, ?_, ?_, ?_⟩, h.congr rfl hsame⟩,
    fun r' hr' va => h.tree.leaf_setLeaf hr hw hq i v hr' va⟩
  · intro r' hr' q' u hq' hwu
    rw [hwalk r' hr' q' hq']
    exact hwu
  · intro r' hr' q' u hq' hwu
    exact .inl (hwalk r' hr' q' hq' ▸ hwu)
  · have hmiss : (m.setEntry t (i.setWidth 64) v).missing r N = m.missing r N := by
      unfold missing
      rw [Finset.filter_congr fun q' hq' => by rw [hwalk r hr q' (hshort q' hq')]]
    rw [hmiss]
    rfl

end Leaf

/-! ## Mapping a page -/

/-- The places of the three tables a page needs below its root. -/
def tablePlaces (va : Word) : List (List Index) :=
  [[va.extractLsb' 39 9], [va.extractLsb' 39 9, va.extractLsb' 30 9], tablePath va]

theorem length_tablePlaces (h : q ∈ tablePlaces va) : q.length ≤ 3 := by
  simp only [tablePlaces, List.mem_cons, List.not_mem_nil, or_false] at h
  rcases h with rfl | rfl | rfl <;> simp [tablePath]

/-- The descriptor `mmu_map_page` writes. -/
def pageDescriptor (pa attrs : Word) : Word := pageDown pa ||| attrs ||| pteAf ||| pteValid

theorem descriptor_pageDescriptor (pa attrs : Word) :
    descriptor (pageDescriptor pa attrs) = some (pageDescriptor pa attrs) := by
  have hvalid : pageDescriptor pa attrs &&& pteValid ≠ 0 := by
    rw [pageDescriptor, BitVec.and_comm, BitVec.and_or_distrib_left]
    simp [pteValid]
  rw [descriptor, if_pos hvalid]

theorem mem_tablePlaces : q ∈ tablePlaces va ↔ q ≠ [] ∧ q <+: tablePath va := by
  simp only [tablePlaces, tablePath, List.mem_cons, List.not_mem_nil, or_false,
    List.prefix_cons_iff, List.prefix_nil]
  constructor
  · rintro (rfl | rfl | rfl) <;> simp
  · rintro ⟨hne, rfl | ⟨q, rfl, rfl | ⟨q, rfl, rfl | ⟨q, rfl, rfl⟩⟩⟩⟩
    · exact absurd rfl hne
    all_goals simp

/-- Below a missing table there is none. -/
theorem walk_of_missing (hq : q ∈ tablePlaces va) (hw : walk m.next r q = none) :
    walk m.next r (tablePath va) = none := by
  obtain ⟨-, q', hpath⟩ := mem_tablePlaces.mp hq
  rw [← hpath, walk_append, hw, Option.bind_none]

theorem mapPage_eq (m : Mmu) (r va pa attrs : Word) :
    m.mapPage r va pa attrs =
      match m.ensurePath r (tablePath va) with
      | (none, m) => (-1, m)
      | (some pte, m) =>
          (0, m.setEntry pte ((leafIndex va).setWidth 64) (pageDescriptor pa attrs)) := by
  unfold mapPage
  simp only [tablePath, ensurePath, pgdIndex, pudIndex, pmdIndex, pteIndex, index_eq, leafIndex,
    pageDescriptor]
  cases m.ensureTable r _ with
  | mk o1 m1 =>
      cases o1 with
      | none => rfl
      | some pud =>
          dsimp only
          cases m1.ensureTable pud _ with
          | mk o2 m2 =>
              cases o2 with
              | none => rfl
              | some pmd =>
                  dsimp only
                  cases m2.ensureTable pmd _ with
                  | mk o3 m3 => cases o3 <;> rfl

/-- `mmu_map_page` adds the tables of the page that are missing, and then writes its descriptor, if the
allocator has not answered NULL before. -/
theorem Supplied.mapPage (h : m.Supplied roots) (hr : r ∈ roots) (va pa attrs : Word)
    (hN : ∀ q ∈ tablePlaces va, q ∈ N) (hshort : ∀ q ∈ N, q.length ≤ 3) :
    ∃ m₁, Adds roots r N m m₁ ∧
      ((∃ t, walk m₁.next r (tablePath va) = some t ∧ m.mapPage r va pa attrs
          = (0, m₁.setEntry t ((leafIndex va).setWidth 64) (pageDescriptor pa attrs))) ∨
        ∃ p', m₁.pmm.allocPage = (0, p') ∧ m.mapPage r va pa attrs = (-1, { m₁ with pmm := p' }) ∧
          ∃ q ∈ tablePlaces va, walk m₁.next r q = none) := by
  obtain ⟨m₁, hadds, hcase⟩ := h.ensurePath (p := []) hr rfl (tablePath va) (Nat.le_refl 3)
    (fun q hq hpre => hN q (mem_tablePlaces.mpr ⟨hq, hpre⟩)) hshort
  refine ⟨m₁, hadds, ?_⟩
  rw [mapPage_eq]
  rcases hcase with ⟨t, heq, hw⟩ | ⟨p', hnull, heq, q, hq, hpre, hmissing⟩
  · exact .inl ⟨t, hw, by rw [heq]⟩
  · exact .inr ⟨p', hnull, by rw [heq], q, mem_tablePlaces.mpr ⟨hq, hpre⟩, hmissing⟩

/-- `mmu_map_page` changes no other translation. It succeeds and maps the page, or there is no free
page left and a table of the page is still missing. -/
theorem Inv.mapPage (h : m.Inv roots live) (hr : r ∈ roots) (va pa attrs : Word)
    (hN : ∀ q ∈ tablePlaces va, q ∈ N) (hshort : ∀ q ∈ N, q.length ≤ 3) :
    ∃ rc m', m.mapPage r va pa attrs = (rc, m') ∧ Extends roots live r N m m' ∧ Takes r m m' ∧
      (∀ r' ∈ roots, ∀ va', ¬ (r' = r ∧ tablePath va' = tablePath va ∧ leafIndex va' = leafIndex va) →
        m'.leaf r' va' = m.leaf r' va') ∧
      (rc = 0 ∧ m'.leaf r va = some (pageDescriptor pa attrs) ∨
        rc = -1 ∧ m'.pmm.pagesFree = 0 ∧ ∃ q ∈ tablePlaces va, walk m'.next r q = none) := by
  obtain ⟨m₁, hadds, hcase⟩ := h.supplied.mapPage hr va pa attrs hN hshort
  have hext := hadds.extends h
  rcases hcase with ⟨t, hw, heq⟩ | ⟨p', hnull, heq, hmissing⟩
  · obtain ⟨hext', hleaf'⟩ := hext.inv.setLeaf hr hw rfl (leafIndex va) (pageDescriptor pa attrs) hshort
    have htakes' : Takes r m₁ (m₁.setEntry t ((leafIndex va).setWidth 64) (pageDescriptor pa attrs)) :=
      takes_of_same rfl (fun u hu j => hext.inv.tree.next_setLeaf hr hw rfl _ _ hu j) hr
    refine ⟨0, _, heq, hext.trans hext', hadds.takes.trans htakes', fun r' hr' va' hne => ?_,
      .inl ⟨rfl, ?_⟩⟩
    · exact (hleaf' r' hr' va').trans ((if_neg hne).trans (hadds.leaf r' hr' va'))
    · exact (hleaf' r hr va).trans
        ((if_pos ⟨rfl, rfl, rfl⟩).trans (descriptor_pageDescriptor pa attrs))
  · -- the page at address 0 is in use, so there is no page
    obtain ⟨hzero, hfree⟩ : m₁.pmm.allocPage = (0, m₁.pmm) ∧ m₁.pmm.pagesFree = 0 := by
      rcases hext.inv.pmm.take with hnone | ⟨j, p₁, hsome, -, -, hprot, -⟩
      · exact hnone
      · exact absurd (Prod.mk.inj (hsome.symm.trans hnull)).1 fun hz => hprot (.inl hz)
    obtain rfl := (Prod.mk.inj (hzero.symm.trans hnull)).2
    exact ⟨-1, m₁, heq, hext, hadds.takes, fun r' hr' va' _ => hadds.leaf r' hr' va',
      .inr ⟨rfl, hfree, hmissing⟩⟩

/-- A loop that maps pages until one cannot be mapped only adds tables of these pages. -/
theorem Inv.mapPagesUntil (h : m.Inv roots live) (hr : r ∈ roots) (attrs : Word)
    {pages : List (Word × Word)} (hN : ∀ x ∈ pages, ∀ q ∈ tablePlaces x.1, q ∈ N)
    (hshort : ∀ q ∈ N, q.length ≤ 3) :
    Extends roots live r N m (m.mapPagesUntil r attrs pages).2 := by
  induction pages generalizing m with
  | nil => exact .refl h
  | cons x pages ih =>
      obtain ⟨va, pa⟩ := x
      obtain ⟨rc, m₁, heq, hext, -, -, hres⟩ := h.mapPage hr va pa attrs
        (fun q hq => hN _ List.mem_cons_self q hq) hshort
      have hrest := ih hext.inv fun y hy => hN y (List.mem_cons_of_mem _ hy)
      rw [Mmu.mapPagesUntil, heq]
      rcases hres with ⟨rfl, -⟩ | ⟨rfl, -⟩
      · exact hext.trans hrest
      · exact hext

/-! ## Unmapping and changing a page -/

/-- What `mmu_unmap_page` and `mmu_update_page_attrs` have in common: the descriptor of a page that is
mapped is rewritten. -/
def rewriteLeaf (m : Mmu) (r va : Word) (f : Word → Word) : Int × Mmu :=
  match m.leafTable r va with
  | none => (-1, m)
  | some pte =>
      if m.entry pte (pteIndex va) &&& pteValid = 0 then (-1, m)
      else (0, m.setEntry pte (pteIndex va) (f (m.entry pte (pteIndex va))))

theorem unmapPage_eq (m : Mmu) (r va : Word) : m.unmapPage r va = m.rewriteLeaf r va fun _ => 0 := rfl

theorem updatePageAttrs_eq (m : Mmu) (r va attrs : Word) :
    m.updatePageAttrs r va attrs
      = m.rewriteLeaf r va fun e => pageDescriptor e attrs := rfl

/-- A page that is not mapped is left alone; of one that is, the descriptor is rewritten. -/
theorem rewriteLeaf_cases (m : Mmu) (r va : Word) (f : Word → Word) :
    (m.leaf r va = none ∧ m.rewriteLeaf r va f = (-1, m)) ∨
      ∃ t e, walk m.next r (tablePath va) = some t ∧ m.leaf r va = some e ∧
        m.rewriteLeaf r va f = (0, m.setEntry t ((leafIndex va).setWidth 64) (f e)) := by
  unfold Mmu.rewriteLeaf
  rw [leaf_eq, leafTable_eq]
  cases walk m.next r (tablePath va) with
  | none => exact .inl ⟨rfl, rfl⟩
  | some t =>
      rw [show pteIndex va = (leafIndex va).setWidth 64 from index_eq va 12]
      by_cases hvalid : m.entry t ((leafIndex va).setWidth 64) &&& pteValid = 0
      · refine .inl ⟨?_, if_pos hvalid⟩
        rw [Option.bind_some, descriptor, if_neg (not_not.mpr hvalid)]
      · refine .inr ⟨t, _, rfl, ?_, if_neg hvalid⟩
        rw [Option.bind_some, descriptor, if_pos hvalid]

/-- Rewriting a descriptor changes no other translation. -/
theorem Inv.rewriteLeaf_cases (h : m.Inv roots live) (hr : r ∈ roots) (va : Word)
    (f : Word → Word) :
    (m.leaf r va = none ∧ m.rewriteLeaf r va f = (-1, m)) ∨
      ∃ e m', m.leaf r va = some e ∧ m.rewriteLeaf r va f = (0, m') ∧ Extends roots live r ∅ m m' ∧
        ∀ r' ∈ roots, ∀ va', m'.leaf r' va'
          = if r' = r ∧ tablePath va' = tablePath va ∧ leafIndex va' = leafIndex va
            then descriptor (f e) else m.leaf r' va' := by
  rcases m.rewriteLeaf_cases r va f with hnone | ⟨t, e, hw, hleaf, heq⟩
  · exact .inl hnone
  · obtain ⟨hext, hleaf'⟩ := h.setLeaf (N := ∅) hr hw rfl (leafIndex va) (f e) (by simp)
    exact .inr ⟨e, _, hleaf, heq, hext, hleaf'⟩

/-- Rewriting a descriptor adds no table. -/
theorem Inv.rewriteLeaf (h : m.Inv roots live) (hr : r ∈ roots) (va : Word) (f : Word → Word) :
    Extends roots live r ∅ m (m.rewriteLeaf r va f).2 := by
  rcases h.rewriteLeaf_cases hr va f with ⟨-, heq⟩ | ⟨e, m', -, heq, hext, -⟩
  · rw [heq]
    exact .refl h
  · rw [heq]
    exact hext

theorem Inv.unmapPage (h : m.Inv roots live) (hr : r ∈ roots) (va : Word) :
    Extends roots live r ∅ m (m.unmapPage r va).2 :=
  unmapPage_eq m r va ▸ h.rewriteLeaf hr va _

theorem Inv.updatePageAttrs (h : m.Inv roots live) (hr : r ∈ roots) (va attrs : Word) :
    Extends roots live r ∅ m (m.updatePageAttrs r va attrs).2 :=
  updatePageAttrs_eq m r va attrs ▸ h.rewriteLeaf hr va _

end Mmu

end Arcline
