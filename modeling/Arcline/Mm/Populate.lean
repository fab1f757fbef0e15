import Arcline.Mm.Backing

set_option autoImplicit false

/-! # Backing a region with pages

The loops of `vmalloc` and `vfree` over the pages of a region, in terms of the list of areas that have a
page of their own. The region is a row of pages with a guard page at each end. Either all of it is added
to the list, or the physical pages run out, and then the list is what it was.
-/

namespace Arcline

/-- Consecutive pages from `va` on, with the attributes they are mapped with. -/
def slots (va : Word) : List (BitVec 32) → List (Word × BitVec 32)
  | [] => []
  | a :: as => (va, a) :: slots (va + 4096) as

/-- The attributes of the pages of a region with `n` data pages. -/
def regionAttrs (n : Nat) : List (BitVec 32) :=
  Mm.guardAttrs :: (List.replicate n Mm.dataAttrs ++ [Mm.guardAttrs])

theorem succ_page (va : Word) (i : Nat) :
    va + BitVec.ofNat 64 i * 4096 + 4096 = va + BitVec.ofNat 64 (i + 1) * 4096 := by
  rw [BitVec.ofNat_add, BitVec.add_mul, BitVec.add_assoc]
  rfl

theorem length_slots (va : Word) (as : List (BitVec 32)) : (slots va as).length = as.length := by
  induction as generalizing va with
  | nil => rfl
  | cons a as ih => rw [slots, List.length_cons, ih, List.length_cons]

theorem slots_append (va : Word) (as bs : List (BitVec 32)) :
    slots va (as ++ bs) = slots va as ++ slots (va + BitVec.ofNat 64 as.length * 4096) bs := by
  induction as generalizing va with
  | nil => simp [slots]
  | cons a as ih =>
      have hnext : va + 4096 + BitVec.ofNat 64 as.length * 4096
          = va + BitVec.ofNat 64 (as.length + 1) * 4096 := by
        rw [← succ_page, BitVec.add_assoc, BitVec.add_assoc, BitVec.add_comm 4096]
      rw [List.cons_append, slots, slots, ih, hnext, List.cons_append, List.length_cons]

theorem getElem?_slots (va : Word) (as : List (BitVec 32)) (i : Nat) :
    (slots va as)[i]? = as[i]?.map fun a => (va + BitVec.ofNat 64 i * 4096, a) := by
  induction as generalizing va i with
  | nil => simp [slots]
  | cons a as ih =>
      cases i with
      | zero => simp [slots]
      | succ i =>
          have hnext : va + 4096 + BitVec.ofNat 64 i * 4096 = va + BitVec.ofNat 64 (i + 1) * 4096 := by
            rw [← succ_page, BitVec.add_assoc, BitVec.add_assoc, BitVec.add_comm 4096]
          rw [slots, List.getElem?_cons_succ, List.getElem?_cons_succ, ih, hnext]

theorem mem_slots {va : Word} {as : List (BitVec 32)} {x : Word × BitVec 32} :
    x ∈ slots va as ↔ ∃ i, as[i]? = some x.2 ∧ x.1 = va + BitVec.ofNat 64 i * 4096 := by
  rw [List.mem_iff_getElem?]
  refine exists_congr fun i => ?_
  rw [getElem?_slots, Option.map_eq_some_iff]
  constructor
  · rintro ⟨a, ha, rfl⟩
    exact ⟨ha, rfl⟩
  · rintro ⟨ha, hva⟩
    exact ⟨x.2, ha, Prod.ext hva.symm rfl⟩

theorem length_regionAttrs (n : Nat) : (regionAttrs n).length = n + 2 := by
  simp [regionAttrs]

namespace Backed

variable {F : Frame} {own : List PageArea} {m : Mm}

theorem mapDataPages (h : Backed F own m) (dataVa : Word) {va : Word} {n i hi : Nat}
    (hva : va = dataVa + BitVec.ofNat 64 i * 4096) (hal : va.toNat % 4096 = 0)
    (hclear : Clear F own va.toNat hi) (hhi : va.toNat + n * 4096 ≤ hi)
    (hroom : F.areas.card + own.length + min n m.mmu.pmm.pagesFree ≤ vmaPoolCap) :
    ∃ xs m', m.mapDataPages dataVa n i = some (i + xs.length, m') ∧ xs.length ≤ n ∧
      xs.map PageArea.slot = slots va (List.replicate xs.length Mm.dataAttrs) ∧
      Backed F (xs ++ own) m' ∧ Clear F (xs ++ own) (va.toNat + xs.length * 4096) hi ∧
      (xs.length < n → m'.mmu.pmm.pagesFree = 0) ∧
      m'.mmu.pmm.pagesFree + xs.length ≤ m.mmu.pmm.pagesFree ∧
      m.mmu.pmm.pagesFree ≤ m'.mmu.pmm.pagesFree + 4 * xs.length := by
  induction n generalizing i own m va with
  | zero =>
      refine ⟨[], m, rfl, Nat.le_refl 0, rfl, h, ?_, fun hc => absurd hc (Nat.lt_irrefl 0), ?_, ?_⟩
      · simpa using hclear
      · simp
      · simp
  | succ n ih =>
      rcases h.mapPage Mm.dataAttrs hclear hal (by omega) (by omega) with ⟨halloc, hfree⟩ |
        ⟨pa, m₁, j, m₂, halloc, hne, -, hmap, h₂, hless, hmore⟩
      · refine ⟨[], m, ?_, by simp, rfl, h, by simpa using hclear, fun _ => hfree, by simp, by simp⟩
        rw [Mm.mapDataPages, halloc]
        rfl
      · have hbound := hclear.bound
        have hnext : (va + 4096).toNat = va.toNat + 4096 :=
          BitVec.toNat_add_of_lt (show va.toNat + 4096 < 2 ^ 64 by omega)
        have hclear' : Clear F (⟨va, j, Mm.dataAttrs⟩ :: own) (va + 4096).toNat hi := by
          rw [hnext]
          exact hclear.cons rfl
        obtain ⟨xs, m', hloop, hlen, hslots, h', hclear'', hstop, hless', hmore'⟩ :=
          ih h₂ (i := i + 1) (show va + 4096 = _ by rw [hva, succ_page]) (by omega) hclear' (by omega)
            (by simp only [List.length_cons]; omega)
        have hperm : (⟨va, j, Mm.dataAttrs⟩ :: xs ++ own).Perm (xs ++ ⟨va, j, Mm.dataAttrs⟩ :: own) :=
          List.perm_middle.symm
        refine ⟨⟨va, j, Mm.dataAttrs⟩ :: xs, m', ?_, ?_, ?_, h'.perm hperm, ?_, ?_, ?_, ?_⟩
        · rw [Mm.mapDataPages, halloc]
          simp only [if_neg hne]
          rw [← hva, hmap, Option.bind_some, hloop, List.length_cons]
          rw [show i + 1 + xs.length = i + (xs.length + 1) by omega]
        · simp only [List.length_cons]
          omega
        · rw [List.map_cons, hslots, List.length_cons, List.replicate_succ, slots]
          rfl
        · refine ⟨hclear''.bound, fun va' hlo hhi' => ?_, fun a ha => ?_, fun y hy => ?_⟩
          · exact hclear''.space va' (by simp only [List.length_cons] at hlo; omega) hhi'
          · have := hclear''.areas a ha
            simp only [List.length_cons]
            omega
          · have := hclear''.own y (hperm.mem_iff.mp hy)
            simp only [List.length_cons]
            omega
        · intro hlt
          exact hstop (by simp only [List.length_cons] at hlt; omega)
        · simp only [List.length_cons]
          omega
        · simp only [List.length_cons]
          omega

/-- One turn of the loops that give pages back. -/
theorem releasePage {x : PageArea} (h : Backed F (x :: own) m) :
    ∃ m', m.releasePage x.va = some m' ∧ Backed F own m' ∧
      m'.mmu.pmm.pagesFree = m.mmu.pmm.pagesFree + 1 := by
  obtain ⟨m₁, hphys, hunmap, h', hfree⟩ := h.release
  refine ⟨_, ?_, h', hfree⟩
  rw [Mm.releasePage, hphys, Option.bind_some, hunmap, Option.map_some]

theorem releasePages {xs : List PageArea} (h : Backed F (xs ++ own) m) (dataVa : Word) {va : Word}
    {i : Nat} {as : List (BitVec 32)} (hxs : xs.map PageArea.slot = slots va as)
    (hva : va = dataVa + BitVec.ofNat 64 i * 4096) :
    ∃ m', m.releasePages dataVa xs.length i = some m' ∧ Backed F own m' ∧
      m'.mmu.pmm.pagesFree = m.mmu.pmm.pagesFree + xs.length := by
  induction xs generalizing i m va as with
  | nil => exact ⟨m, rfl, h, rfl⟩
  | cons x xs ih =>
      cases as with
      | nil => simp [slots] at hxs
      | cons a as =>
          rw [List.map_cons, slots, List.cons.injEq] at hxs
          obtain ⟨hx, hxs⟩ := hxs
          have hxva : x.va = va := congrArg Prod.fst hx
          obtain ⟨m₁, hrel, h₁, hfree₁⟩ := h.releasePage
          obtain ⟨m', hloop, h', hfree'⟩ := ih h₁ hxs (i := i + 1) (by rw [hva, succ_page])
          refine ⟨m', ?_, h', ?_⟩
          · rw [List.length_cons, Mm.releasePages, ← hva, ← hxva, hrel, Option.bind_some, hloop]
          · rw [hfree', hfree₁, List.length_cons]
            omega

theorem rollBack {g : PageArea} {xs : List PageArea} (h : Backed F (xs ++ g :: own) m)
    {as : List (BitVec 32)} (hxs : xs.map PageArea.slot = slots (g.va + guardSize) as) :
    ∃ m', m.rollBack g.va (F.addr g) xs.length = some m' ∧ Backed F own m' := by
  obtain ⟨m₁, hloop, h₁, -⟩ := h.releasePages (g.va + guardSize) hxs (i := 0) (by simp)
  obtain ⟨m₂, -, hunmap, h₂, -⟩ := h₁.release
  refine ⟨_, ?_, h₂⟩
  rw [Mm.rollBack, hloop, Option.bind_some, show guardSize = 4096 from rfl, hunmap, Option.map_some]

/-- The whole region is added, or there are not enough pages and nothing is. -/
theorem populate (h : Backed F own m) {base pages : Word} (hal : base.toNat % 4096 = 0)
    (hclear : Clear F own base.toNat (base.toNat + (pages.toNat + 2) * 4096))
    (hroom : F.areas.card + own.length + min (pages.toNat + 2) m.mmu.pmm.pagesFree ≤ vmaPoolCap) :
    (∃ xs m', m.populate base pages = some (true, m') ∧
      xs.map PageArea.slot = slots base (regionAttrs pages.toNat) ∧ Backed F (xs ++ own) m' ∧
      m.mmu.pmm.pagesFree ≤ m'.mmu.pmm.pagesFree + 4 * (pages.toNat + 2)) ∨
    ∃ m', m.populate base pages = some (false, m') ∧ Backed F own m' ∧
      m.mmu.pmm.pagesFree < 4 * (pages.toNat + 2) := by
  have hbound := hclear.bound
  have hdata : (base + guardSize).toNat = base.toNat + 4096 :=
    BitVec.toNat_add_of_lt (show base.toNat + 4096 < 2 ^ 64 by omega)
  rcases h.mapPage Mm.guardAttrs hclear hal (by omega) (by omega) with ⟨halloc, hfree⟩ |
    ⟨guard1, m₁, j, m₂, halloc, hne, haddr, hmap, h₂, hless, hmore⟩
  · right
    refine ⟨m, ?_, h, by omega⟩
    rw [Mm.populate, halloc]
    rfl
  have hclear₂ : Clear F (⟨base, j, Mm.guardAttrs⟩ :: own) (base + guardSize).toNat
      (base.toNat + (pages.toNat + 2) * 4096) := by
    rw [hdata]
    exact hclear.cons rfl
  obtain ⟨xs, m₃, hloop, hlen, hslots, h₃, hclear₃, hstop, hless₃, hmore₃⟩ :=
    h₂.mapDataPages (base + guardSize) (n := pages.toNat) (i := 0) (show base + guardSize = _ by simp)
      (by omega)
      hclear₂ (by omega) (by simp only [List.length_cons]; omega)
  -- `populate` up to the second guard page
  have hpop : m.populate base pages = if xs.length < pages.toNat then
      (m₃.rollBack base guard1 xs.length).map fun m => (false, m)
    else
      if m₃.allocPage.1 = 0 then
        (m₃.allocPage.2.rollBack base guard1 pages.toNat).map fun m => (false, m)
      else
        (m₃.allocPage.2.vmmMap (base + guardSize + pages * 4096) m₃.allocPage.1 guardSize
          Mm.guardAttrs).map fun r => (true, r.2) := by
    rw [Mm.populate, halloc]
    simp only [if_neg hne]
    rw [show guardSize = 4096 from rfl] at hloop ⊢
    rw [hmap, Option.bind_some, hloop, Option.bind_some]
    simp only [Nat.zero_add]
  have hroll := h₃.rollBack hslots
  rw [← haddr] at hroll
  obtain ⟨m₄, hroll, h₄⟩ := hroll
  by_cases hlt : xs.length < pages.toNat
  · right
    refine ⟨m₄, ?_, h₄, ?_⟩
    · rw [hpop, if_pos hlt, hroll, Option.map_some]
    · have := hstop hlt
      omega
  have hall : xs.length = pages.toNat := by omega
  rw [hall] at hroll hslots hclear₃
  have hlast : base + guardSize + pages * 4096
      = base + guardSize + BitVec.ofNat 64 pages.toNat * 4096 := by
    rw [BitVec.ofNat_toNat, BitVec.setWidth_eq]
  have hlastNat : (base + guardSize + pages * 4096).toNat
      = (base + guardSize).toNat + pages.toNat * 4096 := by
    have hmul : (pages * 4096).toNat = pages.toNat * 4096 := by
      rw [BitVec.toNat_mul, show (4096 : Word).toNat = 4096 from rfl, Nat.mod_eq_of_lt (by omega)]
    rw [BitVec.toNat_add, hmul, hdata, Nat.mod_eq_of_lt (by omega)]
  rw [← hlastNat] at hclear₃
  rcases h₃.mapPage Mm.guardAttrs hclear₃ (by omega) (by omega)
    (by simp only [List.length_append, List.length_cons]; omega) with ⟨halloc₃, hfree₃⟩ |
    ⟨guard2, m₅, j', m₆, halloc₃, hne₃, -, hmap₃, h₆, hless₆, hmore₆⟩
  · right
    refine ⟨m₄, ?_, h₄, by omega⟩
    rw [hpop, if_neg hlt, halloc₃]
    simp only [if_true]
    rw [hroll, Option.map_some]
  · left
    refine ⟨⟨base, j, Mm.guardAttrs⟩ :: (xs ++ [⟨base + guardSize + pages * 4096, j', Mm.guardAttrs⟩]),
      m₆, ?_, ?_, h₆.perm ?_, by omega⟩
    · rw [hpop, if_neg hlt, halloc₃]
      simp only [if_neg hne₃]
      rw [show guardSize = 4096 from rfl] at hmap₃ ⊢
      rw [hmap₃, Option.map_some]
    · rw [regionAttrs, slots, slots_append, List.map_cons, List.map_append, hslots,
        List.length_replicate, hlast]
      rfl
    · -- the second guard page was added last
      rw [List.cons_append, List.append_assoc, List.singleton_append]
      exact (List.perm_middle.cons _).trans
        ((List.Perm.swap _ _ _).trans (List.perm_middle.symm.cons _))

end Backed

end Arcline
