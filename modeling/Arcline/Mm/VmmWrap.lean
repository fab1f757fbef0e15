import Arcline.Mm.AddressSpace

set_option autoImplicit false

/-! # Ranges that reach the end of the address space

`vmm_map` takes a range whose end passes `2^64`, or falls on it. Its end, as `overlaps` computes it, is
then below its start, and so is that of a stored area which ends at `2^64` or beyond. Of the two
neighbours the one above the start never stops such a range. The one below stops it just if it does not
reach `2^64` itself, ends above the start, and starts below the wrapped end.
-/

namespace Arcline

open RbTree

/-! ## Areas as sets of addresses -/

/-- The address is one of the area, which goes on at 0 behind the last address. -/
def Vma.Has (a : Vma) (x : Word) : Prop := x - a.va < a.size

instance (a : Vma) (x : Word) : Decidable (a.Has x) := inferInstanceAs (Decidable (_ < _))

/-- The areas have an address in common. -/
def Vma.Meets (a b : Vma) : Prop := ∃ x, a.Has x ∧ b.Has x

namespace Vmm

/-- The tree holds these areas, in its order. -/
def Stores (v : Vmm) (l : List Vma) : Prop := ∃ t free, v.Inv t free ∧ t.ids.map v.tree.val = l

/-- Of the areas that start at or below `a`, the last one does not reach `2^64`, ends above the start of
`a`, and starts below the wrapped end of `a`. -/
def Caught (l : List Vma) (a : Vma) : Prop :=
  ∃ p, (l.filter fun b => !decide (a.va < b.va)).getLast? = some p ∧
    a.va.toNat < p.stop ∧ p.stop < 2 ^ 64 ∧ p.va.toNat + 2 ^ 64 < a.stop

/-! ## The two neighbours -/

section Neighbours

variable {v : Vmm} {n : Nat} {a : Vma}

theorem overlaps_some :
    v.overlaps (some n) a.va a.size = true ↔
      (v.tree.val n).va < a.va + a.size ∧ a.va < (v.tree.val n).va + (v.tree.val n).size := by
  simp only [overlaps, Bool.not_eq_true', Bool.or_eq_false_iff, decide_eq_false_iff_not,
    BitVec.not_le]

theorem size_ne_zero (ha : 2 ^ 64 ≤ a.stop) : a.size ≠ 0 := by
  intro h0
  have hva := a.va.isLt
  have hsize : a.size.toNat = 0 := congrArg BitVec.toNat h0
  unfold Vma.stop at ha
  omega

/-- The end of the range, wrapped. -/
theorem wrapped_toNat (ha : 2 ^ 64 ≤ a.stop) : (a.va + a.size).toNat + 2 ^ 64 = a.stop := by
  have hva := a.va.isLt
  have hsize := a.size.isLt
  unfold Vma.stop at ha ⊢
  rw [BitVec.toNat_add]
  omega

/-- An area at or above the start never stops the range. -/
theorem overlaps_above (ha : 2 ^ 64 ≤ a.stop) (hn : a.va ≤ (v.tree.val n).va) :
    v.overlaps (some n) a.va a.size = false := by
  rw [Bool.eq_false_iff, ne_eq, overlaps_some]
  rintro ⟨hlt, -⟩
  have hend := wrapped_toNat ha
  have hsize := a.size.isLt
  rw [BitVec.lt_def] at hlt
  rw [BitVec.le_def] at hn
  unfold Vma.stop at hend
  omega

/-- An area that starts at or below it does in the case of `Caught`. -/
theorem overlaps_below (ha : 2 ^ 64 ≤ a.stop) (hn : ¬ a.va < (v.tree.val n).va) :
    v.overlaps (some n) a.va a.size = true ↔
      a.va.toNat < (v.tree.val n).stop ∧ (v.tree.val n).stop < 2 ^ 64 ∧
        (v.tree.val n).va.toNat + 2 ^ 64 < a.stop := by
  have hend := wrapped_toNat ha
  have hsize := (v.tree.val n).size.isLt
  rw [BitVec.lt_def] at hn
  rw [overlaps_some, BitVec.lt_def, BitVec.lt_def]
  by_cases hwrap : (v.tree.val n).stop < 2 ^ 64
  · have hstop : ((v.tree.val n).va + (v.tree.val n).size).toNat = (v.tree.val n).stop :=
      BitVec.toNat_add_of_lt hwrap
    rw [hstop]
    omega
  · -- its own end is wrapped, and so below its start
    have hstop := wrapped_toNat (Nat.le_of_not_lt hwrap)
    unfold Vma.stop at hstop hwrap ⊢
    omega

end Neighbours

/-! ## The checks -/

theorem Inv.caught_iff {v : Vmm} {t : Tree} {free : List Nat} (h : v.Inv t free) {a : Vma}
    (ha : 2 ^ 64 ≤ a.stop) {pred : Option Nat} (hpred : v.findLe a.va = some pred) :
    v.overlaps pred a.va a.size = true ↔ Caught (t.ids.map v.tree.val) a := by
  rw [h.findLe, Option.some.injEq] at hpred
  have hlast : ((t.ids.map v.tree.val).filter fun b => !decide (a.va < b.va)).getLast? =
      pred.map v.tree.val := by
    rw [List.filter_map, List.getLast?_map, ← hpred]
    rfl
  rw [Caught, hlast]
  cases pred with
  | none => simp [overlaps]
  | some n =>
      have hn : ¬ a.va < (v.tree.val n).va := by
        simpa using (List.mem_filter.mp (List.mem_of_getLast? hpred)).2
      rw [overlaps_below ha hn]
      simp

variable {v : Vmm} {l : List Vma} {a : Vma}

/-- A page-aligned range that reaches `2^64` is refused just if it is `Caught`. -/
theorem Stores.mapChecks_wrap (h : v.Stores l) (ha : 2 ^ 64 ≤ a.stop) (hva : pageOffset a.va = 0)
    (hsize : pageOffset a.size = 0) (hpa : pageOffset a.pa = 0) :
    (Caught l a → v.mapChecks a.va a.pa a.size = some (-3)) ∧
      (¬ Caught l a → v.mapChecks a.va a.pa a.size = some 0) := by
  obtain ⟨t, free, h, rfl⟩ := h
  obtain ⟨pred, hpred⟩ : ∃ pred, v.findLe a.va = some pred := ⟨_, h.findLe _⟩
  obtain ⟨succ, hsucc⟩ : ∃ succ, v.findGe a.va = some succ := ⟨_, h.findGe _⟩
  have habove : v.overlaps succ a.va a.size = false := by
    rw [h.findGe, Option.some.injEq] at hsucc
    cases succ with
    | none => rfl
    | some n =>
        apply overlaps_above ha
        simpa using (List.mem_filter.mp (List.mem_of_head? hsucc)).2
  rw [Vmm.mapChecks, if_neg (size_ne_zero ha), if_neg (by simp [hva, hsize, hpa]), hpred, hsucc,
    Option.bind_some, Option.bind_some, habove, ← h.caught_iff ha hpred]
  constructor
  · intro hov
    rw [if_pos hov]
  · intro hov
    rw [if_neg hov]
    rfl

/-- With fewer than 256 areas there is a node left. -/
theorem Stores.room (h : v.Stores l) (hl : l.length < vmaPoolCap) :
    ∃ n < vmaPoolCap, ¬ v.tree.InTree n := by
  obtain ⟨t, free, h, rfl⟩ := h
  apply h.free_ne_nil.mp
  rintro rfl
  have hlen := h.length
  rw [List.length_map] at hl
  rw [List.length_nil] at hlen
  omega

end Vmm

namespace Mm

open Vmm

variable {m : Mm} {l : List Vma} {a : Vma}

/-- An accepted call adds its area behind those that start at or below it. -/
theorem vmmMap_stores (h : m.vmm.Stores l) (hchecks : m.vmm.mapChecks a.va a.pa a.size = some 0)
    (hroom : ∃ n < vmaPoolCap, ¬ m.vmm.tree.InTree n) :
    ∃ m', m.vmmMap a.va a.pa a.size a.attrs = some (0, m') ∧
      m'.vmm.Stores ((l.filter fun b => !decide (a.va < b.va)) ++
        a :: l.filter fun b => a.va < b.va) := by
  obtain ⟨t, free, hinv, rfl⟩ := h
  obtain ⟨n, free, rfl⟩ := List.exists_cons_of_ne_nil (hinv.free_ne_nil.mpr hroom)
  obtain ⟨m', t', hm', hinv', hids, hval, -⟩ := vmmMap_accept hinv a.attrs hchecks
  refine ⟨m', hm', t', free, hinv', ?_⟩
  -- the node is new, so the areas of the others stay
  have hold : ∀ p : Nat → Bool, (t.ids.filter p).map m'.vmm.tree.val =
      (t.ids.filter p).map m.vmm.tree.val := by
    intro p
    apply List.map_congr_left
    intro k hk
    have hkn : k ≠ n := fun e => hinv.notMem.1 (e ▸ (List.mem_filter.mp hk).1)
    rw [hval, Function.update_of_ne hkn]
  rw [hids, List.map_append, List.map_cons, hold, hold, hval, Function.update_self, List.filter_map,
    List.filter_map]
  rfl

theorem stores_of_reach {mmu : Mmu} (h : Machine.Reach step Room (booted mmu) m) :
    ∃ l, m.vmm.Stores l := by
  obtain ⟨t, free, hinv⟩ := inv_of_reach h
  exact ⟨_, t, free, hinv, rfl⟩

/-- **Ranges that reach `2^64`.** In every state reached by calls that find room, a page-aligned range
whose end is at or beyond `2^64` is accepted only if it shares no address with a stored area, just if
`pa` is not aligned, or no area shares an address with it, or it is caught by the area below. An
accepted range is added to the areas. -/
theorem vmm_map_wrap_iff {mmu : Mmu} (h : Machine.Reach step Room (booted mmu) m)
    (hroom : m.Room (.map a.va a.pa a.size a.attrs)) (hva : pageOffset a.va = 0)
    (hsize : pageOffset a.size = 0) (hwrap : 2 ^ 64 ≤ a.va.toNat + a.size.toNat) :
    (∃ l, m.vmm.Stores l) ∧ ∀ l, m.vmm.Stores l → ∃ rc m',
      m.vmmMap a.va a.pa a.size a.attrs = some (rc, m') ∧
      (rc = 0 → m'.vmm.Stores ((l.filter fun b => !decide (a.va < b.va)) ++
        a :: l.filter fun b => a.va < b.va)) ∧
      ((rc = 0 → ∀ b ∈ l, ¬ b.Meets a) ↔
        pageOffset a.pa ≠ 0 ∨ (∀ b ∈ l, ¬ b.Meets a) ∨ Caught l a) := by
  refine ⟨stores_of_reach h, fun l hl => ?_⟩
  by_cases hpa : pageOffset a.pa = 0
  · obtain ⟨hcaught, hfree⟩ := hl.mapChecks_wrap hwrap hva hsize hpa
    by_cases hc : Caught l a
    · refine ⟨-3, m, vmmMap_reject a.attrs (hcaught hc) (by decide),
        fun h0 => absurd h0 (by decide), ?_⟩
      exact ⟨fun _ => .inr (.inr hc), fun _ h0 => absurd h0 (by decide)⟩
    · obtain ⟨m', hm', hstores⟩ := vmmMap_stores hl (hfree hc) (hroom (hfree hc))
      refine ⟨0, m', hm', fun _ => hstores, ?_⟩
      constructor
      · intro hno
        exact .inr (.inl (hno rfl))
      · rintro (hbad | hno | hc')
        · exact absurd hpa hbad
        · exact fun _ => hno
        · exact absurd hc' hc
  · have hchecks : m.vmm.mapChecks a.va a.pa a.size = some (-2) := by
      rw [Vmm.mapChecks, if_neg (size_ne_zero hwrap), if_pos (.inr (.inl hpa))]
    refine ⟨-2, m, vmmMap_reject a.attrs hchecks (by decide), fun h0 => absurd h0 (by decide), ?_⟩
    exact ⟨fun _ => .inl hpa, fun _ h0 => absurd h0 (by decide)⟩

/-! ## The last page, and a range that comes round -/

/-- Two mappings of the last page of the address space. -/
def lastPage : Vma := ⟨0xfffffffffffff000, 0, 4096, 0⟩
def lastPageAgain : Vma := ⟨0xfffffffffffff000, 0x1000, 4096, 0⟩

/-- Three pages at the bottom, and a range from the last of them round to the second. -/
def bottomPages : Vma := ⟨0x1000, 0, 0x3000, 0⟩
def roundRange : Vma := ⟨0x3000, 0, 0xfffffffffffff000, 0⟩

theorem stores_booted (mmu : Mmu) : (booted mmu).vmm.Stores [] := ⟨_, _, inv_booted mmu, rfl⟩

/-- The first call after boot. -/
theorem vmmMap_first {a : Vma} (h : (booted mmuOff).vmm.mapChecks a.va a.pa a.size = some 0) :
    ∃ m, (booted mmuOff).vmmMap a.va a.pa a.size a.attrs = some (0, m) ∧
      Machine.Reach step Room (booted mmuOff) m ∧ m.vmm.Stores [a] := by
  have hroom := (stores_booted mmuOff).room (by simp [vmaPoolCap])
  obtain ⟨m, hm, hstores⟩ := vmmMap_stores (stores_booted mmuOff) h hroom
  refine ⟨m, hm, .next (.map a.va a.pa a.size a.attrs) .start (fun _ => hroom) ?_, hstores⟩
  simp [step, call, hm]

theorem vmm_map_wrap_caught :
    bottomPages.Meets roundRange ∧ ∃ (m m' : Mm) (rc : Int), m.vmm.Stores [bottomPages] ∧
      m.vmmMap roundRange.va roundRange.pa roundRange.size roundRange.attrs = some (rc, m') ∧
      rc ≠ 0 := by
  have hmeets : bottomPages.Meets roundRange := ⟨0x3000, by decide, by decide⟩
  have hcaught : Caught [bottomPages] roundRange := ⟨bottomPages, by decide, by decide⟩
  have hchecks : (booted mmuOff).vmm.mapChecks bottomPages.va bottomPages.pa bottomPages.size
      = some 0 := by
    rw [Vmm.mapChecks, (inv_booted mmuOff).findLe, (inv_booted mmuOff).findGe]
    decide
  obtain ⟨m, -, hreach, hstores⟩ := vmmMap_first hchecks
  have hroom : m.Room (.map roundRange.va roundRange.pa roundRange.size roundRange.attrs) :=
    fun _ => hstores.room (by simp [vmaPoolCap])
  obtain ⟨-, hall⟩ := vmm_map_wrap_iff hreach hroom (by decide) (by decide) (by decide)
  obtain ⟨rc, m', hm', -, hiff⟩ := hall _ hstores
  refine ⟨hmeets, m, m', rc, hstores, hm', fun h0 => ?_⟩
  exact hiff.mpr (.inr (.inr hcaught)) h0 bottomPages (by simp) hmeets

/-- The last page is mapped twice. -/
theorem vmm_map_last_page_twice :
    ∃ m m' : Mm, (booted mmuOff).vmmMap lastPage.va lastPage.pa lastPage.size lastPage.attrs
        = some (0, m) ∧ m.vmm.Stores [lastPage] ∧ lastPage.Meets lastPageAgain ∧
      m.vmmMap lastPageAgain.va lastPageAgain.pa lastPageAgain.size lastPageAgain.attrs
        = some (0, m') ∧ m'.vmm.Stores [lastPage, lastPageAgain] := by
  have hempty : ¬ Caught [] lastPage := by
    rintro ⟨p, hp, -⟩
    exact absurd hp (by simp)
  have hlast : ¬ Caught [lastPage] lastPageAgain := by
    rintro ⟨p, hp, -, hlt, -⟩
    obtain rfl : lastPage = p := by simpa [lastPage, lastPageAgain] using hp
    exact absurd hlt (by decide)
  obtain ⟨m, hm, -, hstores⟩ := vmmMap_first (((stores_booted mmuOff).mapChecks_wrap
    (a := lastPage) (by decide) (by decide) (by decide) (by decide)).2 hempty)
  obtain ⟨m', hm', hstores'⟩ := vmmMap_stores (a := lastPageAgain) hstores
    ((hstores.mapChecks_wrap (by decide) (by decide) (by decide) (by decide)).2 hlast)
    (hstores.room (by simp [vmaPoolCap]))
  exact ⟨m, m', hm, hstores, ⟨0xfffffffffffff000, by decide, by decide⟩, hm', hstores'⟩

end Mm

end Arcline
