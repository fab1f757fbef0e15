import Arcline.Word
import Mathlib.Data.List.Count

set_option autoImplicit false

/-! # The physical page allocator

The managed region starts at `memBase`; page `i` of it is the page at `memBase + 4096 * i`. A bit of
the bitmap is set while its page is in use. Page numbers and counts are `size_t` in the source; here
they are natural numbers, since the counters never leave `0 … PMM_MAX_PAGES`.
-/

namespace Arcline

structure Pmm where
  bitmap : Nat → Bool
  memBase : Word
  memSize : Word
  pagesTotal : Nat
  pagesFree : Nat

/-- `PMM_MAX_PAGES`: 4 GiB of pages. -/
def pmmMaxPages : Nat := 1048576

namespace Pmm

def setBit (p : Pmm) (idx : Nat) : Pmm := { p with bitmap := Function.update p.bitmap idx true }

def clearBit (p : Pmm) (idx : Nat) : Pmm := { p with bitmap := Function.update p.bitmap idx false }

def testBit (p : Pmm) (idx : Nat) : Bool := p.bitmap idx

def addrToPage (p : Pmm) (addr : Word) : Nat := ((addr - p.memBase) / pageSize).toNat

def pageToAddr (p : Pmm) (page : Nat) : Word := p.memBase + BitVec.ofNat 64 page * pageSize

/-- The loop of `reserve_range` over `n` pages from `i` on. -/
def reserveLoop : Nat → Nat → Pmm → Pmm
  | 0, _, p => p
  | n + 1, i, p =>
      if p.testBit i then reserveLoop n (i + 1) p
      else
        let p := p.setBit i
        reserveLoop n (i + 1) { p with pagesFree := p.pagesFree - 1 }

def reserveRange (p : Pmm) (start size : Word) : Pmm :=
  if size = 0 then p
  else if start + size ≤ p.memBase then p
  else if p.memBase + p.memSize ≤ start then p
  else
    let rstart := if start < p.memBase then p.memBase else start
    let rlimit := p.memBase + p.memSize
    let rend := if rlimit < start + size then rlimit else start + size
    let first := p.addrToPage (pageDown rstart)
    let last := min (p.addrToPage (pageUp rend)) p.pagesTotal
    p.reserveLoop (last - first) first

/-- The search loop of `pmm_alloc_run`: the start of the first run of `count` clear bits among the
`n` pages from `i` on, `run` clear bits from `start` on having been counted before `i`. -/
def findRun (p : Pmm) (count : Nat) : Nat → Nat → Nat → Nat → Option Nat
  | 0, _, _, _ => none
  | n + 1, i, run, start =>
      if p.testBit i then findRun p count n (i + 1) 0 start
      else
        let start := if run = 0 then i else start
        if run + 1 = count then some start
        else findRun p count n (i + 1) (run + 1) start

/-- Mark `n` pages from `i` on as used. -/
def setBits : Nat → Nat → Pmm → Pmm
  | 0, _, p => p
  | n + 1, i, p => setBits n (i + 1) (p.setBit i)

/-- `pmm_alloc_run`: the address of the run, or NULL. -/
def allocRun (p : Pmm) (count : Nat) : Word × Pmm :=
  if count = 0 ∨ p.pagesFree < count then (0, p)
  else
    match p.findRun count p.pagesTotal 0 0 0 with
    | none => (0, p)
    | some start =>
        let p := p.setBits count start
        let p := { p with pagesFree := p.pagesFree - count }
        (p.pageToAddr start, p)

def allocPages (p : Pmm) (count : Nat) : Word × Pmm := p.allocRun count

def allocPage (p : Pmm) : Word × Pmm := p.allocRun 1

/-- The loop of `pmm_free_pages` over `n` pages from `idx` on; a page that is free already is left
alone (with a warning on the console). -/
def freeLoop : Nat → Nat → Pmm → Pmm
  | 0, _, p => p
  | n + 1, idx, p =>
      if idx < p.pagesTotal then
        if p.testBit idx then
          let p := p.clearBit idx
          freeLoop n (idx + 1) { p with pagesFree := p.pagesFree + 1 }
        else freeLoop n (idx + 1) p
      else p

def freePages (p : Pmm) (addr : Word) (count : Nat) : Pmm :=
  if addr = 0 ∨ count = 0 then p
  else if addr < p.memBase ∨ p.memBase + p.memSize ≤ addr then p
  else if pageOffset addr ≠ 0 then p
  else p.freeLoop count (p.addrToPage addr)

def freePage (p : Pmm) (addr : Word) : Pmm := p.freePages addr 1

/-- `pmm_check`. The difference is that of `size_t`. -/
def check (p : Pmm) : Int :=
  let setCount := (List.range p.pagesTotal).countP p.testBit
  let expectedSet := (p.pagesTotal + 2 ^ 64 - p.pagesFree) % 2 ^ 64
  if setCount ≠ expectedSet then -1 else 0

/-! ## What the loops compute -/

/-- `j` is one of the `n` pages from `i` on. -/
def inRun (i n j : Nat) : Bool := decide (i ≤ j ∧ j < i + n)

theorem inRun_zero (i j : Nat) : inRun i 0 j = false := by
  simp only [inRun, decide_eq_false_iff_not]
  omega

theorem inRun_succ (i n j : Nat) : inRun i (n + 1) j = (decide (j = i) || inRun (i + 1) n j) := by
  simp only [inRun]
  rw [Bool.eq_iff_iff]
  simp only [decide_eq_true_eq, Bool.or_eq_true]
  omega

/-- What a loop counts after its first page does not depend on that page. -/
theorem countP_update (b : Nat → Bool) (v : Bool) (f : Bool → Nat → Bool) (i n : Nat) :
    (List.range' (i + 1) n).countP (fun j => f (Function.update b i v j) j)
      = (List.range' (i + 1) n).countP fun j => f (b j) j := by
  refine List.countP_congr fun j hj => ?_
  have hji : j ≠ i := by
    have := List.mem_range'_1.mp hj
    omega
  rw [Function.update_of_ne hji]

theorem reserveLoop_eq (n i : Nat) (p : Pmm) :
    reserveLoop n i p = { p with
      bitmap := fun j => p.bitmap j || inRun i n j
      pagesFree := p.pagesFree - (List.range' i n).countP fun j => !p.bitmap j } := by
  induction n generalizing i p with
  | zero =>
      simp [reserveLoop, inRun_zero]
  | succ n ih =>
      rw [reserveLoop]
      cases hb : p.testBit i with
      | true =>
          have hb' : p.bitmap i = true := hb
          rw [if_pos rfl, ih]
          simp only [List.range'_succ, List.countP_cons, hb', Bool.not_true, Bool.false_eq_true,
            if_false, Nat.add_zero]
          congr 1
          funext j
          rw [inRun_succ]
          by_cases hj : j = i
          · simp [hj, hb']
          · simp [hj]
      | false =>
          have hb' : p.bitmap i = false := hb
          rw [if_neg (by simp), ih]
          have hcount := countP_update p.bitmap true (fun b _ => !b) i n
          simp only [List.range'_succ, List.countP_cons, hb', Bool.not_false, if_true]
          congr 1
          · funext j
            rw [inRun_succ]
            by_cases hj : j = i
            · simp [hj, setBit]
            · simp [hj, setBit]
          · show p.pagesFree - 1 - _ = _
            rw [setBit, hcount]
            omega

theorem setBits_eq (n i : Nat) (p : Pmm) :
    setBits n i p = { p with bitmap := fun j => p.bitmap j || inRun i n j } := by
  induction n generalizing i p with
  | zero =>
      simp [setBits, inRun_zero]
  | succ n ih =>
      rw [setBits, ih]
      simp only [setBit]
      congr 1
      funext j
      rw [inRun_succ]
      by_cases hj : j = i
      · simp [hj]
      · simp [hj]

theorem freeLoop_eq (n i : Nat) (p : Pmm) :
    freeLoop n i p = { p with
      bitmap := fun j => p.bitmap j && !(inRun i n j && decide (j < p.pagesTotal))
      pagesFree := p.pagesFree +
        (List.range' i n).countP fun j => p.bitmap j && decide (j < p.pagesTotal) } := by
  induction n generalizing i p with
  | zero =>
      simp [freeLoop, inRun_zero]
  | succ n ih =>
      rw [freeLoop]
      by_cases hi : i < p.pagesTotal
      · rw [if_pos hi]
        cases hb : p.testBit i with
        | false =>
            have hb' : p.bitmap i = false := hb
            rw [if_neg (by simp), ih]
            simp only [List.range'_succ, List.countP_cons, hb', Bool.false_and,
              Bool.false_eq_true, if_false, Nat.add_zero]
            congr 1
            funext j
            rw [inRun_succ]
            by_cases hj : j = i
            · simp [hj, hb']
            · simp [hj]
        | true =>
            have hb' : p.bitmap i = true := hb
            rw [if_pos rfl, ih]
            have hcount :=
              countP_update p.bitmap false (fun b j => b && decide (j < p.pagesTotal)) i n
            simp only [List.range'_succ, List.countP_cons, hb', Bool.true_and, hi, decide_true,
              if_true]
            congr 1
            · funext j
              rw [inRun_succ]
              by_cases hj : j = i
              · simp [hj, clearBit, hi]
              · simp [hj, clearBit]
                rfl
            · show p.pagesFree + 1 + _ = _
              rw [clearBit, hcount]
              omega
      · -- past the last page the loop ends, and the rest of the run lies past it too
        rw [if_neg hi]
        have hnone : (List.range' i (n + 1)).countP
            (fun j => p.bitmap j && decide (j < p.pagesTotal)) = 0 := by
          rw [List.countP_eq_zero]
          intro j hj
          have := List.mem_range'_1.mp hj
          simp only [Bool.and_eq_true, decide_eq_true_eq]
          omega
        have hbits : (fun j => p.bitmap j && !(inRun i (n + 1) j && decide (j < p.pagesTotal)))
            = p.bitmap := by
          funext j
          have : (inRun i (n + 1) j && decide (j < p.pagesTotal)) = false := by
            simp only [inRun, Bool.and_eq_false_iff, decide_eq_false_iff_not]
            omega
          rw [this, Bool.not_false, Bool.and_true]
        rw [hnone, hbits, Nat.add_zero]

/-! ## Allocation -/

/-- The `n` pages from `i` on are all free. -/
def Clear (p : Pmm) (i n : Nat) : Prop := ∀ j, i ≤ j → j < i + n → p.bitmap j = false

variable {p : Pmm} {count i n st : Nat}

/-- The search finds the lowest run of `count` free pages. The invariant of the loop: `run` free
pages end at `i`, the page before them is in use, and no run of `count` free pages ends by `i`. -/
theorem findRun_spec (n start : Nat) {run : Nat} (hrun : run < count) (hi : run ≤ i)
    (hstart : run ≠ 0 → start + run = i) (hclear : p.Clear (i - run) run)
    (hmax : run < i → p.bitmap (i - run - 1) = true) (hnone : ∀ st, st + count ≤ i → ¬ p.Clear st count) :
    match p.findRun count n i run start with
    | some st => p.Clear st count ∧ st + count ≤ i + n ∧ ∀ st' < st, ¬ p.Clear st' count
    | none => ∀ st, st + count ≤ i + n → ¬ p.Clear st count := by
  induction n generalizing i run start with
  | zero => exact hnone
  | succ n ih =>
      rw [findRun]
      cases hb : p.testBit i with
      | true =>
          have hb' : p.bitmap i = true := hb
          have hnone' : ∀ st, st + count ≤ i + 1 → ¬ p.Clear st count := by
            intro st hst hc
            by_cases hle : st + count ≤ i
            · exact hnone st hle hc
            · rw [hc i (by omega) (by omega)] at hb'
              exact absurd hb' (by simp)
          have hnext := ih start (show 0 < count by omega) (Nat.zero_le (i + 1))
            (by simp) (fun j _ _ => by omega) (fun _ => by simpa using hb') hnone'
          rw [if_pos rfl, show i + (n + 1) = i + 1 + n by omega]
          exact hnext
      | false =>
          have hb' : p.bitmap i = false := hb
          rw [if_neg (by simp)]
          -- one more free page at `i`
          have hstart' : (if run = 0 then i else start) + (run + 1) = i + 1 := by
            split <;> omega
          have hclear' : p.Clear (i - run) (run + 1) := by
            intro j hj hj'
            by_cases hji : j = i
            · rw [hji, hb']
            · exact hclear j hj (by omega)
          by_cases hcount : run + 1 = count
          · simp only [hcount, if_true]
            have hst : (if run = 0 then i else start) = i - run := by omega
            rw [hst]
            refine ⟨hcount ▸ hclear', by omega, fun st' hst' => hnone st' (by omega)⟩
          · simp only [hcount, if_false]
            rw [show i + (n + 1) = i + 1 + n by omega]
            refine ih _ (by omega) (by omega) (fun _ => hstart') ?_ ?_ ?_
            · rw [show i + 1 - (run + 1) = i - run by omega]
              exact hclear'
            · intro _
              rw [show i + 1 - (run + 1) - 1 = i - run - 1 by omega]
              exact hmax (by omega)
            · intro st hst hc
              by_cases hle : st + count ≤ i
              · exact hnone st hle hc
              · have := hmax (by omega)
                rw [hc (i - run - 1) (by omega) (by omega)] at this
                exact absurd this (by simp)

/-- `pmm_alloc_run` fails and changes nothing, or takes the lowest run of `count` free pages. -/
theorem allocRun_cases (p : Pmm) (count : Nat) :
    (p.allocRun count = (0, p) ∧ (count = 0 ∨ p.pagesFree < count ∨
        ∀ st, st + count ≤ p.pagesTotal → ¬ p.Clear st count)) ∨
      ∃ st, 0 < count ∧ count ≤ p.pagesFree ∧ p.Clear st count ∧ st + count ≤ p.pagesTotal ∧
        (∀ st' < st, ¬ p.Clear st' count) ∧
        p.allocRun count = (p.pageToAddr st, { p with
          bitmap := fun j => p.bitmap j || inRun st count j
          pagesFree := p.pagesFree - count }) := by
  unfold allocRun
  by_cases hguard : count = 0 ∨ p.pagesFree < count
  · refine .inl ⟨by rw [if_pos hguard], ?_⟩
    rcases hguard with h | h
    · exact .inl h
    · exact .inr (.inl h)
  rw [if_neg hguard]
  have hpos : 0 < count := by omega
  have hspec := findRun_spec (p := p) p.pagesTotal 0 hpos (Nat.le_refl 0) (by simp)
    (fun j _ _ => by omega) (by simp) fun st hst => by omega
  rw [Nat.zero_add] at hspec
  cases hfind : p.findRun count p.pagesTotal 0 0 0 with
  | none =>
      rw [hfind] at hspec
      exact .inl ⟨rfl, .inr (.inr hspec)⟩
  | some st =>
      rw [hfind] at hspec
      refine .inr ⟨st, hpos, by omega, hspec.1, hspec.2.1, hspec.2.2, ?_⟩
      simp only [setBits_eq, pageToAddr]

/-! ## The free count -/

/-- The number of clear bits below `pmm_pages_total`. -/
def clearBits (p : Pmm) : Nat := (List.range p.pagesTotal).countP fun j => !p.bitmap j

/-- The free count is right. -/
def Counted (p : Pmm) : Prop := p.pagesFree = p.clearBits

theorem exists_clear (h : 0 < p.clearBits) : ∃ st, st + 1 ≤ p.pagesTotal ∧ p.Clear st 1 := by
  rw [clearBits, List.countP_pos_iff] at h
  obtain ⟨st, hst, hb⟩ := h
  refine ⟨st, List.mem_range.mp hst, fun j hj hj' => ?_⟩
  obtain rfl : j = st := by omega
  simpa using hb

/-- With more than `n` free pages one of them is not among the first `n`. -/
theorem exists_clear_above (h : p.Counted) (hfree : n < p.pagesFree) :
    ∃ j, n ≤ j ∧ j < p.pagesTotal ∧ p.bitmap j = false := by
  by_contra hno
  have hbelow : ∀ t, (List.range t).countP (fun j => decide (j < n)) ≤ min t n := by
    intro t
    induction t with
    | zero => simp
    | succ t ih =>
        rw [List.range_succ, List.countP_append, List.countP_singleton]
        split
        · rename_i ht
          have ht' := of_decide_eq_true ht
          omega
        · omega
  have hle : p.clearBits ≤ (List.range p.pagesTotal).countP fun j => decide (j < n) := by
    apply List.countP_mono_left
    intro j hj hclear
    by_contra hge
    refine hno ⟨j, by simpa using hge, List.mem_range.mp hj, by simpa using hclear⟩
  have hcount : p.pagesFree = p.clearBits := h
  have hmin := hbelow p.pagesTotal
  omega

/-- Counting where two tests differ inside a run only. -/
theorem countP_run {f g : Nat → Bool} {t : Nat} (hin : i + n ≤ t)
    (hout : ∀ j, inRun i n j = false → f j = g j) :
    (List.range t).countP f + (List.range' i n).countP g
      = (List.range t).countP g + (List.range' i n).countP f := by
  have hsplit : List.range t
      = List.range i ++ (List.range' i n ++ List.range' (i + n) (t - (i + n))) := by
    rw [List.range'_append_1, List.range_eq_range', List.range_eq_range']
    have := @List.range'_append_1 0 i (n + (t - (i + n)))
    rw [Nat.zero_add] at this
    rw [this]
    congr 1
    omega
  have hlow : (List.range i).countP f = (List.range i).countP g := by
    refine List.countP_congr fun j hj => ?_
    rw [hout j]
    have := List.mem_range.mp hj
    simp only [inRun, decide_eq_false_iff_not]
    omega
  have hhigh : (List.range' (i + n) (t - (i + n))).countP f
      = (List.range' (i + n) (t - (i + n))).countP g := by
    refine List.countP_congr fun j hj => ?_
    rw [hout j]
    have := List.mem_range'_1.mp hj
    simp only [inRun, decide_eq_false_iff_not]
    omega
  rw [hsplit]
  simp only [List.countP_append, hlow, hhigh]
  omega

theorem inRun_of_mem {j : Nat} (hj : j ∈ List.range' i n) : inRun i n j = true := by
  have := List.mem_range'_1.mp hj
  simp only [inRun, decide_eq_true_eq]
  omega

theorem Counted.reserveLoop (h : p.Counted) (hin : i + n ≤ p.pagesTotal) :
    (reserveLoop n i p).Counted := by
  rw [reserveLoop_eq]
  have hcount := countP_run (f := fun j => !(p.bitmap j || inRun i n j))
    (g := fun j => !p.bitmap j) hin fun j hj => by simp [hj]
  have hzero : (List.range' i n).countP (fun j => !(p.bitmap j || inRun i n j)) = 0 := by
    rw [List.countP_eq_zero]
    exact fun j hj => by simp [inRun_of_mem hj]
  unfold Counted clearBits at h ⊢
  simp only [h]
  omega

/-- Taking a run of free pages leaves that many clear bits less. -/
theorem Clear.clearBits_take (h : p.Clear st count) (hin : st + count ≤ p.pagesTotal) :
    (List.range p.pagesTotal).countP (fun j => !(p.bitmap j || inRun st count j)) + count
      = p.clearBits := by
  have hrun := countP_run (f := fun j => !(p.bitmap j || inRun st count j)) (g := fun j => !p.bitmap j)
    hin fun j hj => by simp [hj]
  have hzero : (List.range' st count).countP (fun j => !(p.bitmap j || inRun st count j)) = 0 := by
    rw [List.countP_eq_zero]
    exact fun j hj => by simp [inRun_of_mem hj]
  have hall : (List.range' st count).countP (fun j => !p.bitmap j) = count := by
    rw [List.countP_eq_length.mpr, List.length_range']
    intro j hj
    have hmem := List.mem_range'_1.mp hj
    simp [h j (by omega) (by omega)]
  unfold clearBits
  omega

/-- The early exit on the free count refuses no request for which there is a run. -/
theorem Clear.le_clearBits (h : p.Clear st count) (hin : st + count ≤ p.pagesTotal) :
    count ≤ p.clearBits := by
  have htake := h.clearBits_take hin
  omega

theorem Counted.allocRun (h : p.Counted) (count : Nat) : (p.allocRun count).2.Counted := by
  rcases p.allocRun_cases count with ⟨heq, -⟩ | ⟨st, -, -, hclear, hin, -, heq⟩
  · rw [heq]
    exact h
  · rw [heq]
    have htake := hclear.clearBits_take hin
    have hcount : p.pagesFree = p.clearBits := h
    show p.pagesFree - count = (List.range p.pagesTotal).countP fun j => !(p.bitmap j || inRun st count j)
    omega

theorem clearBits_clearBit (hi : i < p.pagesTotal) (hb : p.bitmap i = true) :
    (p.clearBit i).clearBits = p.clearBits + 1 := by
  have hcount := countP_run (f := fun j => !(p.clearBit i).bitmap j) (g := fun j => !p.bitmap j)
    (i := i) (n := 1) (t := p.pagesTotal) (by omega) fun j hj => by
      have hji : j ≠ i := by
        simp only [inRun, decide_eq_false_iff_not] at hj
        omega
      simp [clearBit, hji]
  simp only [List.range'_one, List.countP_singleton, hb, clearBit, Function.update_self] at hcount
  simpa [clearBits, clearBit] using hcount

theorem Counted.freeLoop (h : p.Counted) (n i : Nat) : (freeLoop n i p).Counted := by
  induction n generalizing p i with
  | zero => exact h
  | succ n ih =>
      rw [Pmm.freeLoop]
      split
      · rename_i hi
        split
        · rename_i hb
          refine ih ?_ (i + 1)
          show p.pagesFree + 1 = (p.clearBit i).clearBits
          rw [clearBits_clearBit hi hb, h]
        · exact ih h (i + 1)
      · exact h

theorem Counted.freePages (h : p.Counted) (addr : Word) (count : Nat) :
    (p.freePages addr count).Counted := by
  unfold Pmm.freePages
  split
  · exact h
  · split
    · exact h
    · split
      · exact h
      · exact h.freeLoop _ _

/-! ## Reservation -/

/-- The same managed region, whatever is in use of it. -/
structure SameRegion (p q : Pmm) : Prop where
  base : q.memBase = p.memBase
  size : q.memSize = p.memSize
  total : q.pagesTotal = p.pagesTotal

theorem SameRegion.refl (p : Pmm) : p.SameRegion p := ⟨rfl, rfl, rfl⟩

/-- `reserve_range` marks one run of managed pages, which depends on the region only. -/
theorem reserveRange_run (p : Pmm) (start size : Word) :
    ∃ i n, i + n ≤ p.pagesTotal ∧
      ∀ q, p.SameRegion q → q.reserveRange start size = reserveLoop n i q := by
  have hsame : (∀ q, p.SameRegion q → q.reserveRange start size = q) → ∃ i n, i + n ≤ p.pagesTotal ∧
      ∀ q, p.SameRegion q → q.reserveRange start size = reserveLoop n i q :=
    fun h => ⟨0, 0, by omega, h⟩
  by_cases h0 : size = 0
  · exact hsame fun q _ => if_pos h0
  by_cases hlow : start + size ≤ p.memBase
  · refine hsame fun q hq => ?_
    rw [reserveRange, if_neg h0, hq.base, if_pos hlow]
  by_cases hhigh : p.memBase + p.memSize ≤ start
  · refine hsame fun q hq => ?_
    rw [reserveRange, if_neg h0, hq.base, hq.size, if_neg hlow, if_pos hhigh]
  have hrun : ∀ q, p.SameRegion q → q.reserveRange start size =
      q.reserveLoop
        (min (p.addrToPage (pageUp (if p.memBase + p.memSize < start + size
            then p.memBase + p.memSize else start + size))) p.pagesTotal -
          p.addrToPage (pageDown (if start < p.memBase then p.memBase else start)))
        (p.addrToPage (pageDown (if start < p.memBase then p.memBase else start))) := by
    intro q hq
    rw [reserveRange, if_neg h0, hq.base, hq.size, if_neg hlow, if_neg hhigh]
    dsimp only
    rw [addrToPage, addrToPage, hq.base, hq.total]
    rfl
  generalize p.addrToPage (pageDown (if start < p.memBase then p.memBase else start)) = first at hrun
  generalize p.addrToPage (pageUp _) = last at hrun
  by_cases hlt : first < min last p.pagesTotal
  · exact ⟨first, _, by omega, hrun⟩
  · refine ⟨0, 0, by omega, fun q hq => ?_⟩
    rw [hrun q hq, show min last p.pagesTotal - first = 0 by omega]
    rfl

theorem Counted.reserveRange (h : p.Counted) (start size : Word) :
    (p.reserveRange start size).Counted := by
  obtain ⟨i, n, hin, heq⟩ := p.reserveRange_run start size
  rw [heq p (.refl p)]
  exact h.reserveLoop hin

/-- A managed region as initialisation sets it up: page aligned, within 64 bits, with a bitmap that
covers at most its pages. -/
structure Region (p : Pmm) : Prop where
  base : p.memBase.toNat % 4096 = 0
  size : p.memSize.toNat % 4096 = 0
  bound : p.memBase.toNat + p.memSize.toNat < 2 ^ 64
  total : p.pagesTotal * 4096 ≤ p.memSize.toNat
  cap : p.pagesTotal ≤ pmmMaxPages

theorem SameRegion.region {q : Pmm} (h : p.SameRegion q) (hr : p.Region) : q.Region := by
  refine ⟨?_, ?_, ?_, ?_, ?_⟩
  · rw [h.base]; exact hr.base
  · rw [h.size]; exact hr.size
  · rw [h.base, h.size]; exact hr.bound
  · rw [h.total, h.size]; exact hr.total
  · rw [h.total]; exact hr.cap

/-- Page `j` has an address in `[start, start + size)`. -/
def Touches (p : Pmm) (j start size : Nat) : Prop :=
  0 < size ∧ p.memBase.toNat + 4096 * j < start + size ∧ start < p.memBase.toNat + 4096 * (j + 1)

theorem addrToPage_eq {addr : Word} (h : p.memBase.toNat ≤ addr.toNat) :
    p.addrToPage addr = (addr.toNat - p.memBase.toNat) / 4096 := by
  rw [addrToPage, BitVec.toNat_udiv, BitVec.toNat_sub_of_le (BitVec.le_def.mpr h), pageSize_toNat]

theorem pageToAddr_toNat (h : p.memBase.toNat + 4096 * p.pagesTotal ≤ 2 ^ 64) (hi : i < p.pagesTotal) :
    (p.pageToAddr i).toNat = p.memBase.toNat + 4096 * i := by
  rw [Pmm.pageToAddr, BitVec.toNat_add, BitVec.toNat_mul, pageSize_toNat, BitVec.toNat_ofNat]
  omega

theorem Region.le (h : p.Region) : p.memBase.toNat + 4096 * p.pagesTotal ≤ 2 ^ 64 := by
  have h1 := h.bound
  have h2 := h.total
  omega

theorem Region.pageToAddr (h : p.Region) (hi : i < p.pagesTotal) :
    (p.pageToAddr i).toNat = p.memBase.toNat + 4096 * i := pageToAddr_toNat h.le hi

theorem Region.addrToPage_pageToAddr (h : p.Region) (hi : i < p.pagesTotal) :
    p.addrToPage (p.pageToAddr i) = i := by
  have heq := h.pageToAddr hi
  rw [addrToPage_eq (by omega), heq]
  omega

/-- **Reservation.** A range that does not wrap marks exactly the managed pages it touches. -/
theorem reserveRange_touches (hreg : p.Region) {start size : Word}
    (hwrap : start.toNat + size.toNat < 2 ^ 64) :
    ∃ i n, i + n ≤ p.pagesTotal ∧ p.reserveRange start size = reserveLoop n i p ∧
      ∀ j < p.pagesTotal, inRun i n j = true ↔ p.Touches j start.toNat size.toNat := by
  have hbase := hreg.base
  have hsize := hreg.size
  have hbound := hreg.bound
  have htotal := hreg.total
  have hend : (start + size).toNat = start.toNat + size.toNat := BitVec.toNat_add_of_lt hwrap
  have hlim : (p.memBase + p.memSize).toNat = p.memBase.toNat + p.memSize.toNat :=
    BitVec.toNat_add_of_lt hbound
  -- when nothing is marked, nothing is touched
  have hnothing : (∀ j < p.pagesTotal, ¬ p.Touches j start.toNat size.toNat) →
      ∃ i n, i + n ≤ p.pagesTotal ∧ p = reserveLoop n i p ∧
        ∀ j < p.pagesTotal, inRun i n j = true ↔ p.Touches j start.toNat size.toNat := by
    intro hno
    refine ⟨0, 0, by omega, rfl, fun j hj => ?_⟩
    simp [inRun_zero, hno j hj]
  unfold reserveRange
  by_cases h0 : size = 0
  · rw [if_pos h0]
    refine hnothing fun j _ ht => ?_
    have := ht.1
    rw [h0] at this
    exact absurd this (by simp)
  rw [if_neg h0]
  have hpos : 0 < size.toNat := Nat.pos_of_ne_zero fun e => h0 (BitVec.eq_of_toNat_eq e)
  by_cases h1 : start + size ≤ p.memBase
  · rw [if_pos h1]
    rw [BitVec.le_def, hend] at h1
    exact hnothing fun j _ ht => by have := ht.2.1; omega
  rw [if_neg h1]
  by_cases h2 : p.memBase + p.memSize ≤ start
  · rw [if_pos h2]
    rw [BitVec.le_def, hlim] at h2
    exact hnothing fun j hj ht => by have := ht.2.2; omega
  rw [if_neg h2]
  rw [BitVec.le_def, hend] at h1
  rw [BitVec.le_def, hlim] at h2
  dsimp only
  -- the clipped range, in numbers
  have hrs : (if start < p.memBase then p.memBase else start).toNat
      = max start.toNat p.memBase.toNat := by
    split <;> rename_i h <;> rw [BitVec.lt_def] at h <;> omega
  have hre : (if p.memBase + p.memSize < start + size then p.memBase + p.memSize
      else start + size).toNat
      = min (start.toNat + size.toNat) (p.memBase.toNat + p.memSize.toNat) := by
    split <;> rename_i h <;> rw [BitVec.lt_def, hlim, hend] at h <;> omega
  generalize (if start < p.memBase then p.memBase else start) = rstart at hrs ⊢
  generalize (if p.memBase + p.memSize < start + size then p.memBase + p.memSize
    else start + size) = rend at hre ⊢
  have hdown := pageDown_toNat rstart
  have hup := pageUp_toNat (x := rend) (by omega)
  have hfirst := addrToPage_eq (show p.memBase.toNat ≤ (pageDown rstart).toNat by omega)
  have hlast := addrToPage_eq (show p.memBase.toNat ≤ (pageUp rend).toNat by omega)
  rw [hdown] at hfirst
  rw [hup] at hlast
  generalize p.addrToPage (pageDown rstart) = first at hfirst ⊢
  generalize p.addrToPage (pageUp rend) = last at hlast ⊢
  have hiff : ∀ j < p.pagesTotal, (first ≤ j ∧ j < last) ↔
      p.Touches j start.toNat size.toNat := by
    intro j hj
    unfold Touches
    omega
  by_cases hlt : first < min last p.pagesTotal
  · refine ⟨first, _, by omega, rfl, fun j hj => ?_⟩
    rw [← hiff j hj]
    simp only [inRun, decide_eq_true_eq]
    omega
  · rw [show min last p.pagesTotal - first = 0 by omega]
    exact hnothing fun j hj ht => by have := (hiff j hj).mpr ht; omega

/-! ## First fit -/

/-- A page that is handed out is not at address 0. -/
theorem Region.pageToAddr_ne_zero (h : p.Region) (hnull : p.memBase = 0 → p.bitmap 0 = true)
    (hpos : 0 < count) (hin : st + count ≤ p.pagesTotal) (hclear : p.Clear st count) :
    p.pageToAddr st ≠ 0 := by
  intro hzero
  have haddr := h.pageToAddr (show st < p.pagesTotal by omega)
  rw [hzero] at haddr
  have hnat : (0 : Word).toNat = 0 := rfl
  have hbase : p.memBase = 0 := BitVec.eq_of_toNat_eq (by rw [hnat]; omega)
  have hbit := hclear 0 (by omega) (by omega)
  rw [hnull hbase] at hbit
  exact absurd hbit (by simp)

/-- **`pmm_alloc_pages` is first fit**: it fails, and changes nothing, if and only if there is no run of
`count` free pages; else it takes the lowest one. -/
theorem alloc_pages_first_fit {p : Pmm} (hcounted : p.Counted) (hregion : p.Region)
    (hnull : p.memBase = 0 → p.bitmap 0 = true) (count : Nat) :
    ((p.allocPages count).1 = 0 ↔
      count = 0 ∨ ∀ st, st + count ≤ p.pagesTotal → ¬ p.Clear st count) ∧
    ((p.allocPages count).1 = 0 → (p.allocPages count).2 = p) ∧
    ((p.allocPages count).1 ≠ 0 →
      ∃ st, st + count ≤ p.pagesTotal ∧ p.Clear st count ∧ (∀ st' < st, ¬ p.Clear st' count) ∧
        count ≤ p.pagesFree ∧
        p.allocPages count = (p.pageToAddr st, { p with
          bitmap := fun j => p.bitmap j || inRun st count j
          pagesFree := p.pagesFree - count })) := by
  have hfree : p.pagesFree = p.clearBits := hcounted
  have heq : p.allocPages count = p.allocRun count := rfl
  rw [heq]
  rcases p.allocRun_cases count with ⟨hrun, hreason⟩ | ⟨st, hpos, hcount, hclear, hin, hlow, hrun⟩
  · rw [hrun]
    have hnone : count = 0 ∨ ∀ st, st + count ≤ p.pagesTotal → ¬ p.Clear st count := by
      rcases hreason with hzero | hfew | hnone
      · exact .inl hzero
      · -- fewer free pages than `count`: no run of that many
        refine .inr fun st hin hclear => ?_
        have hle := hclear.le_clearBits hin
        omega
      · exact .inr hnone
    exact ⟨⟨fun _ => hnone, fun _ => rfl⟩, fun _ => rfl, fun hne => absurd rfl hne⟩
  · have hne := hregion.pageToAddr_ne_zero hnull hpos hin hclear
    rw [hrun]
    refine ⟨⟨fun hzero => absurd hzero hne, fun hnone => ?_⟩, fun hzero => absurd hzero hne, fun _ => ?_⟩
    · rcases hnone with hzero | hnone
      · omega
      · exact absurd hclear (hnone st hin)
    · exact ⟨st, hin, hclear, hlow, hcount, rfl⟩

/-- Four pages at 1 GiB, of which the second one is in use. -/
def fourPages : Pmm := ⟨fun j => decide (j = 1), 0x40000000, 0x4000, 4, 3⟩

theorem alloc_pages_first_fit_four :
    fourPages.allocPages 2 = (0x40002000, { fourPages with
      bitmap := fun j => fourPages.bitmap j || inRun 2 2 j
      pagesFree := 1 }) := by
  have hcounted : fourPages.Counted := by
    unfold Counted
    decide
  have hfit := alloc_pages_first_fit hcounted ⟨by decide, by decide, by decide, by decide, by decide⟩
    (by decide) 2
  obtain ⟨st, hin, hclear, -, -, heq⟩ := hfit.2.2 (by decide)
  -- pages 0 and 1 do not start a run
  have hst : st = 2 := by
    have htotal : fourPages.pagesTotal = 4 := rfl
    have hone : ¬ (st ≤ 1 ∧ 1 < st + 2) := fun h =>
      absurd (hclear 1 h.1 h.2) (by decide)
    omega
  rw [hst] at heq
  exact heq

end Pmm

end Arcline
