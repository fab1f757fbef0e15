import Arcline.Mm.MapRegion
import Arcline.Mm.Window
import Arcline.Tlb

set_option autoImplicit false

/-! # Stale translations

The hardware may walk the tables and cache what it finds at any moment, also between the writes of
`vmm_map`, `vmm_unmap`, `vmm_protect` and `mmu_map_region`. Each of these is a list of page operations
and `tlbi` instructions; after it the cache holds what the tables hold, if its range lies in the upper
half and the loop of `tlb_flush_range` runs.
-/

namespace Arcline

open Radix

/-- Bits 55:12 of an address, by which translations are cached and `tlbi vaae1is` invalidates. -/
def tagOf (va : Word) : BitVec 44 := va.extractLsb' 12 44

/-- The tag of a page of the upper half. -/
def highTag (n : BitVec 36) : BitVec 44 := 0xFF#8 ++ n

/-- The address a call is about. -/
def PtOp.va : PtOp → Word
  | .map va _ _ | .unmap va | .update va _ => va

/-- What reaches the hardware: an operation on one page under the root in TTBR1, or a `tlbi`. -/
inductive TableAct
  | pt (op : PtOp)
  | tlbi (va : Word)

namespace Mmu

def act (m : Mmu) : TableAct → Mmu
  | .pt op => (m.callPt m.ttbr1 op).2
  | .tlbi va => { m with tlbi := va :: m.tlbi }

/-- What a walk finds for a page. Bits 55:48 of an address choose the root; addresses in which they
are not all alike have no translation. -/
def translate (m : Mmu) (tag : BitVec 44) : Option Word :=
  if tag.extractLsb' 36 8 = 0 then m.pageMap m.ttbr0 (tag.extractLsb' 0 36)
  else if tag.extractLsb' 36 8 = 0xFF#8 then m.pageMap m.ttbr1 (tag.extractLsb' 0 36)
  else none

/-- The pages an act writes under TTBR1. -/
def touches : TableAct → Set (BitVec 44)
  | .pt op => {highTag (pageOf op.va)}
  | .tlbi _ => ∅

def invalidates : TableAct → Set (BitVec 44)
  | .pt _ => ∅
  | .tlbi va => {tagOf va}

def tables : Tlb.Tables Mmu TableAct (BitVec 44) Word := ⟨translate, act, touches, invalidates⟩

/-! ## The acts of a call -/

/-- The instructions of `tlb_flush_range`. -/
def flushActs (va size : Word) : List TableAct :=
  (pageOffsets (if va < va + size then size else 0)).map fun off => .tlbi (va + off)

/-- The acts of a loop over the pages of an area, and of the `tlb_flush_range` after it. -/
def areaActs (m : Mmu) (op : Word → PtOp) (va size : Word) : List TableAct :=
  if m.ttbr1 = 0 then [] else ((pageOffsets size).map fun off => .pt (op off)) ++ flushActs va size

def mapAreaActs (m : Mmu) (va pa size : Word) (attrs : BitVec 32) : List TableAct :=
  m.areaActs (fun off => .map (va + off) (pa + off) (pteAttrs attrs)) va size

def unmapAreaActs (m : Mmu) (va size : Word) : List TableAct :=
  m.areaActs (fun off => .unmap (va + off)) va size

def protectAreaActs (m : Mmu) (va size : Word) (attrs : BitVec 32) : List TableAct :=
  m.areaActs (fun off => .update (va + off) (pteAttrs attrs)) va size

/-- The acts of the loop that stops at the first page that cannot be mapped. -/
def mapUntilActs (attrs : Word) : List (Word × Word) → Mmu → List TableAct
  | [], _ => []
  | (va, pa) :: rest, m =>
      .pt (.map va pa attrs) ::
        if (m.mapPage m.ttbr1 va pa attrs).1 = 0
        then mapUntilActs attrs rest (m.mapPage m.ttbr1 va pa attrs).2 else []

/-- The acts of `mmu_map_region`, which returns without `tlb_flush_range` where a page cannot be
mapped. -/
def mapRegionActs (m : Mmu) (pa size attrs : Word) : List TableAct :=
  if m.ttbr1Pgd = 0 then []
  else mapUntilActs attrs (regionPages pa size) m ++
    if (m.mapPagesUntil m.ttbr1Pgd attrs (regionPages pa size)).1 < 0 then []
    else flushActs (kernelBase + pageDown pa) (pageDown (size + (pageSize - 1)))

theorem foldl_flushActs (m : Mmu) (va size : Word) :
    (flushActs va size).foldl act m = m.tlbFlushRange va size := by
  have hcons : ∀ (vas : List Word) (m : Mmu),
      (vas.map TableAct.tlbi).foldl act m = { m with tlbi := vas.reverse ++ m.tlbi } := by
    intro vas
    induction vas with
    | nil => intro m; rfl
    | cons va vas ih =>
        intro m
        rw [List.map_cons, List.foldl_cons, ih, List.reverse_cons, List.append_assoc]
        rfl
  have hmap := hcons ((pageOffsets (if va < va + size then size else 0)).map fun off => va + off) m
  rwa [List.map_map] at hmap

theorem foldl_areaActs (m : Mmu) (op : Word → PtOp) (va size : Word) :
    (m.areaActs op va size).foldl act m = if m.ttbr1 = 0 then m else
      ((pageOffsets size).foldl (fun m off => (m.callPt m.ttbr1 (op off)).2) m).tlbFlushRange va size := by
  unfold areaActs
  split
  · rfl
  · rw [List.foldl_append, foldl_flushActs, List.foldl_map]
    rfl

theorem ttbr1_mapPage (m : Mmu) (r va pa attrs : Word) : (m.mapPage r va pa attrs).2.ttbr1 = m.ttbr1 :=
  congrArg (fun q => q.2.2.2) (m.regs_mapPage r va pa attrs)

theorem foldl_mapUntilActs (attrs : Word) (pages : List (Word × Word)) (m : Mmu) :
    (mapUntilActs attrs pages m).foldl act m = (m.mapPagesUntil m.ttbr1 attrs pages).2 := by
  induction pages generalizing m with
  | nil => rfl
  | cons x pages ih =>
      obtain ⟨va, pa⟩ := x
      have hreg := m.ttbr1_mapPage m.ttbr1 va pa attrs
      rw [mapUntilActs, List.foldl_cons, mapPagesUntil]
      show List.foldl act (m.mapPage m.ttbr1 va pa attrs).2 _ = _
      generalize m.mapPage m.ttbr1 va pa attrs = q at hreg ⊢
      obtain ⟨rc, m₁⟩ := q
      dsimp only at hreg ⊢
      split
      · rename_i hrc
        subst hrc
        rw [ih, hreg]
        rfl
      · split
        · rename_i hrc _ _ heq
          exact absurd (congrArg Prod.fst heq) hrc
        · rename_i heq
          exact (Prod.mk.inj heq).2

variable {m : Mmu} {tag : BitVec 44} {va size : Word}

theorem foldl_mapRegionActs (hpgd : m.ttbr1Pgd = m.ttbr1) (pa size attrs : Word) :
    (m.mapRegionActs pa size attrs).foldl act m = (m.mapRegion pa size attrs).2 := by
  unfold mapRegionActs mapRegion
  split
  · rfl
  · rw [List.foldl_append, foldl_mapUntilActs, hpgd]
    unfold regionPages
    dsimp only
    split
    · rfl
    · exact foldl_flushActs _ _ _

/-- Where all pages are mapped, the loop goes through all of them. -/
theorem mapUntilActs_all {attrs : Word} {pages : List (Word × Word)}
    (h : (m.mapPagesUntil m.ttbr1 attrs pages).1 = 0) :
    mapUntilActs attrs pages m = pages.map fun x => .pt (.map x.1 x.2 attrs) := by
  induction pages generalizing m with
  | nil => rfl
  | cons x pages ih =>
      obtain ⟨va, pa⟩ := x
      have hreg := m.ttbr1_mapPage m.ttbr1 va pa attrs
      rw [mapUntilActs, List.map_cons]
      rw [mapPagesUntil] at h
      generalize m.mapPage m.ttbr1 va pa attrs = q at hreg h ⊢
      obtain ⟨rc, m₁⟩ := q
      dsimp only at hreg h ⊢
      split at h
      · rename_i heq
        obtain ⟨rfl, rfl⟩ := Prod.mk.inj heq
        rw [← hreg] at h
        rw [if_pos rfl, ih h]
      · exact absurd h (show (-1 : Int) ≠ 0 by decide)

/-! ## What an act leaves alone -/

section Framed

variable {roots : Set Word} {live : List (List Nat)} {b m m' : Mmu}

theorem Good.callPt_edits (h : m.Good roots live) (hr : m.ttbr1 ∈ roots) (op : PtOp) :
    (m.callPt m.ttbr1 op).2.Good roots live ∧
      Edits roots m.ttbr1 {pageOf op.va} m (m.callPt m.ttbr1 op).2 := by
  have hedits : (m.callPt m.ttbr1 op).2.Inv roots live ∧
      Edits roots m.ttbr1 {pageOf op.va} m (m.callPt m.ttbr1 op).2 := by
    cases op with
    | map va pa attrs => exact h.inv.mapPage_edits hr va pa attrs
    | unmap va =>
        rw [callPt, unmapPage_eq]
        exact h.inv.rewriteLeaf_edits hr va _
    | update va attrs =>
        rw [callPt, updatePageAttrs_eq]
        exact h.inv.rewriteLeaf_edits hr va _
  obtain ⟨hinv, hedit⟩ := hedits
  have hpgd : (m.callPt m.ttbr1 op).2.ttbr1Pgd = m.ttbr1Pgd := congrArg (fun q => q.2.1) hedit.regs
  refine ⟨⟨hinv, fun _ => ?_, fun hne => ?_⟩, hedit⟩
  · rw [hedit.ttbr1]
    exact hr
  · rw [hpgd] at hne ⊢
    exact h.rooted.ttbr1Pgd hne

/-- Tables that translate pages alike under both roots. -/
theorem translate_congr (h0 : m'.ttbr0 = m.ttbr0) (h1 : m'.ttbr1 = m.ttbr1)
    (hlow : m'.pageMap m.ttbr0 (tag.extractLsb' 0 36) = m.pageMap m.ttbr0 (tag.extractLsb' 0 36))
    (hhigh : tag.extractLsb' 36 8 = 0xFF#8 → m'.pageMap m.ttbr1 (tag.extractLsb' 0 36) = m.pageMap
      m.ttbr1 (tag.extractLsb' 0 36)) : m'.translate tag = m.translate tag := by
  unfold translate
  rw [h0, h1, hlow]
  split
  · rfl
  · split
    · rename_i hff
      exact hhigh hff
    · rfl

theorem highTag_extract (h : tag.extractLsb' 36 8 = 0xFF#8) : highTag (tag.extractLsb' 0 36) = tag := by
  rw [highTag, ← h]
  exact BitVec.extractLsb'_append_extractLsb'_eq_extractLsb' rfl |>.trans (by simp)

theorem TwoHalves.pgd_since (hb : TwoHalves roots b) (h : Since b roots live m) : m.ttbr1Pgd = m.ttbr1 := by
  rw [h.ttbr1Pgd, h.ttbr1]
  exact hb.pgd

theorem Edits.translate {S : Set (BitVec 36)} (hb : TwoHalves roots b) (h : Since b roots live m)
    (hedit : Edits roots m.ttbr1 S m m') (hno : ∀ n ∈ S, tag ≠ highTag n) :
    m'.translate tag = m.translate tag := by
  have hroot0 : m.ttbr0 ∈ roots ∧ m.ttbr0 ≠ m.ttbr1 := by
    rw [h.ttbr0, h.ttbr1]
    exact hb.root hb.ttbr0
  have hroot1 : m.ttbr1 ∈ roots := h.good.rooted.ttbr1 (h.ttbr1 ▸ hb.ttbr1)
  refine translate_congr (congrArg (fun q => q.2.2.1) hedit.regs) hedit.ttbr1 ?_ fun hff => ?_
  · exact hedit.leaf _ hroot0.1 _ fun hc => hroot0.2 hc.1
  · refine hedit.leaf _ hroot1 _ fun hc => ?_
    rw [pageOf_pageStart] at hc
    exact hno _ hc.2 (highTag_extract hff).symm

theorem framed (hb : TwoHalves roots b) : tables.Framed (Since b roots live) := by
  intro m a h
  cases a with
  | pt op =>
      obtain ⟨hgood, hedit⟩ := h.good.callPt_edits (h.good.rooted.ttbr1 (h.ttbr1 ▸ hb.ttbr1)) op
      refine ⟨?_, fun tag htag => ?_⟩
      · have hedit' : Edits roots b.ttbr1 {pageOf op.va} m (m.act (.pt op)) := by
          rw [← h.ttbr1]
          exact hedit
        exact h.edits hb.toParted hedit' hgood
      · refine Edits.translate hb h hedit ?_
        rintro n rfl rfl
        exact htag rfl
  | tlbi va =>
      have hsame := Edits.refl roots b.ttbr1 ∅ m
      have hedit : Edits roots b.ttbr1 ∅ m (m.act (.tlbi va)) :=
        ⟨hsame.regs, ⟨hsame.takes.grows, hsame.takes.kept, hsame.takes.taken, hsame.takes.fresh⟩,
          hsame.others, hsame.leaf⟩
      have hgood : (m.act (.tlbi va)).Good roots live :=
        ⟨⟨h.good.inv.forest, h.good.inv.table, h.good.inv.pmm⟩,
          ⟨h.good.rooted.ttbr1, h.good.rooted.ttbr1Pgd⟩⟩
      exact ⟨h.edits hb.toParted hedit hgood, fun _ _ => rfl⟩

end Framed

/-! ## What the flush covers -/

/-- A range in the upper half of the address space that ends before its last address. -/
def HighRange (va size : Word) : Prop := 0xFFFF000000000000 ≤ va ∧ va.toNat + size.toNat < 2 ^ 64

instance decidableHighRange (va size : Word) : Decidable (HighRange va size) :=
  inferInstanceAs (Decidable (_ ∧ _))

theorem tagOf_high (h : 0xFFFF000000000000 ≤ va) : tagOf va = highTag (pageOf va) := by
  have hva := va.isLt
  rw [BitVec.le_def, show (0xFFFF000000000000 : Word).toNat = 0xFFFF000000000000 from rfl] at h
  apply BitVec.eq_of_toNat_eq
  rw [tagOf, highTag, BitVec.toNat_append, pageOf_toNat, BitVec.extractLsb'_toNat,
    Nat.shiftRight_eq_div_pow, ← Nat.shiftLeft_add_eq_or_of_lt (by omega), Nat.shiftLeft_eq,
    show (0xFF#8).toNat = 255 from rfl]
  omega

/-- The page of each offset of such a range is invalidated by its `tlbi`. -/
theorem HighRange.covered {off : Word} (h : HighRange va size) (hoff : off ∈ pageOffsets size) :
    ∃ a ∈ flushActs va size, highTag (pageOf (va + off)) ∈ invalidates a := by
  obtain ⟨i, hi, rfl⟩ := mem_pageOffsets.mp hoff
  have hva := h.1
  have hend := h.2
  rw [BitVec.le_def, show (0xFFFF000000000000 : Word).toNat = 0xFFFF000000000000 from rfl] at hva
  have hruns : va < va + size := by
    rw [BitVec.lt_def, BitVec.toNat_add]
    omega
  refine ⟨.tlbi (va + BitVec.ofNat 64 (i * 4096)), ?_, ?_⟩
  · rw [flushActs, if_pos hruns]
    exact List.mem_map_of_mem hoff
  · refine (tagOf_high ?_).symm
    rw [BitVec.le_def, BitVec.toNat_add, BitVec.toNat_ofNat,
      show (0xFFFF000000000000 : Word).toNat = 0xFFFF000000000000 from rfl]
    omega

theorem touches_flushActs : ∀ a ∈ flushActs va size, tables.touches a = ∅ := by
  intro a ha
  obtain ⟨off, -, rfl⟩ := List.mem_map.mp ha
  rfl

theorem pending_areaActs (h : HighRange va size) (m : Mmu) {op : Word → PtOp}
    (hop : ∀ off, (op off).va = va + off) : (m.areaActs op va size).foldl tables.pending ∅ = ∅ := by
  unfold areaActs
  split
  · rfl
  · refine Tlb.Tables.foldl_pending_append touches_flushActs ?_
    intro w hw tag htag
    obtain ⟨off, hoff, rfl⟩ := List.mem_map.mp hw
    have htag' : tag = highTag (pageOf (va + off)) := by
      rw [← hop off]
      exact htag
    rw [htag']
    exact h.covered hoff

theorem pending_mapRegionActs (hpgd : m.ttbr1Pgd = m.ttbr1) {pa attrs : Word}
    (hrc : (m.mapRegion pa size attrs).1 = 0)
    (h : HighRange (kernelBase + pageDown pa) (pageDown (size + (pageSize - 1)))) :
    (m.mapRegionActs pa size attrs).foldl tables.pending ∅ = ∅ := by
  obtain ⟨hne, hall, -⟩ := mapRegion_zero hrc
  rw [mapRegionActs, if_neg hne, if_neg (by rw [hall]; decide), mapUntilActs_all (hpgd ▸ hall)]
  refine Tlb.Tables.foldl_pending_append touches_flushActs ?_
  intro w hw tag htag
  obtain ⟨x, hx, rfl⟩ := List.mem_map.mp hw
  obtain ⟨off, hoff, rfl⟩ := List.mem_map.mp hx
  have htag' : tag = highTag (pageOf (kernelBase + pageDown pa + off)) := htag
  rw [htag']
  exact h.covered hoff

/-- The acts of a call of the virtual memory manager that succeeds. -/
def vmmActs (m : Mmu) : VmmOp → List TableAct
  | .map va pa size attrs => m.mapAreaActs va pa size attrs
  | .unmap va size => m.unmapAreaActs va size
  | .protect va size attrs => m.protectAreaActs va size attrs
  | .virtToPhys _ => []

theorem foldl_vmmActs (m : Mmu) (op : VmmOp) : (m.vmmActs op).foldl act m = m.vmmEdit op := by
  cases op with
  | map va pa size attrs => exact m.foldl_areaActs _ va size
  | unmap va size => exact m.foldl_areaActs _ va size
  | protect va size attrs => exact m.foldl_areaActs _ va size
  | virtToPhys va => rfl

end Mmu

namespace Mm

open Mmu

/-- The acts of a call: none where it refuses. -/
def acts (m : Mm) (op : VmmOp) : List TableAct :=
  if (m.call op).map Prod.fst = some (.rc 0) then m.mmu.vmmActs op else []

theorem step_acts {m m' : Mm} {op : VmmOp} (hs : m.step op = some m') :
    m'.mmu = (m.acts op).foldl act m.mmu := by
  obtain ⟨⟨res, m₁⟩, hcall, rfl⟩ := Option.map_eq_some_iff.mp hs
  have hres : (m.call op).map Prod.fst = some res := by rw [hcall]; rfl
  unfold acts
  rcases call_mmu hcall with ⟨rfl, hmmu⟩ | ⟨hne, hmmu⟩
  · rw [if_pos hres, foldl_vmmActs]
    exact hmmu
  · rw [if_neg fun hc => hne (Option.some.inj (hres.symm.trans hc))]
    exact hmmu

end Mm

namespace MmSys

open Mmu

/-- The acts of a call. Callers that take, free or write pages make none. -/
def acts (s : MmSys) : MmOp → List TableAct
  | .vmm op => s.mm.acts op
  | .mapRegion pa size attrs => s.mm.mmu.mapRegionActs pa size attrs
  | .pmm _ | .store _ _ => []

/-- The pages whose translation a call may change. -/
def range (s : MmSys) (op : MmOp) : Set (BitVec 44) := {tag | ∃ a ∈ s.acts op, tag ∈ touches a}

/-- The range of a call lies in the upper half and does not reach its end; `mmu_map_region` succeeds. -/
def Flushes (s : MmSys) : MmOp → Prop
  | .vmm (.map va _ size _) | .vmm (.unmap va size) | .vmm (.protect va size _) => HighRange va size
  | .mapRegion pa size attrs => (s.mm.mmu.mapRegion pa size attrs).1 = 0 ∧
      HighRange (kernelBase + pageDown pa) (pageDown (size + (pageSize - 1)))
  | .vmm (.virtToPhys _) | .pmm _ | .store _ _ => True

/-- The memory managers at work, each call with walks of the hardware before, between and after its
acts. Nothing is cached when the MMU is enabled. -/
inductive Cached (s₀ : MmSys) : MmSys → Tlb.Cache (BitVec 44) Word → Prop
  | start : Cached s₀ s₀ ∅
  | call {s s' : MmSys} {c c' : Tlb.Cache (BitVec 44) Word} {m : Mmu} (op : MmOp) (h : Cached s₀ s c)
      (hown : s.Owns op) (hflush : s.Flushes op) (hs : s.step op = some s')
      (hexec : tables.Exec s.mm.mmu c (s.acts op) m c') : Cached s₀ s' c'

theorem Cached.reach {s₀ s : MmSys} {c : Tlb.Cache (BitVec 44) Word} (h : Cached s₀ s c) :
    Machine.Reach step Owns s₀ s := by
  induction h with
  | start => exact .start
  | call op _ hown _ hs _ ih => exact .next op ih hown hs

section Runs

variable {roots : Set Word} {b : Mmu} {s s' : MmSys}

theorem pending_acts (hpgd : s.mm.mmu.ttbr1Pgd = s.mm.mmu.ttbr1) {op : MmOp} (h : s.Flushes op) :
    (s.acts op).foldl tables.pending ∅ = ∅ := by
  cases op with
  | vmm op =>
      show (s.mm.acts op).foldl tables.pending ∅ = ∅
      unfold Mm.acts
      split
      · cases op with
        | map va pa size attrs => exact pending_areaActs h _ fun _ => rfl
        | unmap va size => exact pending_areaActs h _ fun _ => rfl
        | protect va size attrs => exact pending_areaActs h _ fun _ => rfl
        | virtToPhys va => rfl
      · rfl
  | mapRegion pa size attrs => exact pending_mapRegionActs hpgd h.1 h.2
  | pmm op => rfl
  | store addr v => rfl

/-- A call translates as its acts do. -/
theorem translate_step (hb : TwoHalves roots b) (h : Since b roots s.live s.mm.mmu) {op : MmOp}
    (hown : s.Owns op) (hs : s.step op = some s') :
    s'.mm.mmu.translate = ((s.acts op).foldl act s.mm.mmu).translate := by
  cases op with
  | vmm op =>
      obtain ⟨mm, hmm, rfl⟩ := Option.map_eq_some_iff.mp hs
      exact congrArg Mmu.translate (Mm.step_acts hmm)
  | mapRegion pa size attrs =>
      obtain rfl := Option.some.inj hs
      exact congrArg Mmu.translate (foldl_mapRegionActs (hb.pgd_since h) pa size attrs).symm
  | pmm op =>
      obtain ⟨q, hq, rfl⟩ := Option.map_eq_some_iff.mp hs
      rfl
  | store addr v =>
      obtain rfl := Option.some.inj hs
      obtain ⟨-, j, hj, hpage⟩ := hown
      obtain ⟨hlt, -, hnot⟩ := h.good.inv.pmm.used j hj
      have hleaf := fun {r : Word} (hr : r ∈ roots) va => leaf_congr (fun u hu i =>
        h.good.inv.entry_store hlt hpage (fun ht => hnot (.inr ht)) v hu i) hr va
      have hroot0 : s.mm.mmu.ttbr0 ∈ roots := h.ttbr0 ▸ (hb.root hb.ttbr0).1
      have hroot1 : s.mm.mmu.ttbr1 ∈ roots := h.good.rooted.ttbr1 (h.ttbr1 ▸ hb.ttbr1)
      funext tag
      exact translate_congr rfl rfl (hleaf hroot0 _) fun _ => hleaf hroot1 _

/-- With two pages or more `mmu_init` gets both roots. -/
theorem boot_twoHalves {env : BootEnv} {fuel : Nat} {p : Pmm} (hinit : env.pmmInitFromDtb fuel = some p)
    (hfree : 2 ≤ p.pagesFree) (mem : Word → Word) (img : Image) :
    ∃ roots, (boot p mem img).mm.mmu.Good roots [] ∧ TwoHalves roots (boot p mem img).mm.mmu := by
  rcases boot_cases hinit mem img with ⟨hfew, -⟩ | ⟨m, t0, t1, -, -, hgood, hhalves, -⟩
  · omega
  · exact ⟨{t1, t0}, hgood, hhalves⟩

theorem Cached.coherent {p : Pmm} {mem : Word → Word} {img : Image} {c : Tlb.Cache (BitVec 44) Word}
    (hgood : (boot p mem img).mm.mmu.Good roots []) (hb : TwoHalves roots (boot p mem img).mm.mmu)
    (h : Cached (boot p mem img) s c) : Tlb.WrongOn ∅ s.mm.mmu.translate c := by
  induction h with
  | start => exact Tlb.wrongOn_empty ∅ _
  | @call s s' c c' m op hc hown hflush hs hexec ih =>
      have hsince := since_of_reach hgood hb.toParted hc.reach
      have hwrong := (hexec.wrongOn (framed hb) hsince ih).2
      rw [pending_acts (hb.pgd_since hsince) hflush, hexec.state] at hwrong
      rw [translate_step hb hsince hown hs]
      exact hwrong

end Runs

/-- **No stale translation.** With two pages for the roots, and as long as the range of each call lies in
the upper half and does not wrap and `mmu_map_region` succeeds: whatever the hardware caches and drops
between any two acts, after every call each cached translation is that of the tables; and while a call is
under way, after any part `as` of its acts, so are those of the pages that are not in its range. -/
theorem tlb_coherent {env : BootEnv} {fuel : Nat} {p : Pmm} (hinit : env.pmmInitFromDtb fuel = some p)
    (hfree : 2 ≤ p.pagesFree) {mem : Word → Word} {s : MmSys} {c : Tlb.Cache (BitVec 44) Word}
    (h : Cached (boot p mem env.image) s c) :
    (∀ x ∈ c, s.mm.mmu.translate x.1 = some x.2) ∧
      ∀ op as bs m c', s.acts op = as ++ bs → tables.Exec s.mm.mmu c as m c' →
        ∀ x ∈ c', x.1 ∉ s.range op → m.translate x.1 = some x.2 := by
  obtain ⟨roots, hgood, hb⟩ := boot_twoHalves hinit hfree mem env.image
  have hright := h.coherent hgood hb
  refine ⟨fun x hx => hright x hx id, ?_⟩
  intro op as bs m c' hacts hexec x hx hout
  have hsince := since_of_reach hgood hb.toParted h.reach
  have hpending : as.foldl tables.pending ∅ ⊆ s.range op := by
    refine Tlb.Tables.foldl_pending_subset (Set.empty_subset _) fun a ha tag htag => ⟨a, ?_, htag⟩
    rw [hacts]
    exact List.mem_append_left bs ha
  exact (hexec.wrongOn (framed hb) hsince hright).2 x hx fun hp => hout (hpending hp)

/-- A page of the higher half that has been mapped may be cached. -/
theorem exists_cached {b : MmSys} (hpgd : b.mm.mmu.ttbr1Pgd = b.mm.mmu.ttbr1)
    (hrc : (b.mm.mmu.mapRegion 0x1000 0x1000 bootAttrs).1 = 0)
    (hcall : RegionCall b.mm.mmu (b.mm.mmu.mapRegion 0x1000 0x1000 bootAttrs).2 0x1000 0x1000 bootAttrs) :
    ∃ s c, Cached b s c ∧ (tagOf (kernelBase + 0x1000), pageDescriptor 0x1000 bootAttrs) ∈ c := by
  have hentry := hcall.entry (kernelBase + 0x1000, 0x1000) (by decide)
  have htranslate : (b.mm.mmu.mapRegion 0x1000 0x1000 bootAttrs).2.translate
      (tagOf (kernelBase + 0x1000)) = some (pageDescriptor 0x1000 bootAttrs) := by
    rw [Mmu.translate, if_neg (by decide), if_pos (by decide), hcall.ttbr1]
    rw [leaf_eq_pageMap] at hentry
    exact hentry
  have hfold : (b.acts (.mapRegion 0x1000 0x1000 bootAttrs)).foldl tables.effect b.mm.mmu
      = (b.mm.mmu.mapRegion 0x1000 0x1000 bootAttrs).2 := foldl_mapRegionActs hpgd _ _ _
  have hwalks : Tlb.Walks (tables.find ((b.acts (.mapRegion 0x1000 0x1000 bootAttrs)).foldl
      tables.effect b.mm.mmu)) ∅ {(tagOf (kernelBase + 0x1000), pageDescriptor 0x1000 bootAttrs)} := by
    rintro x rfl
    rw [hfold]
    exact .inr htranslate
  exact ⟨_, _, Cached.call (.mapRegion 0x1000 0x1000 bootAttrs) .start trivial ⟨hrc, by decide⟩ rfl
    (Tlb.Tables.exec_of_walks _ hwalks ∅), rfl⟩

/-- A page of the linear map, mapped right after boot and cached. -/
theorem tlb_coherent_page :
    ∃ p s c, (oneBank 0x40000000 0x40000000).pmmInitFromDtb 20 = some p ∧
      Cached (boot p (fun _ => 0) (oneBank 0x40000000 0x40000000).image) s c ∧
      (tagOf (kernelBase + 0x1000), pageDescriptor 0x1000 bootAttrs) ∈ c ∧
      s.mm.mmu.translate (tagOf (kernelBase + 0x1000)) = some (pageDescriptor 0x1000 bootAttrs) := by
  obtain ⟨p, hinit, -, hmap⟩ := boot_oneGiB
  obtain ⟨p', hinit', hfree, -⟩ := init_oneGiB
  obtain rfl : p = p' := Option.some.inj (hinit.symm.trans hinit')
  have htwo : 2 ≤ p.pagesFree := by omega
  obtain ⟨roots, hgood, -⟩ := good_boot hinit (fun _ => 0) (oneBank 0x40000000 0x40000000).image
  have hrc := hmap 0x1000 0x1000 bootAttrs (by decide)
  obtain ⟨s, c, hcached, hmem⟩ := exists_cached rfl hrc (hgood.regionCall rfl (by decide) hrc)
  have hright := (tlb_coherent hinit htwo hcached).1 _ hmem
  exact ⟨p, s, c, hinit, hcached, hmem, hright⟩

end MmSys

end Arcline
