import Arcline.Mm.Vmm

set_option autoImplicit false

/-! # The allocator of kernel virtual memory

Address space is cut off at `vmalloc_next`, or taken from a doubly linked list of free blocks whose
nodes come from a pool of 512. A region is its data pages between two guard pages; every page of it
is backed by a physical page.

The loops take a bound on their steps; an operation has no result (`none`) where the bound is too
small.
-/

namespace Arcline

def vmallocStart : Word := 0xFFFFFF8080000000
def vmallocEnd : Word := 0xFFFFFF80C0000000
def guardSize : Word := 4096

/-- The size of `free_pool`. -/
@[irreducible] def freePoolCap : Nat := 512

/-- The statics of the allocator. Node `i` is `free_pool[i]`; its fields are kept in one map for
each. -/
structure Vmalloc where
  va : Nat → Word
  size : Nat → Word
  next : Nat → Option Nat
  prev : Nat → Option Nat
  freeList : Option Nat
  vmallocNext : Word
  freePoolList : Option Nat
  initialized : Bool

namespace Vmalloc

def setVa (v : Vmalloc) (b : Nat) (x : Word) : Vmalloc := { v with va := Function.update v.va b x }

def setSize (v : Vmalloc) (b : Nat) (x : Word) : Vmalloc :=
  { v with size := Function.update v.size b x }

def setNext (v : Vmalloc) (b : Nat) (o : Option Nat) : Vmalloc :=
  { v with next := Function.update v.next b o }

def setPrev (v : Vmalloc) (b : Nat) (o : Option Nat) : Vmalloc :=
  { v with prev := Function.update v.prev b o }

/-- `init_pool`, from index `i` on, for `n` nodes. -/
def initPoolLoop : Nat → Nat → Vmalloc → Vmalloc
  | 0, _, v => v
  | n + 1, i, v => initPoolLoop n (i + 1) { v.setNext i v.freePoolList with freePoolList := some i }

def initPool (v : Vmalloc) : Vmalloc := v.initPoolLoop freePoolCap 0

def popBlock (v : Vmalloc) (b : Nat) : Vmalloc :=
  let v := { v with freePoolList := v.next b }
  (v.setPrev b none).setNext b none

/-- `alloc_block`. -/
def allocBlock (v : Vmalloc) : Option Nat × Vmalloc :=
  match v.freePoolList with
  | some b => (some b, v.popBlock b)
  | none =>
      let v := if v.initialized then v else { v.initPool with initialized := true }
      match v.freePoolList with
      | none => (none, v)
      | some b => (some b, v.popBlock b)

/-- `free_block`. -/
def freeBlock (v : Vmalloc) (b : Nat) : Vmalloc :=
  { v.setNext b v.freePoolList with freePoolList := some b }

/-- Take a block off `free_list`, as both branches of `coalesce_free_list` do it. -/
def unlink (v : Vmalloc) (b : Nat) : Vmalloc :=
  let v :=
    match v.prev b with
    | some p => v.setNext p (v.next b)
    | none => { v with freeList := v.next b }
  match v.next b with
  | some n => v.setPrev n (v.prev b)
  | none => v

/-- The inner loop of `coalesce_free_list`: compare `cur` with the blocks from `next` on. Both blocks
of a merged pair leave the list. -/
def coalesceNext : Nat → Nat → Option Nat → Bool → Vmalloc → Option (Nat × Bool × Vmalloc)
  | 0, _, _, _, _ => none
  | _ + 1, cur, none, changed, v => some (cur, changed, v)
  | fuel + 1, cur, some next, changed, v =>
      if v.va cur + v.size cur = v.va next then
        let v := v.setSize cur (v.size cur + v.size next)
        let v := (v.unlink cur).unlink next
        let tmp := v.next next
        coalesceNext fuel cur tmp true (v.freeBlock next)
      else if v.va next + v.size next = v.va cur then
        let v := v.setSize next (v.size next + v.size cur)
        let v := (v.unlink next).unlink cur
        let tmp := v.next next
        coalesceNext fuel next tmp true (v.freeBlock cur)
      else coalesceNext fuel cur (v.next next) changed v

/-- The middle loop: every block from `cur` on. -/
def coalescePass (steps : Nat) : Nat → Option Nat → Bool → Vmalloc → Option (Bool × Vmalloc)
  | 0, _, _, _ => none
  | _ + 1, none, changed, v => some (changed, v)
  | fuel + 1, some cur, changed, v =>
      (coalesceNext steps cur (v.next cur) changed v).bind fun r =>
        coalescePass steps fuel (r.2.2.next r.1) r.2.1 r.2.2

/-- The outer loop, which goes on while a pass has changed something. -/
def coalesceLoop (steps : Nat) : Nat → Vmalloc → Option Vmalloc
  | 0, _ => none
  | fuel + 1, v =>
      (coalescePass steps steps v.freeList false v).bind fun r =>
        if r.1 then coalesceLoop steps fuel r.2 else some r.2

def coalesceFreeList (steps : Nat) (v : Vmalloc) : Option Vmalloc :=
  if v.freeList = none then some v else coalesceLoop steps steps v

/-- Write through a `free_block_t **`: `none` is `&free_list`, `some b` is `&b->next`. -/
def setLink (v : Vmalloc) (link o : Option Nat) : Vmalloc :=
  match link with
  | none => { v with freeList := o }
  | some b => v.setNext b o

/-- `!best || cur->size < best->size`. -/
def better (v : Vmalloc) (cur : Nat) : Option (Nat × Option Nat) → Bool
  | none => true
  | some (b, _) => v.size cur < v.size b

/-- The search of `find_free_space`: the smallest block that is large enough, with the link to it. -/
def findBest (v : Vmalloc) (size : Word) :
    Nat → Option Nat → Option Nat → Option (Nat × Option Nat) → Option (Option (Nat × Option Nat))
  | 0, _, _, _ => none
  | _ + 1, _, none, best => some best
  | fuel + 1, prev, some cur, best =>
      findBest v size fuel (some cur) (v.next cur)
        (if size ≤ v.size cur && v.better cur best then some (cur, prev) else best)

/-- Cut `size` bytes off the block `best`, or take it as a whole. -/
def takeBest (v : Vmalloc) (size : Word) (best : Nat) (link : Option Nat) : Word × Vmalloc :=
  if v.size best = size then
    let w := v.setLink link (v.next best)
    let w :=
      match w.next best with
      | some n => w.setPrev n (w.prev best)
      | none => w
    (v.va best, w.freeBlock best)
  else (v.va best, (v.setVa best (v.va best + size)).setSize best (v.size best - size))

/-- `find_free_space`: an address, or 0. -/
def findFreeSpace (steps : Nat) (v : Vmalloc) (size : Word) : Option (Word × Vmalloc) :=
  (v.findBest size steps none v.freeList none).map fun best =>
    match best with
    | some (b, link) => v.takeBest size b link
    | none =>
        if vmallocEnd < v.vmallocNext + size then (0, v)
        else (v.vmallocNext, { v with vmallocNext := v.vmallocNext + size })

/-- Put the block `b` in front of `free_list`. -/
def pushBlock (v : Vmalloc) (b : Nat) (va size : Word) : Vmalloc :=
  let v := (((v.setVa b va).setSize b size).setNext b v.freeList).setPrev b none
  let v :=
    match v.freeList with
    | some n => v.setPrev n (some b)
    | none => v
  { v with freeList := some b }

/-- `add_free_space`. -/
def addFreeSpace (steps : Nat) (v : Vmalloc) (va size : Word) : Option Vmalloc :=
  match v.allocBlock with
  | (none, v) => some v
  | (some b, v) => (v.pushBlock b va size).coalesceFreeList steps

end Vmalloc

namespace Mm

/-- The attributes of guard pages and of data pages. -/
def guardAttrs : BitVec 32 := vmmAttrPxn
def dataAttrs : BitVec 32 := vmmAttrR ||| vmmAttrW ||| vmmAttrNormal ||| vmmAttrPxn

def allocPage (m : Mm) : Word × Mm :=
  let (pa, pmm) := m.mmu.pmm.allocPage
  (pa, { m with mmu := { m.mmu with pmm := pmm } })

def freePage (m : Mm) (pa : Word) : Mm :=
  { m with mmu := { m.mmu with pmm := m.mmu.pmm.freePage pa } }

/-- Unmap a page and free the physical page behind it. -/
def releasePage (m : Mm) (va : Word) : Option Mm :=
  (m.vmmVirtToPhys va).bind fun pa => (m.vmmUnmap va 4096).map fun r => r.2.freePage pa

/-- The loop over the first `n` data pages that releases them, from page `i` on. -/
def releasePages (dataVa : Word) : Nat → Nat → Mm → Option Mm
  | 0, _, m => some m
  | n + 1, i, m =>
      (m.releasePage (dataVa + BitVec.ofNat 64 i * 4096)).bind fun m => releasePages dataVa n (i + 1) m

/-- The loop over the data pages that maps them, from page `i` on; the number of pages mapped. -/
def mapDataPages (dataVa : Word) : Nat → Nat → Mm → Option (Nat × Mm)
  | 0, i, m => some (i, m)
  | n + 1, i, m =>
      let (page, m) := m.allocPage
      if page = 0 then some (i, m)
      else
        (m.vmmMap (dataVa + BitVec.ofNat 64 i * 4096) page 4096 dataAttrs).bind fun r =>
          mapDataPages dataVa n (i + 1) r.2

/-- Give back the first `n` data pages and the first guard page. -/
def rollBack (m : Mm) (baseVa guard1 : Word) (n : Nat) : Option Mm :=
  (releasePages (baseVa + guardSize) n 0 m).bind fun m =>
    (m.vmmUnmap baseVa guardSize).map fun r => r.2.freePage guard1

/-- Back a region with physical pages: the guard page, the data pages, the other guard page. When
the physical pages run out the region is left unmapped and the answer is `false`. -/
def populate (m : Mm) (baseVa : Word) (pages : Word) : Option (Bool × Mm) :=
  let dataVa := baseVa + guardSize
  let (guard1, m) := m.allocPage
  if guard1 = 0 then some (false, m)
  else
    (m.vmmMap baseVa guard1 guardSize guardAttrs).bind fun r =>
      (mapDataPages dataVa pages.toNat 0 r.2).bind fun r =>
        if r.1 < pages.toNat then (r.2.rollBack baseVa guard1 r.1).map fun m => (false, m)
        else
          let (guard2, m) := r.2.allocPage
          if guard2 = 0 then (m.rollBack baseVa guard1 pages.toNat).map fun m => (false, m)
          else
            (m.vmmMap (dataVa + pages * 4096) guard2 guardSize guardAttrs).map fun r => (true, r.2)

end Mm

/-- Number of data pages, and size of the region, of an allocation of `size` bytes. -/
def dataPages (size : Word) : Word := (size + 4095) / 4096

def totalSize (size : Word) : Word := dataPages size * 4096 + 2 * guardSize

/-- The memory managers with the allocator on top of them. -/
structure Kmem where
  mm : Mm
  vm : Vmalloc

namespace Kmem

/-- `vmalloc`. -/
def vmalloc (steps : Nat) (k : Kmem) (size : Word) : Option (Word × Kmem) :=
  if size = 0 then some (0, k)
  else
    (k.vm.findFreeSpace steps (totalSize size)).bind fun r =>
      if r.1 = 0 then some (0, { k with vm := r.2 })
      else
        (k.mm.populate r.1 (dataPages size)).bind fun q =>
          if q.1 then some (r.1 + guardSize, ⟨q.2, r.2⟩)
          else (r.2.addFreeSpace steps r.1 (totalSize size)).map fun vm => (0, ⟨q.2, vm⟩)

/-- `vfree`. -/
def vfree (steps : Nat) (k : Kmem) (ptr size : Word) : Option Kmem :=
  if ptr = 0 ∨ size = 0 then some k
  else
    let baseVa := ptr - guardSize
    (Mm.releasePages ptr (dataPages size).toNat 0 k.mm).bind fun mm =>
      (mm.releasePage baseVa).bind fun mm =>
        (mm.releasePage (ptr + dataPages size * 4096)).bind fun mm =>
          (k.vm.addFreeSpace steps baseVa (totalSize size)).map fun vm => ⟨mm, vm⟩

end Kmem

end Arcline
