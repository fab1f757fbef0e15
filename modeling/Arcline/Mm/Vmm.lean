import Arcline.Mm.Mmu
import Arcline.RbTree.Search

set_option autoImplicit false

/-! # The virtual memory manager

A red-black tree of virtual memory areas, whose nodes come from a pool of 256. A node that is not
in use is on `vma_free_list`, which runs through the `left` pointers of its nodes: the tree and the
free list share that field. The model keeps the pool as one linked structure (`RbTree.Rb`), node
`i` being `vma_pool[i]`.

An operation has no result (`none`) where the code would follow a NULL pointer or not come to an end.
-/

namespace Arcline

open RbTree

/-- What a `vma_node` holds besides its links. -/
structure Vma where
  va : Word
  pa : Word
  size : Word
  attrs : BitVec 32
deriving DecidableEq, Repr

def vmmAttrR : BitVec 32 := 1 <<< 0
def vmmAttrW : BitVec 32 := 1 <<< 1
def vmmAttrX : BitVec 32 := 1 <<< 2
def vmmAttrDevice : BitVec 32 := 1 <<< 3
def vmmAttrNormal : BitVec 32 := 1 <<< 4
def vmmAttrUxn : BitVec 32 := 1 <<< 5
def vmmAttrPxn : BitVec 32 := 1 <<< 6

/-- `VMA_POOL_CAP`. -/
@[irreducible] def vmaPoolCap : Nat := 256

/-- A bound on the steps of the loops below. A walk down a pool of 256 nodes that takes more steps
than that never ends, and neither do the loops that repair colours on a tree. -/
def vmaSteps : Nat := 65536

/-- The statics of the manager: the pool with `vma_root`, `vma_free_list`, and the `initialized`
flag of `vma_alloc_node`. -/
structure Vmm where
  tree : Rb Vma
  freeList : Option Nat
  initialized : Bool

namespace Vmm

/-- `init_vma_pool`, from index `i` on, for `n` nodes. -/
def initPoolLoop : Nat → Nat → Vmm → Vmm
  | 0, _, v => v
  | n + 1, i, v =>
      initPoolLoop n (i + 1) { v with tree := v.tree.setLeft i v.freeList, freeList := some i }

def initVmaPool (v : Vmm) : Vmm := v.initPoolLoop vmaPoolCap 0

/-- Take the first node `n` off the free list. -/
def popNode (v : Vmm) (n : Nat) : Vmm :=
  { v with
    tree := (((v.tree.setLeft n none).setRight n none).setParent n none).setColor n .red
    freeList := v.tree.left n }

/-- `vma_alloc_node`. The pool is set up here too, on the first call that finds the list empty. -/
def vmaAllocNode (v : Vmm) : Option Nat × Vmm :=
  match v.freeList with
  | some n => (some n, v.popNode n)
  | none =>
      let v := if v.initialized then v else { v.initVmaPool with initialized := true }
      match v.freeList with
      | none => (none, v)
      | some n => (some n, v.popNode n)

/-- `vma_free_node`. -/
def vmaFreeNode (v : Vmm) (n : Nat) : Vmm :=
  { v with tree := v.tree.setLeft n v.freeList, freeList := some n }

/-- `vmm_init`. -/
def init (v : Vmm) : Vmm := { v with tree := v.tree.setRoot none }.initVmaPool

/-- `find_le`: the node of greatest start at or below `va`. -/
def findLe (v : Vmm) (va : Word) : Option (Option Nat) :=
  Rb.lastRight (fun n => va < (v.tree.val n).va) vmaSteps v.tree v.tree.root none

/-- `find_ge`: the node of least start at or above `va`. -/
def findGe (v : Vmm) (va : Word) : Option (Option Nat) :=
  Rb.lastLeft (fun n => va ≤ (v.tree.val n).va) vmaSteps v.tree v.tree.root none

/-- `find_exact`. -/
def findExact (v : Vmm) (va : Word) : Option (Option Nat) :=
  Rb.findNode (fun n => va < (v.tree.val n).va) (fun n => (v.tree.val n).va < va) vmaSteps v.tree
    v.tree.root

/-- `overlaps`. -/
def overlaps (v : Vmm) (n : Option Nat) (va size : Word) : Bool :=
  match n with
  | none => false
  | some n =>
      let a0 := (v.tree.val n).va
      let a1 := (v.tree.val n).va + (v.tree.val n).size
      let b0 := va
      let b1 := va + size
      !(b1 ≤ a0 || a1 ≤ b0)

/-- The checks of `vmm_map`, in their order; 0 if all pass. -/
def mapChecks (v : Vmm) (va pa size : Word) : Option Int :=
  if size = 0 then some (-1)
  else if pageOffset va ≠ 0 ∨ pageOffset pa ≠ 0 ∨ pageOffset size ≠ 0 then some (-2)
  else
    (v.findLe va).bind fun pred =>
      if v.overlaps pred va size then some (-3)
      else
        (v.findGe va).bind fun succ =>
          if v.overlaps succ va size then some (-3) else some 0

/-- The checks of `vmm_unmap` and `vmm_protect`, in their order: an error code, or the node of the
range. -/
def findRange (v : Vmm) (va size : Word) : Option (Except Int Nat) :=
  if size = 0 then some (.error (-1))
  else if pageOffset va ≠ 0 ∨ pageOffset size ≠ 0 then some (.error (-2))
  else
    (v.findExact va).map fun cur =>
      match cur with
      | none => .error (-3)
      | some n => if (v.tree.val n).size ≠ size then .error (-3) else .ok n

/-- Fill the node `n` and link it at its search position. -/
def insertNode (v : Vmm) (n : Nat) (a : Vma) : Option Vmm :=
  let tree := v.tree.setVal n a
  (tree.rbInsert (fun p => a.va < (tree.val p).va) Rb.rotateLeft Rb.rotateRightL vmaSteps n).map
    fun tree => { v with tree := tree }

/-- `rb_delete`. Where the sibling is missing `delete_fixup` treats it as a black leaf. -/
def rbDelete (v : Vmm) (n : Nat) : Option Vmm :=
  (v.tree.rbDelete Rb.rotateLeft Rb.rotateRightL (fun s _ => some (s, true)) vmaSteps n).map
    fun tree => { v with tree := tree }

/-- `cur->attrs = attrs`. -/
def setAttrs (v : Vmm) (n : Nat) (attrs : BitVec 32) : Vmm :=
  { v with tree := v.tree.setVal n { v.tree.val n with attrs := attrs } }

end Vmm

/-- The descriptor bits `vmm_map` and `vmm_protect` derive from a mapping's attributes. -/
def pteAttrs (attrs : BitVec 32) : Word :=
  ptePage ||| pteAf ||| pteShInner
    ||| (if attrs &&& vmmAttrDevice ≠ 0 then pteAttrIdx mairIdxDevice else pteAttrIdx mairIdxNormal)
    ||| (if attrs &&& vmmAttrW = 0 then pteRo else 0)
    ||| (if attrs &&& vmmAttrUxn ≠ 0 then pteUxn else 0)
    ||| (if attrs &&& vmmAttrPxn ≠ 0 then ptePxn else 0)

/-- The memory managers of the kernel: page tables (with the page allocator) and virtual areas. -/
structure Mm where
  mmu : Mmu
  vmm : Vmm

namespace Mmu

/-- The loops of `vmm_map`, `vmm_unmap` and `vmm_protect` over the pages of a range. What the page
operations return is not looked at. -/
def mapRange (m : Mmu) (va pa size attrs : Word) : Mmu :=
  (pageOffsets size).foldl (fun m off => (m.mapPage m.ttbr1 (va + off) (pa + off) attrs).2) m

def unmapRange (m : Mmu) (va size : Word) : Mmu :=
  (pageOffsets size).foldl (fun m off => (m.unmapPage m.ttbr1 (va + off)).2) m

def updateRange (m : Mmu) (va size attrs : Word) : Mmu :=
  (pageOffsets size).foldl (fun m off => (m.updatePageAttrs m.ttbr1 (va + off) attrs).2) m

/-! What `vmm_map`, `vmm_unmap` and `vmm_protect` do to the page tables: nothing before TTBR1 is
set. -/

def mapArea (m : Mmu) (va pa size : Word) (attrs : BitVec 32) : Mmu :=
  if m.ttbr1 = 0 then m else (m.mapRange va pa size (pteAttrs attrs)).tlbFlushRange va size

def unmapArea (m : Mmu) (va size : Word) : Mmu :=
  if m.ttbr1 = 0 then m else (m.unmapRange va size).tlbFlushRange va size

def protectArea (m : Mmu) (va size : Word) (attrs : BitVec 32) : Mmu :=
  if m.ttbr1 = 0 then m else (m.updateRange va size (pteAttrs attrs)).tlbFlushRange va size

end Mmu

namespace Mm

def vmmInit (m : Mm) : Mm := { m with vmm := m.vmm.init }

/-- `vmm_map`. -/
def vmmMap (m : Mm) (va pa size : Word) (attrs : BitVec 32) : Option (Int × Mm) :=
  (m.vmm.mapChecks va pa size).bind fun rc =>
    if rc ≠ 0 then some (rc, m)
    else
      match m.vmm.vmaAllocNode with
      | (none, v) => some (-4, { m with vmm := v })
      | (some n, v) =>
          (v.insertNode n ⟨va, pa, size, attrs⟩).map fun v =>
            (0, ⟨m.mmu.mapArea va pa size attrs, v⟩)

/-- `vmm_unmap`. -/
def vmmUnmap (m : Mm) (va size : Word) : Option (Int × Mm) :=
  (m.vmm.findRange va size).bind fun cur =>
    match cur with
    | .error rc => some (rc, m)
    | .ok n =>
        (m.vmm.rbDelete n).map fun v => (0, ⟨m.mmu.unmapArea va size, v.vmaFreeNode n⟩)

/-- `vmm_protect`. -/
def vmmProtect (m : Mm) (va size : Word) (attrs : BitVec 32) : Option (Int × Mm) :=
  (m.vmm.findRange va size).bind fun cur =>
    match cur with
    | .error rc => some (rc, m)
    | .ok n => some (0, ⟨m.mmu.protectArea va size attrs, m.vmm.setAttrs n attrs⟩)

/-- `vmm_virt_to_phys`, with a place for the result; it succeeds always. -/
def vmmVirtToPhys (m : Mm) (va : Word) : Option Word :=
  (m.vmm.findLe va).map fun n =>
    match n with
    | none => va
    | some n =>
        let a := m.vmm.tree.val n
        if a.va ≤ va ∧ va < a.va + a.size then a.pa + (va - a.va) else va

end Mm

end Arcline
