import Arcline.Mm.VmaTree
import Arcline.Chain
import Arcline.Run

set_option autoImplicit false

/-! # The pool of area nodes

Between calls the 256 nodes of the pool are divided between the tree and the free list. The
invariant holds as long as no node is asked for while all 256 are in the tree: `vmm_init` fills the
free list without setting the `initialized` flag, so the first request on an empty list sets the
pool up a second time and hands out a node of the tree.
-/

namespace Arcline

open RbTree Linked Color

namespace Vmm

/-- The pool is set up: the tree is a red-black tree `t` ordered by start address, the free list
holds `free`, and each of the 256 nodes is in exactly one of the two. -/
structure Inv (v : Vmm) (t : Tree) (free : List Nat) : Prop where
  is : v.tree.Is t
  bal : ∃ m, t.Bal black m
  chain : Chain v.tree.left v.freeList free
  part : (t.ids ++ free).Perm (List.range vmaPoolCap)
  sorted : t.ids.Pairwise fun i j => (v.tree.val i).va ≤ (v.tree.val j).va
  fresh : v.initialized = false

variable {v : Vmm} {t : Tree} {free : List Nat} {n : Nat}

theorem Inv.nodup (h : v.Inv t free) : (t.ids ++ free).Nodup := h.part.nodup_iff.mpr List.nodup_range

theorem Inv.length (h : v.Inv t free) : t.ids.length + free.length = vmaPoolCap := by
  rw [← List.length_append, h.part.length_eq, List.length_range]

theorem Inv.steps (h : v.Inv t free) : t.ids.length < vmaSteps := by
  have := h.length
  simp only [vmaPoolCap, vmaSteps] at this ⊢
  omega

theorem Inv.root (h : v.Inv t free) : v.tree.root = t.ptr := h.is.around

/-! ## Setting up the pool -/

/-- Setting up the pool writes `left` pointers and the head of the free list, nothing else. -/
theorem initPoolLoop_tree (v : Vmm) (n i : Nat) :
    ∃ left, (v.initPoolLoop n i).tree = { v.tree with left := left } ∧
      (v.initPoolLoop n i).initialized = v.initialized := by
  induction n generalizing v i with
  | zero => exact ⟨v.tree.left, rfl, rfl⟩
  | succ n ih =>
      obtain ⟨left, h, hi⟩ :=
        ih { v with tree := v.tree.setLeft i v.freeList, freeList := some i } (i + 1)
      exact ⟨left, h, hi⟩

theorem initPoolLoop_chain {i : Nat} {l : List Nat} (hc : Chain v.tree.left v.freeList l)
    (hl : ∀ x ∈ l, x < i) :
    Chain (v.initPoolLoop n i).tree.left (v.initPoolLoop n i).freeList
      ((List.range' i n).reverse ++ l) := by
  induction n generalizing v i l with
  | zero => simpa [initPoolLoop] using hc
  | succ n ih =>
      have hi : i ∉ l := fun h => absurd (hl i h) (by omega)
      have hpush := ih (v := { v with tree := v.tree.setLeft i v.freeList, freeList := some i })
        (i := i + 1) (hc.push hi) (by
          intro x hx
          rcases List.mem_cons.mp hx with rfl | hx
          · omega
          · have := hl x hx; omega)
      rw [List.range'_succ, List.reverse_cons, List.append_assoc]
      exact hpush

/-- The zeroed statics of the manager. -/
def boot : Vmm where
  tree := ⟨fun _ => none, fun _ => none, fun _ => none, fun _ => .red, fun _ => ⟨0, 0, 0, 0⟩, none⟩
  freeList := none
  initialized := false

theorem inv_initVmaPool (hroot : v.tree.root = none) (hfree : v.freeList = none)
    (hi : v.initialized = false) : v.initVmaPool.Inv .nil (List.range vmaPoolCap).reverse := by
  obtain ⟨left, htree, hinit⟩ := initPoolLoop_tree v vmaPoolCap 0
  have hchain : Chain v.initVmaPool.tree.left v.initVmaPool.freeList
      (List.range vmaPoolCap).reverse := by
    have := initPoolLoop_chain (n := vmaPoolCap) (i := 0) (l := []) (chain_nil.mpr hfree) (by simp)
    rwa [List.append_nil, ← List.range_eq_range'] at this
  refine ⟨⟨?_, trivial, List.nodup_nil⟩, ⟨_, .nil⟩, hchain, ?_, List.Pairwise.nil, ?_⟩
  · rw [initVmaPool, htree]
    exact hroot
  · rw [Tree.ids_nil, List.nil_append]
    exact List.reverse_perm _
  · rw [initVmaPool, hinit, hi]

theorem inv_init : boot.init.Inv .nil (List.range vmaPoolCap).reverse :=
  inv_initVmaPool rfl rfl rfl

/-! ## Taking and returning a node -/

theorem vmaAllocNode_of_some (h : v.freeList = some n) : v.vmaAllocNode = (some n, v.popNode n) := by
  simp [vmaAllocNode, h]

/-- With an empty free list and the flag still clear, the pool is set up again and its last node
handed out, whatever the tree holds. -/
theorem vmaAllocNode_of_none (h : v.freeList = none) (hi : v.initialized = false) :
    v.vmaAllocNode.1 = some (vmaPoolCap - 1) := by
  have hfree : v.initVmaPool.freeList = some (vmaPoolCap - 1) := by
    obtain ⟨k, hk⟩ : ∃ k, vmaPoolCap = k + 1 := ⟨255, by simp [vmaPoolCap]⟩
    have hc := initPoolLoop_chain (v := v) (n := k + 1) (i := 0) (l := []) h (by simp)
    rw [List.append_nil, ← List.range_eq_range', List.range_succ, List.reverse_append] at hc
    rw [initVmaPool, hk]
    exact hc.1
  simp [vmaAllocNode, h, hi, hfree]

theorem Inv.notMem (h : v.Inv t (n :: free)) : n ∉ t.ids ∧ n ∉ free := by
  have := h.nodup
  simp only [List.nodup_append, List.nodup_cons, List.mem_cons] at this
  exact ⟨fun hn => this.2.2 n hn n (.inl rfl) rfl, this.2.1.1⟩

theorem Inv.valid (h : v.Inv t free) : Valid v.tree t :=
  ⟨h.is, h.bal, h.sorted⟩

theorem Inv.cuts_lt (h : v.Inv t free) (va : Word) :
    Rb.Cuts (fun n => va < (v.tree.val n).va) t.ids := h.valid.cuts va

theorem Inv.cuts_le (h : v.Inv t free) (va : Word) :
    Rb.Cuts (fun n => va ≤ (v.tree.val n).va) t.ids := by
  refine h.sorted.imp ?_
  intro i j hij hi
  simp only [decide_eq_true_eq] at hi ⊢
  bv_omega

/-- **Taking a node.** The first free node goes into the tree, at its place in the order. -/
theorem Inv.insertNode (h : v.Inv t (n :: free)) (a : Vma) :
    ∃ v' t', (v.popNode n).insertNode n a = some v' ∧ v'.Inv t' free ∧
      t'.ids = t.ids.filter (fun i => !decide (a.va < (v.tree.val i).va)) ++
        n :: t.ids.filter (fun i => a.va < (v.tree.val i).va) ∧
      v'.tree.val = Function.update v.tree.val n a := by
  obtain ⟨hnt, hnf⟩ := h.notMem
  have hvalid : Valid (v.popNode n).tree t := by
    refine ⟨h.is.congr rfl fun i hi => ?_, h.bal, h.sorted⟩
    have hin : i ≠ n := fun e => hnt (e ▸ hi)
    simp [popNode, Rb.SameNode, Function.update_of_ne hin]
  obtain ⟨s', t', hs', hvalid', hids, hval, honly⟩ := hvalid.linkVma hnt a h.steps
  have hperm : t'.ids.Perm (n :: t.ids) := by
    rw [hids]
    exact perm_insertedIds _ t.ids n a.va
  have hfree : ∀ x ∈ free, s'.left x = v.tree.left x := by
    intro x hx
    have hxn : x ≠ n := fun e => hnf (e ▸ hx)
    have hxt : x ∉ t'.ids := by
      rw [hperm.mem_iff, List.mem_cons, not_or]
      refine ⟨hxn, fun hxt => ?_⟩
      exact (List.nodup_append.mp h.nodup).2.2 x hxt x (by simp [hx]) rfl
    rw [(honly.node x hxt).1]
    simp [popNode, Function.update_of_ne hxn]
  refine ⟨{ v.popNode n with tree := s' }, t', ?_,
    ⟨hvalid'.is, hvalid'.bal, ?_, ?_, hvalid'.sorted, h.fresh⟩, hids, hval⟩
  · rw [insertNode_eq, hs']
    rfl
  · exact h.chain.2.congr hfree
  · exact ((hperm.append_right free).trans List.perm_middle.symm).trans h.part

/-- **Returning a node.** A node of the tree goes back to the front of the free list. -/
theorem Inv.deleteNode (h : v.Inv t free) (hn : n ∈ t.ids) :
    ∃ v' t', v.rbDelete n = some v' ∧ (v'.vmaFreeNode n).Inv t' (n :: free) ∧
      t'.ids = t.ids.erase n ∧ v'.tree.val = v.tree.val := by
  obtain ⟨s', t', hs', hvalid, hids, hval, honly⟩ := h.valid.deleteVma hn h.steps
  have hnt : n ∉ t'.ids := by
    rw [hids]
    exact (h.is.nodup).not_mem_erase
  have hsub : ∀ i ∈ t'.ids, i ∈ t.ids := fun i hi => by
    rw [hids] at hi
    exact List.mem_of_mem_erase hi
  have hdisj := (List.nodup_append.mp h.nodup).2.2
  have hnf : n ∉ free := fun hf => hdisj n hn n hf rfl
  have hfree : ∀ x ∈ free, s'.left x = v.tree.left x := by
    intro x hx
    refine (honly.node x fun hxt => ?_).1
    exact hdisj x (hsub x hxt) x hx rfl
  refine ⟨{ v with tree := s' }, t', ?_,
    ⟨?_, hvalid.bal, ?_, ?_, hvalid.sorted, h.fresh⟩, hids, hval⟩
  · rw [rbDelete_eq, hs']
    rfl
  · refine hvalid.is.congr rfl fun i hi => ?_
    have hin : i ≠ n := fun e => hnt (e ▸ hi)
    simp [vmaFreeNode, Rb.SameNode, Function.update_of_ne hin]
  · exact (h.chain.congr hfree).push hnf
  · refine List.Perm.trans ?_ h.part
    refine List.perm_middle.trans ?_
    rw [hids]
    exact (List.perm_cons_erase hn).symm.append_right free

/-- `vmm_protect` writes one field, on which nothing here depends. -/
theorem Inv.setAttrs (h : v.Inv t free) (n : Nat) (attrs : BitVec 32) :
    (v.setAttrs n attrs).Inv t free := by
  have hva : ∀ i, (Function.update v.tree.val n { v.tree.val n with attrs := attrs } i).va
      = (v.tree.val i).va := by
    intro i
    by_cases hin : i = n
    · subst hin
      rw [Function.update_self]
    · rw [Function.update_of_ne hin]
  refine ⟨h.is.congr rfl fun i _ => ⟨rfl, rfl, rfl, rfl⟩, h.bal, h.chain, h.part, ?_, h.fresh⟩
  simp only [Vmm.setAttrs, Rb.setVal_val, hva]
  exact h.sorted

/-! ## The searches -/

theorem Inv.findLe (h : v.Inv t free) (va : Word) :
    v.findLe va = some (t.ids.filter fun i => !decide (va < (v.tree.val i).va)).getLast? := by
  rw [Vmm.findLe, h.root, Rb.lastRight_spec h.is.rep (h.cuts_lt va) h.steps, Option.or_none]

theorem Inv.findGe (h : v.Inv t free) (va : Word) :
    v.findGe va = some (t.ids.filter fun i => va ≤ (v.tree.val i).va).head? := by
  rw [Vmm.findGe, h.root, Rb.lastLeft_spec h.is.rep (h.cuts_le va) h.steps, Option.or_none]

theorem Inv.findExact (h : v.Inv t free) (va : Word) :
    ∃ r, v.findExact va = some r ∧ ∀ n, r = some n → n ∈ t.ids ∧ (v.tree.val n).va = va := by
  obtain ⟨r, hr, hmem⟩ := Rb.findNode_mem h.is.rep h.steps
  refine ⟨r, by rw [Vmm.findExact, h.root]; exact hr, fun n hn => ?_⟩
  obtain ⟨hn, hlt, hgt⟩ := hmem n hn
  simp only [decide_eq_false_iff_not] at hlt hgt
  exact ⟨hn, by bv_omega⟩

theorem Inv.findRange (h : v.Inv t free) (va size : Word) :
    ∃ cur, v.findRange va size = some cur ∧ ∀ n, cur = .ok n → n ∈ t.ids := by
  obtain ⟨r, hr, hmem⟩ := h.findExact va
  rw [Vmm.findRange, hr]
  split
  · exact ⟨_, rfl, by simp⟩
  · split
    · exact ⟨_, rfl, by simp⟩
    · cases r with
      | none => exact ⟨_, rfl, by simp⟩
      | some n =>
          refine ⟨_, rfl, fun k hk => ?_⟩
          simp only at hk
          split at hk
          · cases hk
          · cases hk
            exact (hmem n rfl).1

/-- The checks of `vmm_map` come to an end. -/
theorem Inv.mapChecks (h : v.Inv t free) (va pa size : Word) :
    ∃ rc, v.mapChecks va pa size = some rc := by
  rw [Vmm.mapChecks, h.findLe, h.findGe]
  simp only [Option.bind_some]
  split
  · exact ⟨_, rfl⟩
  · split
    · exact ⟨_, rfl⟩
    · split
      · exact ⟨_, rfl⟩
      · split <;> exact ⟨_, rfl⟩

end Vmm

/-! ## Runs of calls -/

inductive VmmOp
  | map (va pa size : Word) (attrs : BitVec 32)
  | unmap (va size : Word)
  | protect (va size : Word) (attrs : BitVec 32)
  | virtToPhys (va : Word)

/-- What a call gives back: a return code, or the address `vmm_virt_to_phys` stores. -/
inductive VmmResult
  | rc (r : Int)
  | phys (pa : Word)
deriving DecidableEq, Repr

namespace Mm

def call (m : Mm) : VmmOp → Option (VmmResult × Mm)
  | .map va pa size attrs => (m.vmmMap va pa size attrs).map fun r => (.rc r.1, r.2)
  | .unmap va size => (m.vmmUnmap va size).map fun r => (.rc r.1, r.2)
  | .protect va size attrs => (m.vmmProtect va size attrs).map fun r => (.rc r.1, r.2)
  | .virtToPhys va => (m.vmmVirtToPhys va).map fun pa => (.phys pa, m)

def step (m : Mm) (op : VmmOp) : Option Mm := (m.call op).map Prod.snd

/-- A `vmm_map` that passes its checks finds a pool node that is not in the tree; in other words,
fewer than 256 areas are live. -/
def Room (m : Mm) : VmmOp → Prop
  | .map va pa size _ =>
      m.vmm.mapChecks va pa size = some 0 → ∃ n < vmaPoolCap, ¬ m.vmm.tree.InTree n
  | _ => True

end Mm

namespace Vmm

/-- Under the invariant the free list is empty exactly when all nodes are in the tree. -/
theorem Inv.free_ne_nil {v : Vmm} {t : Tree} {free : List Nat} (h : v.Inv t free) :
    free ≠ [] ↔ ∃ n < vmaPoolCap, ¬ v.tree.InTree n := by
  constructor
  · intro hne
    obtain ⟨n, free', rfl⟩ := List.exists_cons_of_ne_nil hne
    have hn : n ∈ List.range vmaPoolCap := h.part.mem_iff.mp (by simp)
    exact ⟨n, List.mem_range.mp hn, fun hin => h.notMem.1 (h.is.inTree_iff.mp hin)⟩
  · rintro ⟨n, hn, hnot⟩ rfl
    have : n ∈ t.ids ++ [] := h.part.mem_iff.mpr (List.mem_range.mpr hn)
    rw [List.append_nil] at this
    exact hnot (h.is.inTree_iff.mpr this)

end Vmm

namespace Mm

/-! What each call does, given what its checks and its search find. -/

variable {m : Mm} {va size : Word} {rc : Int} {t : Tree} {n : Nat} {free : List Nat}

theorem vmmMap_reject {pa : Word} (attrs : BitVec 32) (h : m.vmm.mapChecks va pa size = some rc)
    (hrc : rc ≠ 0) : m.vmmMap va pa size attrs = some (rc, m) := by
  simp [vmmMap, h, hrc]

theorem vmmMap_accept (hinv : m.vmm.Inv t (n :: free)) {pa : Word} (attrs : BitVec 32)
    (h : m.vmm.mapChecks va pa size = some 0) :
    ∃ m' t', m.vmmMap va pa size attrs = some (0, m') ∧ m'.vmm.Inv t' free ∧
      t'.ids = t.ids.filter (fun i => !decide (va < (m.vmm.tree.val i).va)) ++
        n :: t.ids.filter (fun i => va < (m.vmm.tree.val i).va) ∧
      m'.vmm.tree.val = Function.update m.vmm.tree.val n ⟨va, pa, size, attrs⟩ ∧
      m'.mmu = m.mmu.mapArea va pa size attrs := by
  obtain ⟨v', t', hv', hinv', hids, hval⟩ := hinv.insertNode ⟨va, pa, size, attrs⟩
  refine ⟨⟨m.mmu.mapArea va pa size attrs, v'⟩, t', ?_, hinv', hids, hval, rfl⟩
  simp only [vmmMap, h, Option.bind_some, ne_eq, not_true_eq_false, if_false,
    Vmm.vmaAllocNode_of_some hinv.chain.1, hv', Option.map_some]

theorem vmmUnmap_reject (h : m.vmm.findRange va size = some (.error rc)) :
    m.vmmUnmap va size = some (rc, m) := by
  simp [vmmUnmap, h]

theorem vmmUnmap_accept (hinv : m.vmm.Inv t free) (h : m.vmm.findRange va size = some (.ok n))
    (hn : n ∈ t.ids) :
    ∃ m' t', m.vmmUnmap va size = some (0, m') ∧ m'.vmm.Inv t' (n :: free) ∧
      t'.ids = t.ids.erase n ∧ m'.vmm.tree.val = m.vmm.tree.val := by
  obtain ⟨v', t', hv', hinv', hids, hval⟩ := hinv.deleteNode hn
  refine ⟨⟨m.mmu.unmapArea va size, v'.vmaFreeNode n⟩, t', ?_, hinv', hids, hval⟩
  simp only [vmmUnmap, h, Option.bind_some, hv', Option.map_some]

theorem vmmProtect_reject (attrs : BitVec 32) (h : m.vmm.findRange va size = some (.error rc)) :
    m.vmmProtect va size attrs = some (rc, m) := by
  simp [vmmProtect, h]

theorem vmmProtect_accept (hinv : m.vmm.Inv t free) (attrs : BitVec 32)
    (h : m.vmm.findRange va size = some (.ok n)) :
    ∃ m', m.vmmProtect va size attrs = some (0, m') ∧ m'.vmm.Inv t free ∧
      m'.vmm.tree.val =
        Function.update m.vmm.tree.val n { m.vmm.tree.val n with attrs := attrs } :=
  ⟨⟨m.mmu.protectArea va size attrs, m.vmm.setAttrs n attrs⟩,
    by simp only [vmmProtect, h, Option.bind_some], hinv.setAttrs n attrs, rfl⟩

/-- A call that finds room returns and keeps the invariant. -/
theorem call_inv (h : m.vmm.Inv t free) {op : VmmOp} (hroom : m.Room op) :
    ∃ r m', m.call op = some (r, m') ∧ ∃ t' free', m'.vmm.Inv t' free' := by
  cases op with
  | map va pa size attrs =>
      obtain ⟨rc, hrc⟩ := h.mapChecks va pa size
      by_cases hz : rc = 0
      · subst hz
        obtain ⟨n, free', rfl⟩ := List.exists_cons_of_ne_nil (h.free_ne_nil.mpr (hroom hrc))
        obtain ⟨m', t', hm', hinv, -⟩ := vmmMap_accept h attrs hrc
        exact ⟨.rc 0, m', by simp [call, hm'], t', free', hinv⟩
      · exact ⟨.rc rc, m, by simp [call, vmmMap_reject attrs hrc hz], t, free, h⟩
  | unmap va size =>
      obtain ⟨cur, hcur, hmem⟩ := h.findRange va size
      cases cur with
      | error rc => exact ⟨.rc rc, m, by simp [call, vmmUnmap_reject hcur], t, free, h⟩
      | ok n =>
          obtain ⟨m', t', hm', hinv, -⟩ := vmmUnmap_accept h hcur (hmem n rfl)
          exact ⟨.rc 0, m', by simp [call, hm'], t', n :: free, hinv⟩
  | protect va size attrs =>
      obtain ⟨cur, hcur, -⟩ := h.findRange va size
      cases cur with
      | error rc => exact ⟨.rc rc, m, by simp [call, vmmProtect_reject attrs hcur], t, free, h⟩
      | ok n =>
          obtain ⟨m', hm', hinv, -⟩ := vmmProtect_accept h attrs hcur
          exact ⟨.rc 0, m', by simp [call, hm'], t, free, hinv⟩
  | virtToPhys va =>
      obtain ⟨pa, hpa⟩ : ∃ pa, m.vmmVirtToPhys va = some pa := by
        rw [vmmVirtToPhys, h.findLe, Option.map_some]
        exact ⟨_, rfl⟩
      exact ⟨.phys pa, m, by simp [call, hpa], t, free, h⟩

end Mm

/-- The 256 pool nodes are divided between the tree and the free list: each is in exactly one of
them. -/
def Vmm.Partitioned (v : Vmm) : Prop :=
  ∃ free, Chain v.tree.left v.freeList free ∧ free.Nodup ∧
    (∀ n, v.tree.InTree n ∨ n ∈ free ↔ n < vmaPoolCap) ∧ ∀ n ∈ free, ¬ v.tree.InTree n

theorem Vmm.Inv.partitioned {v : Vmm} {t : Tree} {free : List Nat} (h : v.Inv t free) :
    v.Partitioned := by
  obtain ⟨-, hfree, hdisj⟩ := List.nodup_append.mp h.nodup
  refine ⟨free, h.chain, hfree, fun n => ?_, fun n hn hin => ?_⟩
  · rw [h.is.inTree_iff, ← List.mem_append, h.part.mem_iff, List.mem_range]
  · exact hdisj n (h.is.inTree_iff.mp hin) n hn rfl

namespace Mm

/-- The manager as `vmm_init` leaves it at boot. -/
def booted (mmu : Mmu) : Mm := vmmInit ⟨mmu, Vmm.boot⟩

theorem inv_booted (mmu : Mmu) :
    (booted mmu).vmm.Inv .nil (List.range vmaPoolCap).reverse := by
  exact Vmm.inv_init

theorem inv_of_reach {mmu : Mmu} {m : Mm} (h : Machine.Reach step Room (booted mmu) m) :
    ∃ t free, m.vmm.Inv t free := by
  refine h.invariant (P := fun m => ∃ t free, m.vmm.Inv t free) ⟨_, _, inv_booted mmu⟩ ?_
  rintro m op m' ⟨t, free, hinv⟩ hroom hstep
  obtain ⟨rc, m'', hcall, hinv'⟩ := call_inv hinv hroom
  rw [step, hcall, Option.map_some, Option.some.injEq] at hstep
  exact hstep ▸ hinv'

/-- **The pool of area nodes.** In every state reached by calls that find room, the nodes are divided
between the tree and the free list and every further such call returns; a call that passes its checks
gets a node that is not in the tree exactly when it finds room. -/
theorem vma_pool_partitioned {mmu : Mmu} {m : Mm}
    (h : Machine.Reach step Room (booted mmu) m) :
    m.vmm.Partitioned ∧ (∀ op, m.Room op → ∃ m', m.step op = some m') ∧
      ∀ va pa size, m.vmm.mapChecks va pa size = some 0 →
        ((∀ n, m.vmm.vmaAllocNode.1 = some n → ¬ m.vmm.tree.InTree n) ↔
          ∃ n < vmaPoolCap, ¬ m.vmm.tree.InTree n) := by
  obtain ⟨t, free, hinv⟩ := inv_of_reach h
  refine ⟨hinv.partitioned, fun op hroom => ?_, fun va pa size _ => ?_⟩
  · obtain ⟨rc, m', hcall, -⟩ := call_inv hinv hroom
    exact ⟨m', by rw [step, hcall, Option.map_some]⟩
  · rw [← hinv.free_ne_nil]
    cases free with
    | nil =>
        -- the pool is set up again, and its last node is in the tree
        have hlast : m.vmm.tree.InTree (vmaPoolCap - 1) := by
          rw [hinv.is.inTree_iff, ← List.append_nil t.ids, hinv.part.mem_iff, List.mem_range]
          simp [vmaPoolCap]
        simp only [ne_eq, not_true_eq_false, iff_false, not_forall, not_not]
        have halloc := Vmm.vmaAllocNode_of_none (chain_nil.mp hinv.chain) hinv.fresh
        exact ⟨vmaPoolCap - 1, halloc, hlast⟩
    | cons n free =>
        simp only [ne_eq, reduceCtorEq, not_false_eq_true, iff_true,
          Vmm.vmaAllocNode_of_some hinv.chain.1, Option.some.injEq]
        rintro _ rfl
        exact fun hin => hinv.notMem.1 (hinv.is.inTree_iff.mp hin)

/-! ## Filling the pool -/

/-- The `i`-th of a row of one-page areas. -/
def rowVma (i : Nat) : Vma := ⟨BitVec.ofNat 64 (i * 4096), 0, 4096, 0⟩

def rowOp (i : Nat) : VmmOp := .map (rowVma i).va (rowVma i).pa (rowVma i).size (rowVma i).attrs

theorem mapChecks_row {v : Vmm} {t : Tree} {free : List Nat} (h : v.Inv t free) {k : Nat}
    (hk : k ≤ vmaPoolCap) (hval : ∀ n ∈ t.ids, ∃ i < k, v.tree.val n = rowVma i) :
    v.mapChecks (rowVma k).va (rowVma k).pa (rowVma k).size = some 0 := by
  simp only [vmaPoolCap] at hk
  have hno : ∀ n ∈ t.ids, v.overlaps (some n) (rowVma k).va (rowVma k).size = false := by
    intro n hn
    obtain ⟨i, hi, hv⟩ := hval n hn
    have hle : (rowVma i).va + (rowVma i).size ≤ (rowVma k).va := by
      simp only [rowVma, BitVec.le_def, BitVec.toNat_add, BitVec.toNat_ofNat,
        show (4096 : Word).toNat = 4096 from rfl]
      omega
    simp [Vmm.overlaps, hv, hle]
  have hpred : ∀ o : Option Nat, (∀ n, o = some n → n ∈ t.ids) →
      v.overlaps o (rowVma k).va (rowVma k).size = false := by
    intro o ho
    cases o with
    | none => rfl
    | some n => exact hno n (ho n rfl)
  have halign : pageOffset (rowVma k).va = 0 := by
    rw [pageOffset_eq_zero]
    simp only [rowVma, BitVec.toNat_ofNat]
    omega
  have hsize : (rowVma k).size = 4096 := rfl
  have hpa : (rowVma k).pa = 0 := rfl
  rw [Vmm.mapChecks, h.findLe, h.findGe, Option.bind_some, Option.bind_some,
    hpred _ fun n hn => (List.mem_filter.mp (List.mem_of_getLast? hn)).1,
    hpred _ fun n hn => (List.mem_filter.mp (List.mem_of_head? hn)).1, halign, hsize, hpa]
  decide

/-- Mapping the row one page after the other fills the pool, with no call short of room. -/
theorem fill {mmu : Mmu} (hmmu : mmu.ttbr1 = 0) {k : Nat} (hk : k ≤ vmaPoolCap) :
    ∃ m t free, Machine.Reach step Room (booted mmu) m ∧ m.mmu = mmu ∧ m.vmm.Inv t free ∧
      t.ids.length = k ∧ ∀ n ∈ t.ids, ∃ i < k, m.vmm.tree.val n = rowVma i := by
  induction k with
  | zero => exact ⟨_, _, _, .start, rfl, inv_booted mmu, rfl, by simp⟩
  | succ k ih =>
      obtain ⟨m, t, free, hreach, hm, hinv, hlen, hval⟩ := ih (by omega)
      have hchecks := mapChecks_row hinv (by omega) hval
      have hne : free ≠ [] := by
        rintro rfl
        have := hinv.length
        simp only [List.length_nil] at this
        omega
      obtain ⟨n, free', rfl⟩ := List.exists_cons_of_ne_nil hne
      obtain ⟨m', t', hm', hinv', hids, hval', hmmu'⟩ :=
        vmmMap_accept hinv (rowVma k).attrs hchecks
      have hstep : m.step (rowOp k) = some m' := by
        simp [step, call, rowOp, hm']
      refine ⟨m', t', free', .next (rowOp k) hreach ?_ hstep, ?_, hinv', ?_, ?_⟩
      · exact fun _ => hinv.free_ne_nil.mp hne
      · rw [hmmu', hm, Mmu.mapArea, if_pos hmmu]
      · have h1 := hinv.length
        have h2 := hinv'.length
        simp only [List.length_cons] at h1
        omega
      · intro j hj
        rw [hval']
        by_cases hjn : j = n
        · exact ⟨k, by omega, by rw [hjn, Function.update_self]⟩
        · rw [hids] at hj
          have hjt : j ∈ t.ids := by
            simp only [List.mem_append, List.mem_filter, List.mem_cons] at hj
            rcases hj with hj | hj | hj
            · exact hj.1
            · exact absurd hj hjn
            · exact hj.1
          obtain ⟨i, hi, hv⟩ := hval j hjt
          exact ⟨i, by omega, by rw [Function.update_of_ne hjn, hv]⟩

/-- Page tables not set up. -/
def mmuOff : Mmu := ⟨⟨fun _ => true, 0, 0, 0, 0⟩, fun _ => 0, 0, 0, 0, 0, []⟩

theorem vma_pool_partitioned_row :
    ∃ m, Machine.Reach step Room (booted mmuOff) m ∧ (∃ n, m.vmm.tree.InTree n) ∧
      m.vmm.Partitioned := by
  obtain ⟨m, t, free, hreach, -, hinv, hlen, -⟩ := fill (show mmuOff.ttbr1 = 0 from rfl)
    (show 200 ≤ vmaPoolCap by simp [vmaPoolCap])
  refine ⟨m, hreach, ?_, (vma_pool_partitioned hreach).1⟩
  obtain ⟨n, hn⟩ := List.exists_mem_of_length_pos (show 0 < t.ids.length by omega)
  exact ⟨n, hinv.is.inTree_iff.mpr hn⟩

/-- With 256 areas live, a further `vmm_map` that passes its checks gets a node of the tree, and it
does not report that the pool is exhausted. -/
theorem vma_node_handed_out_twice :
    ∃ m n, Machine.Reach step (fun _ _ => True) (booted mmuOff) m ∧
      m.vmm.mapChecks (rowVma 256).va (rowVma 256).pa (rowVma 256).size = some 0 ∧
      m.vmm.vmaAllocNode.1 = some n ∧ m.vmm.tree.InTree n ∧
      ∀ r m', m.call (rowOp 256) = some (r, m') → r = .rc 0 := by
  obtain ⟨m, t, free, hreach, -, hinv, hlen, hval⟩ := fill
    (show mmuOff.ttbr1 = 0 from rfl) (le_refl vmaPoolCap)
  have hcap : vmaPoolCap = 256 := by simp [vmaPoolCap]
  have hfree : free = [] := by
    have := hinv.length
    exact List.eq_nil_of_length_eq_zero (by omega)
  subst hfree
  have hchecks := mapChecks_row hinv (le_refl _) hval
  rw [hcap] at hchecks
  have halloc := Vmm.vmaAllocNode_of_none (chain_nil.mp hinv.chain) hinv.fresh
  refine ⟨m, vmaPoolCap - 1, hreach.mono (fun _ _ _ => trivial), hchecks, halloc, ?_, ?_⟩
  · rw [hinv.is.inTree_iff, ← List.append_nil t.ids, hinv.part.mem_iff, List.mem_range]
    omega
  · intro r m' hcall
    have hv : m.vmm.vmaAllocNode = (some (vmaPoolCap - 1), m.vmm.vmaAllocNode.2) := by
      rw [← halloc]
    rw [rowOp, call.eq_def] at hcall
    simp only [vmmMap, hchecks, Option.bind_some] at hcall
    rw [hv] at hcall
    simp only [ne_eq, not_true_eq_false, if_false, Option.map_map, Option.map_eq_some_iff,
      Function.comp_apply, Prod.mk.injEq] at hcall
    obtain ⟨_, -, hr, -⟩ := hcall
    exact hr.symm

end Mm

end Arcline
