import Arcline.Mm.Vmm

set_option autoImplicit false

/-! # The tree of areas

`vmm_map` links a node at its search position and runs `insert_fixup`, `vmm_unmap` takes one out with
`rb_delete`. Both keep a red-black tree whose nodes stand in the order of their start addresses, for trees
of any size: the number of steps given to the loops only has to exceed the number of nodes. A rotation
has no result where the child that it should raise is missing, so a result says that there was none.
-/

namespace Arcline

open RbTree Color

namespace Vmm

/-- The links form the red-black tree `t`, and its nodes are in the order of their start addresses. -/
structure Valid (s : Rb Vma) (t : Tree) : Prop where
  is : s.Is t
  bal : ∃ m, t.Bal black m
  sorted : t.ids.Pairwise fun i j => (s.val i).va ≤ (s.val j).va

/-- The part of `vmm_map` that fills the node `n`, links it and repairs the colours. -/
def linkVma (fuel : Nat) (s : Rb Vma) (n : Nat) (a : Vma) : Option (Rb Vma) :=
  (s.setVal n a).rbInsert (fun p => a.va < ((s.setVal n a).val p).va) Rb.rotateLeft Rb.rotateRightL
    fuel n

/-- `rb_delete`. -/
def deleteVma (fuel : Nat) (s : Rb Vma) (z : Nat) : Option (Rb Vma) :=
  s.rbDelete Rb.rotateLeft Rb.rotateRightL (fun s _ => some (s, true)) fuel z

theorem insertNode_eq (v : Vmm) (n : Nat) (a : Vma) :
    v.insertNode n a = (linkVma vmaSteps v.tree n a).map fun tree => { v with tree := tree } := rfl

theorem rbDelete_eq (v : Vmm) (n : Nat) :
    v.rbDelete n = (deleteVma vmaSteps v.tree n).map fun tree => { v with tree := tree } := rfl

variable {s : Rb Vma} {t : Tree} {n : Nat}

/-- Starts at or below `va` come first in the tree, those above it after them. -/
theorem Valid.cuts (h : Valid s t) (va : Word) : Rb.Cuts (fun i => va < (s.val i).va) t.ids := by
  refine h.sorted.imp ?_
  intro i j hij hi
  simp only [decide_eq_true_eq] at hi ⊢
  bv_omega

/-- The in-order sequence with the node `n`, which starts at `va`, behind all nodes that start at or
below `va`. -/
def insertedIds (s : Rb Vma) (l : List Nat) (n : Nat) (va : Word) : List Nat :=
  l.filter (fun i => !decide (va < (s.val i).va)) ++ n :: l.filter (fun i => va < (s.val i).va)

theorem perm_insertedIds (s : Rb Vma) (l : List Nat) (n : Nat) (va : Word) :
    (insertedIds s l n va).Perm (n :: l) := by
  refine List.perm_middle.trans (List.Perm.cons n ?_)
  refine List.perm_append_comm.trans ?_
  exact List.filter_append_perm (fun i => decide (va < (s.val i).va)) l

/-- The new start stands between the smaller and the greater ones. -/
theorem sorted_insertedIds {l : List Nat} {a : Vma} {val : Nat → Vma}
    (hsorted : l.Pairwise fun i j => (s.val i).va ≤ (s.val j).va) (hval : ∀ i ∈ l, val i = s.val i)
    (hn : val n = a) :
    (insertedIds s l n a.va).Pairwise fun i j => (val i).va ≤ (val j).va := by
  have hold : l.Pairwise fun i j => (val i).va ≤ (val j).va := by
    refine hsorted.imp_of_mem ?_
    intro i j hi hj hij
    rwa [hval i hi, hval j hj]
  rw [insertedIds, List.pairwise_append, List.pairwise_cons]
  refine ⟨hold.filter _, ⟨?_, hold.filter _⟩, ?_⟩
  · intro j hj
    obtain ⟨hj, hlt⟩ := List.mem_filter.mp hj
    rw [hn, hval j hj]
    simp only [decide_eq_true_eq] at hlt
    bv_omega
  · intro i hi j hj
    obtain ⟨hi, hle⟩ := List.mem_filter.mp hi
    simp only [Bool.not_eq_true', decide_eq_false_iff_not] at hle
    rw [hval i hi]
    rcases List.mem_cons.mp hj with rfl | hj
    · rw [hn]
      bv_omega
    · obtain ⟨hj, hlt⟩ := List.mem_filter.mp hj
      simp only [decide_eq_true_eq] at hlt
      rw [hval j hj]
      bv_omega

theorem Valid.linkVma (h : Valid s t) (hn : n ∉ t.ids) (a : Vma) {fuel : Nat}
    (hfuel : t.ids.length < fuel) :
    ∃ s' t', linkVma fuel s n a = some s' ∧ Valid s' t' ∧ t'.ids = insertedIds s t.ids n a.va ∧
      s'.val = Function.update s.val n a ∧ Rb.Only t'.ids (s.setVal n a) s' := by
  have hval : ∀ i ∈ t.ids, Function.update s.val n a i = s.val i := by
    intro i hi
    exact Function.update_of_ne (fun e : i = n => hn (e ▸ hi)) _ _
  have his : (s.setVal n a).Is t := h.is.congr rfl fun i _ => ⟨rfl, rfl, rfl, rfl⟩
  have hcut : Rb.Cuts (fun p => a.va < ((s.setVal n a).val p).va) t.ids := by
    refine (h.cuts a.va).imp_of_mem ?_
    intro i j hi hj hij
    show decide (a.va < (Function.update s.val n a i).va) = true → _
    rw [hval i hi]
    show _ → decide (a.va < (Function.update s.val n a j).va) = true
    rwa [hval j hj]
  obtain ⟨m, hbal⟩ := h.bal
  obtain ⟨s', t', hs', his', hids, hbal', honly⟩ := Rb.rbInsert_spec Rb.isRotateLeft_rotateLeft
    Rb.isRotateRight_rotateRightL his hbal hcut hn hfuel
  have hids' : t'.ids = insertedIds s t.ids n a.va := by
    rw [hids, insertedIds]
    congr 1
    · refine List.filter_congr fun i hi => ?_
      show (!decide (a.va < (Function.update s.val n a i).va)) = _
      rw [hval i hi]
    · congr 1
      refine List.filter_congr fun i hi => ?_
      show decide (a.va < (Function.update s.val n a i).va) = _
      rw [hval i hi]
  have hval' : s'.val = Function.update s.val n a := honly.val
  refine ⟨s', t', hs', ⟨his', hbal', ?_⟩, hids', hval', honly⟩
  rw [hids', hval']
  exact sorted_insertedIds h.sorted hval (Function.update_self n a s.val)

theorem Valid.deleteVma (h : Valid s t) {z : Nat} (hz : z ∈ t.ids) {fuel : Nat}
    (hfuel : t.ids.length < fuel) :
    ∃ s' t', deleteVma fuel s z = some s' ∧ Valid s' t' ∧ t'.ids = t.ids.erase z ∧ s'.val = s.val ∧
      Rb.Only t'.ids s s' := by
  obtain ⟨m, hbal⟩ := h.bal
  obtain ⟨s', t', hs', his', hids, hbal', honly⟩ := Rb.rbDelete_spec (fun s _ => some (s, true))
    Rb.isRotateLeft_rotateLeft Rb.isRotateRight_rotateRightL h.is hbal hz hfuel
  refine ⟨s', t', hs', ⟨his', hbal', ?_⟩, hids, honly.val, honly⟩
  rw [honly.val, hids]
  exact h.sorted.sublist List.erase_sublist

/-- **Insertion and deletion keep a valid tree of areas**, whatever its size and shape: the in-order
sequence gains the node at its place, or loses it, and what the other nodes hold is untouched. -/
theorem vma_tree_kept (h : Valid s t) {fuel : Nat} (hfuel : t.ids.length < fuel) :
    (∀ n ∉ t.ids, ∀ a : Vma, ∃ s' t', linkVma fuel s n a = some s' ∧ Valid s' t' ∧
      t'.ids = insertedIds s t.ids n a.va ∧ s'.val = Function.update s.val n a) ∧
    (∀ z ∈ t.ids, ∃ s' t', deleteVma fuel s z = some s' ∧ Valid s' t' ∧ t'.ids = t.ids.erase z ∧
      ∀ i ∈ t'.ids, s'.val i = s.val i) := by
  constructor
  · intro n hn a
    obtain ⟨s', t', hs', hvalid, hids, hval, -⟩ := h.linkVma hn a hfuel
    exact ⟨s', t', hs', hvalid, hids, hval⟩
  · intro z hz
    obtain ⟨s', t', hs', hvalid, hids, hval, -⟩ := h.deleteVma hz hfuel
    exact ⟨s', t', hs', hvalid, hids, fun i _ => by rw [hval]⟩

/-- One area at 0, and one at a page behind it as its right child. -/
def twoAreas : Rb Vma where
  left _ := none
  right i := if i = 0 then some 1 else none
  parent i := if i = 1 then some 0 else none
  color i := if i = 0 then black else red
  val i := if i = 0 then ⟨0, 0, 4096, 0⟩ else ⟨4096, 0, 4096, 0⟩
  root := some 0

theorem valid_twoAreas : Valid twoAreas (.node black .nil 0 (.node red .nil 1 .nil)) where
  is := ⟨rfl, ⟨rfl, rfl, rfl, rfl, trivial, rfl, rfl, rfl, rfl, trivial, trivial⟩, by decide⟩
  bal := ⟨1, .black .nil (.red .nil .nil)⟩
  sorted := by decide

theorem vma_tree_kept_twoAreas :
    (∃ s' t', linkVma 3 twoAreas 2 ⟨8192, 0, 4096, 0⟩ = some s' ∧ Valid s' t' ∧ t'.ids = [0, 1, 2]) ∧
      ∃ s' t', deleteVma 3 twoAreas 0 = some s' ∧ Valid s' t' ∧ t'.ids = [1] := by
  obtain ⟨hinsert, hdelete⟩ := vma_tree_kept valid_twoAreas (show 2 < 3 by decide)
  constructor
  · obtain ⟨s', t', hs', hvalid, hids, -⟩ := hinsert 2 (by decide) ⟨8192, 0, 4096, 0⟩
    exact ⟨s', t', hs', hvalid, hids⟩
  · obtain ⟨s', t', hs', hvalid, hids, -⟩ := hdelete 0 (by decide)
    exact ⟨s', t', hs', hvalid, hids⟩

end Vmm

end Arcline
