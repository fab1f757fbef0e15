import Arcline.Mm.AddressSpace

set_option autoImplicit false

/-! # The virtual memory manager refines the address space

The tree stands for the set of the areas in its nodes. Besides the invariant of the pool, the areas
follow one another in the tree: each ends at or before the start of the next. That is what makes the
two neighbours `vmm_map` looks at enough to decide overlap.
-/

namespace Arcline

open RbTree

namespace Vmm

/-- The nodes of the tree hold exactly the areas of `A`, in increasing order. -/
structure Refines (v : Vmm) (t : Tree) (free : List Nat) (A : AddressSpace) : Prop where
  inv : v.Inv t free
  areas : ∀ a, a ∈ A.areas ↔ ∃ n ∈ t.ids, v.tree.val n = a
  ordered : t.ids.Pairwise fun i j => (v.tree.val i).stop ≤ (v.tree.val j).va.toNat

variable {v : Vmm} {t : Tree} {free : List Nat} {A : AddressSpace}

theorem Refines.mem (h : v.Refines t free A) {n : Nat} (hn : n ∈ t.ids) :
    v.tree.val n ∈ A.areas := (h.areas _).mpr ⟨n, hn, rfl⟩

theorem Refines.placed (h : v.Refines t free A) {n : Nat} (hn : n ∈ t.ids) :
    (v.tree.val n).Placed := A.placed _ (h.mem hn)

/-- Of two nodes one ends before the other starts. -/
theorem Refines.apart (h : v.Refines t free A) {i j : Nat} (hi : i ∈ t.ids) (hj : j ∈ t.ids)
    (hij : i ≠ j) : (v.tree.val i).stop ≤ (v.tree.val j).va.toNat ∨
      (v.tree.val j).stop ≤ (v.tree.val i).va.toNat := by
  have hsymm : Std.Symm fun i j => (v.tree.val i).stop ≤ (v.tree.val j).va.toNat ∨
      (v.tree.val j).stop ≤ (v.tree.val i).va.toNat := ⟨fun _ _ h => h.symm⟩
  have hpw : t.ids.Pairwise fun i j => (v.tree.val i).stop ≤ (v.tree.val j).va.toNat ∨
      (v.tree.val j).stop ≤ (v.tree.val i).va.toNat := h.ordered.imp fun hij => .inl hij
  exact hpw.forall hi hj hij

/-- A node is known by the start of its area. -/
theorem Refines.inj (h : v.Refines t free A) {i j : Nat} (hi : i ∈ t.ids) (hj : j ∈ t.ids)
    (hij : (v.tree.val i).va = (v.tree.val j).va) : i = j := by
  by_contra hne
  have h1 := (h.placed hi).lt_stop
  have h2 := (h.placed hj).lt_stop
  rw [hij] at h1
  rcases h.apart hi hj hne with h3 | h3
  · omega
  · rw [hij] at h3
    omega

/-- Without wrap-around `overlaps` decides what it says. -/
theorem Refines.overlaps_iff (h : v.Refines t free A) {n : Nat} (hn : n ∈ t.ids) {a : Vma}
    (ha : a.stop < 2 ^ 64) :
    v.overlaps (some n) a.va a.size = true ↔ (v.tree.val n).Overlaps a := by
  have hb := (h.placed hn).bound
  unfold Vma.stop at ha hb
  simp only [overlaps, Bool.not_eq_true', Bool.or_eq_false_iff, decide_eq_false_iff_not, BitVec.le_def,
    BitVec.toNat_add_of_lt ha, BitVec.toNat_add_of_lt hb, Vma.Overlaps, Vma.stop]
  omega

/-- The last element of a list is related to all others. -/
theorem rel_getLast {R : Nat → Nat → Prop} {l : List Nat} (h : l.Pairwise R) {p n : Nat}
    (hp : l.getLast? = some p) (hn : n ∈ l) : n = p ∨ R n p := by
  obtain ⟨l', rfl⟩ := List.getLast?_eq_some_iff.mp hp
  rw [List.mem_append, List.mem_singleton] at hn
  rcases hn with hn | hn
  · exact .inr ((List.pairwise_append.mp h).2.2 n hn p (by simp))
  · exact .inl hn

theorem rel_head {R : Nat → Nat → Prop} {l : List Nat} (h : l.Pairwise R) {p n : Nat}
    (hp : l.head? = some p) (hn : n ∈ l) : n = p ∨ R p n :=
  rel_getLast (List.pairwise_reverse.mpr h) (List.getLast?_reverse.trans hp) (List.mem_reverse.mpr hn)

/-! ## `vmm_map` -/

/-- **Two neighbours are enough.** An area overlaps some node exactly if it overlaps the node
`find_le` or the one `find_ge` gives. -/
theorem Refines.overlaps_neighbours (h : v.Refines t free A) {a : Vma} (hsize : a.size ≠ 0)
    (ha : a.stop < 2 ^ 64) {pred succ : Option Nat} (hpred : v.findLe a.va = some pred)
    (hsucc : v.findGe a.va = some succ) :
    (v.overlaps pred a.va a.size = true ∨ v.overlaps succ a.va a.size = true) ↔
      ∃ b ∈ A.areas, b.Overlaps a := by
  rw [h.inv.findLe, Option.some.injEq] at hpred
  rw [h.inv.findGe, Option.some.injEq] at hsucc
  have hmem : ∀ {o : Option Nat}, v.overlaps o a.va a.size = true →
      (∀ n, o = some n → n ∈ t.ids) → ∃ b ∈ A.areas, b.Overlaps a := by
    intro o ho hin
    cases o with
    | none => simp [overlaps] at ho
    | some n => exact ⟨_, h.mem (hin n rfl), (h.overlaps_iff (hin n rfl) ha).mp ho⟩
  constructor
  · rintro (ho | ho)
    · refine hmem ho fun n hn => ?_
      exact (List.mem_filter.mp (List.mem_of_getLast? (hpred.trans hn))).1
    · refine hmem ho fun n hn => ?_
      exact (List.mem_filter.mp (List.mem_of_head? (hsucc.trans hn))).1
  · rintro ⟨b, hb, hov⟩
    obtain ⟨n, hn, rfl⟩ := (h.areas b).mp hb
    have hpl := (h.placed hn).lt_stop
    have hapos : a.va.toNat < a.stop := by
      have : a.size.toNat ≠ 0 := fun e => hsize (BitVec.eq_of_toNat_eq e)
      unfold Vma.stop
      omega
    by_cases hle : (v.tree.val n).va ≤ a.va
    · -- the node starts at or before `a`: it is the predecessor, or ends before that starts
      have hnf : n ∈ t.ids.filter fun i => !decide (a.va < (v.tree.val i).va) := by
        simp [hn, hle]
      cases pred with
      | none => rw [List.getLast?_eq_none_iff.mp hpred] at hnf; simp at hnf
      | some p =>
          have hpf := List.mem_filter.mp (List.mem_of_getLast? hpred)
          rcases rel_getLast (h.ordered.filter _) hpred hnf with rfl | hstop
          · exact .inl ((h.overlaps_iff hn ha).mpr hov)
          · have hpa : (v.tree.val p).va ≤ a.va := by simpa using hpf.2
            rw [BitVec.le_def] at hpa
            exact absurd hov.2 (by omega)
    · -- it starts after `a`: it is the successor, or the successor overlaps `a` as well
      have hnf : n ∈ t.ids.filter fun i => a.va ≤ (v.tree.val i).va := by
        simp only [List.mem_filter, hn, decide_eq_true_eq, true_and]
        bv_omega
      cases succ with
      | none => rw [List.head?_eq_none_iff.mp hsucc] at hnf; simp at hnf
      | some q =>
          have hqf := List.mem_filter.mp (List.mem_of_head? hsucc)
          rcases rel_head (h.ordered.filter _) hsucc hnf with rfl | hstop
          · exact .inr ((h.overlaps_iff hn ha).mpr hov)
          · have hqa : a.va ≤ (v.tree.val q).va := by simpa using hqf.2
            have hqpl := (h.placed hqf.1).lt_stop
            rw [BitVec.le_def] at hqa
            refine .inr ((h.overlaps_iff hqf.1 ha).mpr ⟨?_, by omega⟩)
            have := hov.1
            omega

/-- The checks of `vmm_map` answer as the address space does. -/
theorem Refines.mapChecks (h : v.Refines t free A) {a : Vma} (ha : a.stop < 2 ^ 64) :
    v.mapChecks a.va a.pa a.size = some (A.map a ha).1 := by
  obtain ⟨pred, hpred⟩ : ∃ pred, v.findLe a.va = some pred := ⟨_, h.inv.findLe _⟩
  obtain ⟨succ, hsucc⟩ : ∃ succ, v.findGe a.va = some succ := ⟨_, h.inv.findGe _⟩
  unfold Vmm.mapChecks AddressSpace.map
  rw [hpred, hsucc, Option.bind_some, Option.bind_some]
  by_cases hsize : a.size = 0
  · rw [if_pos hsize, dif_pos hsize]
  by_cases halign : pageOffset a.va ≠ 0 ∨ pageOffset a.pa ≠ 0 ∨ pageOffset a.size ≠ 0
  · rw [if_neg hsize, dif_neg hsize, if_pos halign, dif_pos halign]
  have hiff := h.overlaps_neighbours hsize ha hpred hsucc
  rw [if_neg hsize, dif_neg hsize, if_neg halign, dif_neg halign]
  by_cases hov : ∃ b ∈ A.areas, b.Overlaps a
  · rw [dif_pos hov]
    rcases hiff.mpr hov with ho | ho
    · rw [if_pos ho]
    · rw [if_pos ho, ite_self]
  · rw [dif_neg hov]
    obtain ⟨h1, h2⟩ := not_or.mp (fun ho => hov (hiff.mp ho))
    rw [if_neg h1, if_neg h2]

end Vmm

/-- `find_exact` and the check of the size find the node that holds `a`. -/
def Vmm.Finds (v : Vmm) (a : Vma) : Prop :=
  ∃ n, v.findRange a.va a.size = some (.ok n) ∧ v.tree.val n = a

theorem Vmm.Finds.vmmProtect {m m' : Mm} {a : Vma} {attrs : BitVec 32} (ha : m.vmm.Finds a)
    (h : m.vmmProtect a.va a.size attrs = some (0, m')) :
    m'.mmu = m.mmu.protectArea a.va a.size attrs := by
  obtain ⟨n, hn, -⟩ := ha
  rw [Mm.vmmProtect, hn] at h
  exact congrArg (fun q => q.2.mmu) (Option.some.inj h).symm

theorem Vmm.Finds.vmmUnmap {m m' : Mm} {a : Vma} (ha : m.vmm.Finds a)
    (h : m.vmmUnmap a.va a.size = some (0, m')) : m'.mmu = m.mmu.unmapArea a.va a.size := by
  obtain ⟨n, hn, -⟩ := ha
  rw [Mm.vmmUnmap, hn, Option.bind_some] at h
  obtain ⟨v, -, heq⟩ := Option.map_eq_some_iff.mp h
  exact congrArg (fun q => q.2.mmu) heq.symm

namespace Mm

open Vmm

/-- The manager stands for the address space `A`. -/
def Refines (m : Mm) (A : AddressSpace) : Prop := ∃ t free, m.vmm.Refines t free A

variable {m : Mm} {t : Tree} {free : List Nat} {A : AddressSpace}

/-- As many nodes in the tree as areas. -/
theorem Refines.card (h : m.vmm.Refines t free A) : A.areas.card = t.ids.length := by
  have hset : A.areas = (t.ids.map m.vmm.tree.val).toFinset := by
    ext a
    rw [h.areas, List.mem_toFinset, List.mem_map]
  rw [hset, List.toFinset_card_of_nodup, List.length_map]
  refine List.Nodup.map_on ?_ h.inv.is.nodup
  exact fun i hi j hj hij => h.inj hi hj (by rw [hij])

/-- An area that is placed where there is none is mapped, if there is a node left for it. -/
theorem vmmMap_placed (h : m.vmm.Refines t free A) {a : Vma} (hplaced : a.Placed)
    (hno : ¬ ∃ b ∈ A.areas, b.Overlaps a) (hroom : A.areas.card < vmaPoolCap) :
    ∃ m', m.vmmMap a.va a.pa a.size a.attrs = some (0, m') ∧
      m'.mmu = m.mmu.mapArea a.va a.pa a.size a.attrs ∧ m'.Refines (A.insert a hplaced hno) := by
  have hchecks := h.mapChecks hplaced.bound
  rw [AddressSpace.map_of_placed hplaced hno] at hchecks
  have hne : free ≠ [] := by
    rintro rfl
    have h1 := h.inv.length
    have h2 := Refines.card h
    simp only [List.length_nil] at h1
    omega
  obtain ⟨n, free', rfl⟩ := List.exists_cons_of_ne_nil hne
  obtain ⟨m', t', hm', hinv', hids, hval, hmmu⟩ := vmmMap_accept h.inv a.attrs hchecks
  have hnt : ∀ k ∈ t.ids, k ≠ n := fun k hk e => h.inv.notMem.1 (e ▸ hk)
  refine ⟨m', hm', hmmu, t', free', hinv', ?_, ?_⟩
  · intro b
    have hmem : ∀ k, k ∈ t'.ids ↔ k = n ∨ k ∈ t.ids := by
      intro k
      simp only [hids, List.mem_append, List.mem_filter, List.mem_cons, Bool.not_eq_true',
        decide_eq_false_iff_not, decide_eq_true_eq]
      tauto
    rw [hval, show (A.insert a hplaced hno).areas = Insert.insert a A.areas from rfl,
      Finset.mem_insert, h.areas]
    constructor
    · rintro (rfl | ⟨k, hk, rfl⟩)
      · exact ⟨n, (hmem n).mpr (.inl rfl), Function.update_self ..⟩
      · exact ⟨k, (hmem k).mpr (.inr hk), Function.update_of_ne (hnt k hk) ..⟩
    · rintro ⟨k, hk, rfl⟩
      rcases (hmem k).mp hk with rfl | hk
      · exact .inl (Function.update_self ..)
      · exact .inr ⟨k, hk, (Function.update_of_ne (hnt k hk) ..).symm⟩
  · -- a node that starts at or before `a` ends before it, one that starts after it after its end
    have hold : ∀ k ∈ t.ids, m'.vmm.tree.val k = m.vmm.tree.val k := fun k hk => by
      rw [hval, Function.update_of_ne (hnt k hk)]
    have hvn : m'.vmm.tree.val n = a := by rw [hval, Function.update_self]
    have hap : ∀ k ∈ t.ids, (m.vmm.tree.val k).stop ≤ a.va.toNat ∨
        a.stop ≤ (m.vmm.tree.val k).va.toNat := by
      intro k hk
      have hnk : ¬ (m.vmm.tree.val k).Overlaps a := fun ho => hno ⟨_, h.mem hk, ho⟩
      unfold Vma.Overlaps at hnk
      omega
    have hpos := hplaced.lt_stop
    have hord : t.ids.Pairwise fun i j =>
        (m'.vmm.tree.val i).stop ≤ (m'.vmm.tree.val j).va.toNat := by
      refine h.ordered.imp_of_mem fun hi hj hij => ?_
      rwa [hold _ hi, hold _ hj]
    have hbefore : ∀ i ∈ t.ids, ¬ a.va < (m.vmm.tree.val i).va →
        (m'.vmm.tree.val i).stop ≤ a.va.toNat := by
      intro i hi hle
      rw [BitVec.lt_def] at hle
      rw [hold i hi]
      rcases hap i hi with hs | hs <;> omega
    have hafter : ∀ j ∈ t.ids, a.va < (m.vmm.tree.val j).va →
        a.stop ≤ (m'.vmm.tree.val j).va.toNat := by
      intro j hj hlt
      have hj' := (h.placed hj).lt_stop
      rw [BitVec.lt_def] at hlt
      rw [hold j hj]
      rcases hap j hj with hs | hs <;> omega
    rw [hids, List.pairwise_append, List.pairwise_cons]
    refine ⟨hord.filter _, ⟨fun j hj => ?_, hord.filter _⟩, fun i hi j hj => ?_⟩
    · obtain ⟨hj, hlt⟩ := List.mem_filter.mp hj
      rw [hvn]
      exact hafter j hj (by simpa using hlt)
    · obtain ⟨hi, hle⟩ := List.mem_filter.mp hi
      have hi' := hbefore i hi (by simpa using hle)
      rcases List.mem_cons.mp hj with rfl | hj
      · rw [hvn]
        exact hi'
      · obtain ⟨hj, hlt⟩ := List.mem_filter.mp hj
        have := hafter j hj (by simpa using hlt)
        omega

theorem vmmMap_refines (h : m.vmm.Refines t free A) {a : Vma} (ha : a.stop < 2 ^ 64)
    (hcap : (A.map a ha).2.areas.card ≤ vmaPoolCap) :
    ∃ m', m.vmmMap a.va a.pa a.size a.attrs = some ((A.map a ha).1, m') ∧
      m'.Refines (A.map a ha).2 := by
  rcases A.map_cases a ha with ⟨hrc, hsame⟩ | ⟨hplaced, hno, hmap⟩
  · exact ⟨m, vmmMap_reject a.attrs (h.mapChecks ha) hrc, by rw [hsame]; exact ⟨t, free, h⟩⟩
  · rw [hmap] at hcap ⊢
    have hnew : a ∉ A.areas := fun hin => hno ⟨a, hin, hplaced.lt_stop, hplaced.lt_stop⟩
    have hcard : (A.insert a hplaced hno).areas.card = A.areas.card + 1 :=
      Finset.card_insert_of_notMem hnew
    dsimp only at hcap
    obtain ⟨m', hm', -, hr'⟩ := vmmMap_placed h hplaced hno (by omega)
    exact ⟨m', hm', hr'⟩

/-! ## `vmm_unmap` and `vmm_protect` -/

/-- Their checks answer as the address space does, and find the node of the area. -/
theorem findRange_refines (h : m.vmm.Refines t free A) (va size : Word) (A' : AddressSpace) :
    ((A.onArea va size A').1 ≠ 0 ∧ (A.onArea va size A').2 = A ∧
        m.vmm.findRange va size = some (.error (A.onArea va size A').1)) ∨
      (A.onArea va size A' = (0, A') ∧ ∃ n ∈ t.ids, (m.vmm.tree.val n).va = va ∧
        m.vmm.findRange va size = some (.ok n)) := by
  unfold AddressSpace.onArea Vmm.findRange
  by_cases hsize : size = 0
  · exact .inl (by simp [hsize])
  by_cases halign : pageOffset va ≠ 0 ∨ pageOffset size ≠ 0
  · refine .inl ?_
    rw [if_neg hsize, if_pos halign, if_neg hsize, if_pos halign]
    simp
  rw [if_neg hsize, if_neg halign, if_neg hsize, if_neg halign]
  have hfind : m.vmm.findExact va = some (t.ids.find? fun i =>
      !decide (va < (m.vmm.tree.val i).va) && !decide ((m.vmm.tree.val i).va < va)) := by
    rw [Vmm.findExact, h.inv.root]
    refine Rb.findNode_spec h.inv.is.rep ?_ ?_ h.inv.steps
    · intro i hi
      simp only [decide_eq_true_eq, decide_eq_false_iff_not] at hi ⊢
      bv_omega
    · refine h.ordered.imp_of_mem fun {i j} hi hj hij hm => ?_
      have hpos := (h.placed hi).lt_stop
      simp only [decide_eq_true_eq, decide_eq_false_iff_not, BitVec.lt_def] at hm ⊢
      omega
  rw [hfind, Option.map_some]
  cases hcur : t.ids.find? fun i =>
      !decide (va < (m.vmm.tree.val i).va) && !decide ((m.vmm.tree.val i).va < va) with
  | none =>
      have hno : ¬ ∃ a ∈ A.areas, a.va = va ∧ a.size = size := by
        rintro ⟨a, ha, rfl, -⟩
        obtain ⟨n, hn, rfl⟩ := (h.areas a).mp ha
        have := List.find?_eq_none.mp hcur n hn
        simp at this
      exact .inl (by simp [hno])
  | some n =>
      have hn := List.mem_of_find?_eq_some hcur
      have hva : (m.vmm.tree.val n).va = va := by
        have := List.find?_some hcur
        simp only [Bool.and_eq_true, Bool.not_eq_true', decide_eq_false_iff_not] at this
        bv_omega
      by_cases hs : (m.vmm.tree.val n).size = size
      · have hex : ∃ a ∈ A.areas, a.va = va ∧ a.size = size := ⟨_, h.mem hn, hva, hs⟩
        refine .inr ⟨by simp [hex], n, hn, hva, by simp [hs]⟩
      · have hno : ¬ ∃ a ∈ A.areas, a.va = va ∧ a.size = size := by
          rintro ⟨a, ha, hava, hasize⟩
          have := AddressSpace.eq_of_va ha (h.mem hn) (hava.trans hva.symm)
          exact hs (this ▸ hasize)
        exact .inl (by simp [hno, hs])

theorem vmmUnmap_refines (h : m.vmm.Refines t free A) (va size : Word) :
    ∃ m', m.vmmUnmap va size = some ((A.unmap va size).1, m') ∧ m'.Refines (A.unmap va size).2 := by
  rcases findRange_refines h va size (A.remove va) with ⟨-, hsame, hf⟩ | ⟨hA, n, hn, hva, hf⟩
  · exact ⟨m, vmmUnmap_reject hf, by rw [AddressSpace.unmap, hsame]; exact ⟨t, free, h⟩⟩
  obtain ⟨m', t', hm', hinv', hids, hval⟩ := vmmUnmap_accept h.inv hf hn
  rw [AddressSpace.unmap, hA]
  refine ⟨m', hm', t', n :: free, hinv', fun a => ?_, ?_⟩
  · rw [show (A.remove va).areas = A.areas.filter fun a => a.va ≠ va from rfl, Finset.mem_filter,
      h.areas, hval, hids]
    constructor
    · rintro ⟨⟨k, hk, rfl⟩, hne⟩
      refine ⟨k, (List.mem_erase_of_ne ?_).mpr hk, rfl⟩
      rintro rfl
      exact hne hva
    · rintro ⟨k, hk, rfl⟩
      have hkt := List.mem_of_mem_erase hk
      refine ⟨⟨k, hkt, rfl⟩, fun e => ?_⟩
      have hkn := h.inj hkt hn (e.trans hva.symm)
      rw [hkn] at hk
      exact h.inv.is.nodup.not_mem_erase hk
  · rw [hids, hval]
    exact h.ordered.sublist List.erase_sublist

theorem vmmProtect_refines (h : m.vmm.Refines t free A) (va size : Word) (attrs : BitVec 32) :
    ∃ m', m.vmmProtect va size attrs = some ((A.protect va size attrs).1, m') ∧
      m'.Refines (A.protect va size attrs).2 := by
  rcases findRange_refines h va size (A.setAttrs va attrs) with
    ⟨-, hsame, hf⟩ | ⟨hA, n, hn, hva, hf⟩
  · exact ⟨m, vmmProtect_reject attrs hf, by
      rw [AddressSpace.protect, hsame]; exact ⟨t, free, h⟩⟩
  obtain ⟨m', hm', hinv', hval⟩ := vmmProtect_accept h.inv attrs hf
  rw [AddressSpace.protect, hA]
  -- the node of the range is the one whose area changes
  have hwith : ∀ k ∈ t.ids, m'.vmm.tree.val k
      = AddressSpace.withAttrs va attrs (m.vmm.tree.val k) := by
    intro k hk
    rw [hval, AddressSpace.withAttrs]
    by_cases hkn : k = n
    · rw [hkn, Function.update_self, if_pos hva]
    · rw [Function.update_of_ne hkn, if_neg fun e => hkn (h.inj hk hn (e.trans hva.symm))]
  refine ⟨m', hm', t, free, hinv', fun a => ?_, ?_⟩
  · rw [show (A.setAttrs va attrs).areas = A.areas.image (AddressSpace.withAttrs va attrs) from rfl,
      Finset.mem_image]
    constructor
    · rintro ⟨b, hb, rfl⟩
      obtain ⟨k, hk, rfl⟩ := (h.areas b).mp hb
      exact ⟨k, hk, hwith k hk⟩
    · rintro ⟨k, hk, rfl⟩
      exact ⟨_, h.mem hk, (hwith k hk).symm⟩
  · refine h.ordered.imp_of_mem fun hi hj hij => ?_
    rwa [hwith _ hi, hwith _ hj, AddressSpace.withAttrs_stop, AddressSpace.withAttrs_va]

/-- The checks find the node of an area. -/
theorem finds_of_mem (h : m.vmm.Refines t free A) {a : Vma} (ha : a ∈ A.areas) : m.vmm.Finds a := by
  have hzero := AddressSpace.onArea_of_mem ha A
  rcases findRange_refines h a.va a.size A with ⟨hne, -⟩ | ⟨-, n, hn, hva, hfind⟩
  · rw [hzero] at hne
    exact absurd rfl hne
  · exact ⟨n, hfind, AddressSpace.eq_of_va (h.mem hn) ha hva⟩

/-! ## `vmm_virt_to_phys` -/

theorem vmmVirtToPhys_refines (h : m.vmm.Refines t free A) (va : Word) :
    m.vmmVirtToPhys va = some (A.virtToPhys va) := by
  rw [vmmVirtToPhys, h.inv.findLe, Option.map_some]
  congr 1
  -- a node that covers `va` starts at or before it, and it is the last one that does
  have hcover : ∀ n ∈ t.ids, (m.vmm.tree.val n).Covers va →
      (t.ids.filter fun i => !decide (va < (m.vmm.tree.val i).va)).getLast? = some n := by
    intro n hn hc
    have hnf : n ∈ t.ids.filter fun i => !decide (va < (m.vmm.tree.val i).va) := by
      simp only [List.mem_filter, hn, Bool.not_eq_true', decide_eq_false_iff_not, true_and, BitVec.lt_def]
      have := hc.1
      omega
    cases hlast : (t.ids.filter fun i => !decide (va < (m.vmm.tree.val i).va)).getLast? with
    | none => rw [List.getLast?_eq_none_iff.mp hlast] at hnf; simp at hnf
    | some p =>
        have hp := (List.mem_filter.mp (List.mem_of_getLast? hlast)).2
        simp only [Bool.not_eq_true', decide_eq_false_iff_not, BitVec.lt_def] at hp
        rcases rel_getLast (h.ordered.filter _) hlast hnf with rfl | hstop
        · rfl
        · have := hc.2
          omega
  have hiff : ∀ n ∈ t.ids, (m.vmm.tree.val n).Covers va ↔ (m.vmm.tree.val n).va ≤ va ∧
      va < (m.vmm.tree.val n).va + (m.vmm.tree.val n).size := by
    intro n hn
    have hb := (h.placed hn).bound
    unfold Vma.stop at hb
    rw [Vma.Covers, Vma.stop, BitVec.le_def, BitVec.lt_def, BitVec.toNat_add_of_lt hb]
  by_cases hex : ∃ a ∈ A.areas, a.Covers va
  · obtain ⟨a, ha, hc⟩ := hex
    obtain ⟨n, hn, rfl⟩ := (h.areas a).mp ha
    rw [hcover n hn hc, AddressSpace.virtToPhys_of_covers ha hc]
    simp only [if_pos ((hiff n hn).mp hc)]
  · rw [AddressSpace.virtToPhys_of_not hex]
    cases hlast : (t.ids.filter fun i => !decide (va < (m.vmm.tree.val i).va)).getLast? with
    | none => rfl
    | some p =>
        have hp := (List.mem_filter.mp (List.mem_of_getLast? hlast)).1
        have hno : ¬ (m.vmm.tree.val p).Covers va := fun hc => hex ⟨_, h.mem hp, hc⟩
        rw [hiff p hp] at hno
        simp only [if_neg hno]

/-! ## Whole runs -/

theorem booted_refines (mmu : Mmu) : (booted mmu).Refines .empty := by
  refine ⟨.nil, _, inv_booted mmu, fun a => ?_, List.Pairwise.nil⟩
  simp [AddressSpace.empty]

/-- One call: the answer of the address space, from a state that stands for the next one. -/
theorem call_refines (h : m.Refines A) (op : BoundedOp)
    (hcap : (A.call op).2.areas.card ≤ vmaPoolCap) :
    ∃ m', m.call op.1 = some ((A.call op).1, m') ∧ m'.Refines (A.call op).2 := by
  obtain ⟨t, free, h⟩ := h
  obtain ⟨op, hb⟩ := op
  cases op with
  | map va pa size attrs =>
      obtain ⟨m', hm', hr⟩ := vmmMap_refines h (a := ⟨va, pa, size, attrs⟩) hb hcap
      exact ⟨m', by simp [call, hm', AddressSpace.call], hr⟩
  | unmap va size =>
      obtain ⟨m', hm', hr⟩ := vmmUnmap_refines h va size
      exact ⟨m', by simp [call, hm', AddressSpace.call], hr⟩
  | protect va size attrs =>
      obtain ⟨m', hm', hr⟩ := vmmProtect_refines h va size attrs
      exact ⟨m', by simp [call, hm', AddressSpace.call], hr⟩
  | virtToPhys va =>
      exact ⟨m, by simp [call, vmmVirtToPhys_refines h va, AddressSpace.call], t, free, h⟩

/-- **Refinement.** Every run of calls from `vmm_init`, with ranges that do not wrap and at most 256
areas live at once, gives the answers of the address space and ends in a state that stands for it. -/
theorem vmm_refines_addressSpace (mmu : Mmu) (ops : List BoundedOp)
    (hcap : Machine.Allowed AddressSpace.call
      (fun A op => (A.call op).2.areas.card ≤ vmaPoolCap) .empty ops) :
    ∃ m', Machine.runOption (fun m (op : BoundedOp) => m.call op.1) (booted mmu) ops
        = some ((Machine.run AddressSpace.call .empty ops).1, m') ∧
      m'.Refines (Machine.run AddressSpace.call .empty ops).2 :=
  Machine.runOption_of_simulates (R := Mm.Refines) (fun _ _ op h hcap => call_refines h op hcap)
    (booted_refines mmu) hcap

/-- Map two pages, try to map one of them again, protect and unmap them. -/
def sampleOps : List BoundedOp :=
  [⟨.map 0x1000 0x8000 0x2000 3, by show _ < _; decide⟩,
    ⟨.map 0x2000 0x9000 0x1000 3, by show _ < _; decide⟩,
    ⟨.protect 0x1000 0x2000 1, by show _ < _; decide⟩,
    ⟨.unmap 0x1000 0x2000, by show _ < _; decide⟩]

theorem vmm_refines_sampleOps :
    ∃ m', Machine.runOption (fun m (op : BoundedOp) => m.call op.1) (booted mmuOff) sampleOps
        = some ([.rc 0, .rc (-3), .rc 0, .rc 0], m') ∧
      m'.Refines (Machine.run AddressSpace.call .empty sampleOps).2 := by
  refine vmm_refines_addressSpace mmuOff sampleOps ?_
  simp only [sampleOps, Machine.Allowed, vmaPoolCap]
  decide

end Mm

end Arcline
