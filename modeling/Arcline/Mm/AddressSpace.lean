import Arcline.Mm.VmaPool
import Mathlib.Data.Finset.Image
import Mathlib.Data.Finset.Card

set_option autoImplicit false

/-! # The address space, abstractly

What the virtual memory manager is for: a finite set of page-aligned areas, no two of which share an
address. The calls are answered from that set alone.
-/

namespace Arcline

/-- First address after the area. -/
def Vma.stop (a : Vma) : Nat := a.va.toNat + a.size.toNat

def Vma.Overlaps (a b : Vma) : Prop := a.va.toNat < b.stop ∧ b.va.toNat < a.stop

instance (a b : Vma) : Decidable (a.Overlaps b) := inferInstanceAs (Decidable (_ ∧ _))

def Vma.Covers (a : Vma) (x : Word) : Prop := a.va.toNat ≤ x.toNat ∧ x.toNat < a.stop

instance (a : Vma) (x : Word) : Decidable (a.Covers x) := inferInstanceAs (Decidable (_ ∧ _))

/-- Page aligned, not empty, and ending below `2^64`. -/
structure Vma.Placed (a : Vma) : Prop where
  size : a.size ≠ 0
  aligned : pageOffset a.va = 0 ∧ pageOffset a.pa = 0 ∧ pageOffset a.size = 0
  bound : a.stop < 2 ^ 64

theorem Vma.Placed.lt_stop {a : Vma} (h : a.Placed) : a.va.toNat < a.stop := by
  have h0 : a.size.toNat ≠ 0 := fun e => h.size (BitVec.eq_of_toNat_eq e)
  unfold Vma.stop
  omega

/-- A set of placed areas that pairwise share no address. -/
structure AddressSpace where
  areas : Finset Vma
  placed : ∀ a ∈ areas, a.Placed
  disjoint : ∀ a ∈ areas, ∀ b ∈ areas, a ≠ b → ¬ a.Overlaps b

namespace AddressSpace

def empty : AddressSpace := ⟨∅, by simp, by simp⟩

variable {A : AddressSpace} {a : Vma} {x : Word}

/-- At most one area starts at an address. -/
theorem eq_of_va {b : Vma} (ha : a ∈ A.areas) (hb : b ∈ A.areas) (h : a.va = b.va) : a = b := by
  by_contra hne
  refine A.disjoint a ha b hb hne ⟨?_, ?_⟩
  · rw [h]
    exact (A.placed b hb).lt_stop
  · rw [← h]
    exact (A.placed a ha).lt_stop

/-- At most one area covers an address. -/
theorem eq_of_covers {b : Vma} (ha : a ∈ A.areas) (hb : b ∈ A.areas) (hax : a.Covers x)
    (hbx : b.Covers x) : a = b := by
  by_contra hne
  exact A.disjoint a ha b hb hne ⟨Nat.lt_of_le_of_lt hax.1 hbx.2, Nat.lt_of_le_of_lt hbx.1 hax.2⟩

/-- Add an area that overlaps none. -/
def insert (A : AddressSpace) (a : Vma) (ha : a.Placed) (hno : ¬ ∃ b ∈ A.areas, b.Overlaps a) :
    AddressSpace where
  areas := Insert.insert a A.areas
  placed := by
    intro b hb
    rcases Finset.mem_insert.mp hb with rfl | hb
    · exact ha
    · exact A.placed b hb
  disjoint := by
    intro b hb c hc hne
    rw [Finset.mem_insert] at hb hc
    rcases hb with rfl | hb <;> rcases hc with rfl | hc
    · exact absurd rfl hne
    · exact fun h => hno ⟨c, hc, h.2, h.1⟩
    · exact fun h => hno ⟨b, hb, h⟩
    · exact A.disjoint b hb c hc hne

/-- Remove the area that starts at `va`. -/
def remove (A : AddressSpace) (va : Word) : AddressSpace where
  areas := A.areas.filter fun a => a.va ≠ va
  placed := fun a ha => A.placed a (Finset.mem_filter.mp ha).1
  disjoint := fun a ha b hb => A.disjoint a (Finset.mem_filter.mp ha).1 b (Finset.mem_filter.mp hb).1

/-- The area with other attributes, if it is the one that starts at `va`. -/
def withAttrs (va : Word) (attrs : BitVec 32) (a : Vma) : Vma :=
  if a.va = va then { a with attrs := attrs } else a

theorem withAttrs_va (va : Word) (attrs : BitVec 32) (a : Vma) : (withAttrs va attrs a).va = a.va := by
  unfold withAttrs
  split <;> rfl

theorem withAttrs_size (va : Word) (attrs : BitVec 32) (a : Vma) :
    (withAttrs va attrs a).size = a.size := by
  unfold withAttrs
  split <;> rfl

theorem withAttrs_pa (va : Word) (attrs : BitVec 32) (a : Vma) : (withAttrs va attrs a).pa = a.pa := by
  unfold withAttrs
  split <;> rfl

theorem withAttrs_stop (va : Word) (attrs : BitVec 32) (a : Vma) :
    (withAttrs va attrs a).stop = a.stop := by
  rw [Vma.stop, Vma.stop, withAttrs_va, withAttrs_size]

/-- Change the attributes of the area that starts at `va`. -/
def setAttrs (A : AddressSpace) (va : Word) (attrs : BitVec 32) : AddressSpace where
  areas := A.areas.image (withAttrs va attrs)
  placed := by
    intro b hb
    obtain ⟨a, ha, rfl⟩ := Finset.mem_image.mp hb
    have h := A.placed a ha
    refine ⟨?_, ?_, ?_⟩
    · rw [withAttrs_size]
      exact h.size
    · rw [withAttrs_va, withAttrs_pa, withAttrs_size]
      exact h.aligned
    · rw [withAttrs_stop]
      exact h.bound
  disjoint := by
    intro b hb c hc hne
    obtain ⟨a, ha, rfl⟩ := Finset.mem_image.mp hb
    obtain ⟨d, hd, rfl⟩ := Finset.mem_image.mp hc
    have had : a ≠ d := fun e => hne (e ▸ rfl)
    simp only [Vma.Overlaps, withAttrs_va, withAttrs_stop]
    exact A.disjoint a ha d hd had

/-! ## The calls -/

/-- `-1` for an empty range, `-2` for one that is not page aligned, `-3` for one that overlaps an
area, and otherwise the area is added. -/
def map (A : AddressSpace) (a : Vma) (hbound : a.stop < 2 ^ 64) : Int × AddressSpace :=
  if hsize : a.size = 0 then (-1, A)
  else if halign : pageOffset a.va ≠ 0 ∨ pageOffset a.pa ≠ 0 ∨ pageOffset a.size ≠ 0 then (-2, A)
  else if hno : ∃ b ∈ A.areas, b.Overlaps a then (-3, A)
  else (0, A.insert a ⟨hsize, by simpa using halign, hbound⟩ hno)

/-- `map` rejects and changes nothing, or adds the area. -/
theorem map_cases (A : AddressSpace) (a : Vma) (hbound : a.stop < 2 ^ 64) :
    ((A.map a hbound).1 ≠ 0 ∧ (A.map a hbound).2 = A) ∨
      ∃ (hp : a.Placed) (hno : ¬ ∃ b ∈ A.areas, b.Overlaps a),
        A.map a hbound = (0, A.insert a hp hno) := by
  by_cases hsize : a.size = 0
  · exact .inl (by simp [map, hsize])
  by_cases halign : pageOffset a.va ≠ 0 ∨ pageOffset a.pa ≠ 0 ∨ pageOffset a.size ≠ 0
  · exact .inl (by rw [map, dif_neg hsize, dif_pos halign]; simp)
  by_cases hno : ∃ b ∈ A.areas, b.Overlaps a
  · exact .inl (by rw [map, dif_neg hsize, dif_neg halign, dif_pos hno]; simp)
  · refine .inr ⟨⟨hsize, by simpa using halign, hbound⟩, hno, ?_⟩
    rw [map, dif_neg hsize, dif_neg halign, dif_neg hno]

theorem map_of_placed (hp : a.Placed) (hno : ¬ ∃ b ∈ A.areas, b.Overlaps a) :
    A.map a hp.bound = (0, A.insert a hp hno) := by
  have halign : ¬ (pageOffset a.va ≠ 0 ∨ pageOffset a.pa ≠ 0 ∨ pageOffset a.size ≠ 0) := by
    simpa using hp.aligned
  rw [map, dif_neg hp.size, dif_neg halign, dif_neg hno]

/-- The answer to a range that has to be exactly an area: `-1`, `-2` as for `map`, `-3` if there is no
such area, and otherwise the address space `A'`. -/
def onArea (A : AddressSpace) (va size : Word) (A' : AddressSpace) : Int × AddressSpace :=
  if size = 0 then (-1, A)
  else if pageOffset va ≠ 0 ∨ pageOffset size ≠ 0 then (-2, A)
  else if ∃ a ∈ A.areas, a.va = va ∧ a.size = size then (0, A')
  else (-3, A)

theorem onArea_of_mem (ha : a ∈ A.areas) (A' : AddressSpace) : A.onArea a.va a.size A' = (0, A') := by
  have hp := A.placed a ha
  have halign : ¬ (pageOffset a.va ≠ 0 ∨ pageOffset a.size ≠ 0) := by
    simpa using ⟨hp.aligned.1, hp.aligned.2.2⟩
  have hmem : ∃ b ∈ A.areas, b.va = a.va ∧ b.size = a.size := ⟨a, ha, rfl, rfl⟩
  rw [onArea, if_neg hp.size, if_neg halign, if_pos hmem]

def unmap (A : AddressSpace) (va size : Word) : Int × AddressSpace :=
  A.onArea va size (A.remove va)

def protect (A : AddressSpace) (va size : Word) (attrs : BitVec 32) : Int × AddressSpace :=
  A.onArea va size (A.setAttrs va attrs)

open Classical in
/-- The address an area maps `x` to, and `x` itself where there is no area. -/
noncomputable def virtToPhys (A : AddressSpace) (x : Word) : Word :=
  if h : ∃ a ∈ A.areas, a.Covers x then h.choose.pa + (x - h.choose.va) else x

theorem virtToPhys_of_covers (ha : a ∈ A.areas) (hx : a.Covers x) :
    A.virtToPhys x = a.pa + (x - a.va) := by
  have h : ∃ a ∈ A.areas, a.Covers x := ⟨a, ha, hx⟩
  rw [virtToPhys, dif_pos h, eq_of_covers h.choose_spec.1 ha h.choose_spec.2 hx]

theorem virtToPhys_of_not (h : ¬ ∃ a ∈ A.areas, a.Covers x) : A.virtToPhys x = x := by
  rw [virtToPhys, dif_neg h]

end AddressSpace

/-- The ranges of a call end below `2^64`. -/
def VmmOp.Bounded : VmmOp → Prop
  | .map va _ size _ => va.toNat + size.toNat < 2 ^ 64
  | .unmap va size => va.toNat + size.toNat < 2 ^ 64
  | .protect va size _ => va.toNat + size.toNat < 2 ^ 64
  | .virtToPhys _ => True

/-- A call whose range does not wrap. -/
abbrev BoundedOp := { op : VmmOp // op.Bounded }

noncomputable def AddressSpace.call (A : AddressSpace) : BoundedOp → VmmResult × AddressSpace
  | ⟨.map va pa size attrs, h⟩ =>
      let r := A.map ⟨va, pa, size, attrs⟩ h
      (.rc r.1, r.2)
  | ⟨.unmap va size, _⟩ =>
      let r := A.unmap va size
      (.rc r.1, r.2)
  | ⟨.protect va size attrs, _⟩ =>
      let r := A.protect va size attrs
      (.rc r.1, r.2)
  | ⟨.virtToPhys va, _⟩ => (.phys (A.virtToPhys va), A)

end Arcline
