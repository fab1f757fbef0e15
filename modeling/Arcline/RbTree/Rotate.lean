import Arcline.RbTree.Heap

set_option autoImplicit false

/-! # Rotations

`rotateLeft` and `rotateRight` as pointer operations, and what they do to the represented tree.
The right rotation is the reflection of the left one. A source that tests the two child pointers
of the parent in the other order has `rotateRightL`, which agrees with it wherever the links form
a tree.
-/

namespace RbTree

open Color RbTree.Tree

namespace Rb

variable {α : Type}

/-- `x`'s right child takes the place of `x`, and `x` becomes its left child. -/
def rotateLeft (s : Rb α) (x : Nat) : Option (Rb α) :=
  match s.right x with
  | none => none
  | some y =>
      let s := s.setRight x (s.left y)
      let s := s.setParent? (s.left y) (some x)
      let s := s.setParent y (s.parent x)
      let s := s.relink (s.parent x) x (some y)
      let s := s.setLeft y (some x)
      some (s.setParent x (some y))

/-- `relink` with the right pointer tried first. -/
def relinkR (s : Rb α) (p : Option Nat) (u : Nat) (v : Option Nat) : Rb α :=
  match p with
  | none => s.setRoot v
  | some p => if s.right p = some u then s.setRight p v else s.setLeft p v

/-- `y`'s left child takes the place of `y`, and `y` becomes its right child. The parent's
right pointer is tried first. -/
def rotateRight (s : Rb α) (y : Nat) : Option (Rb α) :=
  match s.left y with
  | none => none
  | some x =>
      let s := s.setLeft y (s.right x)
      let s := s.setParent? (s.right x) (some y)
      let s := s.setParent x (s.parent y)
      let s := s.relinkR (s.parent y) y (some x)
      let s := s.setRight x (some y)
      some (s.setParent y (some x))

/-- The right rotation that tries the parent's left pointer first. -/
def rotateRightL (s : Rb α) (y : Nat) : Option (Rb α) :=
  match s.left y with
  | none => none
  | some x =>
      let s := s.setLeft y (s.right x)
      let s := s.setParent? (s.right x) (some y)
      let s := s.setParent x (s.parent y)
      let s := s.relink (s.parent y) y (some x)
      let s := s.setRight x (some y)
      some (s.setParent y (some x))

theorem mirror_setParent? (s : Rb α) (p q : Option Nat) :
    (s.setParent? p q).mirror = s.mirror.setParent? p q := by
  cases p <;> rfl

theorem mirror_relink (s : Rb α) (p v : Option Nat) (u : Nat) :
    (s.relink p u v).mirror = s.mirror.relinkR p u v := by
  cases p with
  | none => rfl
  | some p =>
      by_cases h : s.left p = some u
      · have h' : s.mirror.right p = some u := h
        simp only [relink, relinkR, if_pos h, if_pos h']
        rfl
      · have h' : ¬ s.mirror.right p = some u := h
        simp only [relink, relinkR, if_neg h, if_neg h']
        rfl

/-- The links of the right rotation are those of the left rotation of the reflected pool. -/
theorem rotateRight_eq_mirror (s : Rb α) (y : Nat) :
    s.rotateRight y = (s.mirror.rotateLeft y).map mirror := by
  have hl : ∀ (s : Rb α) (i : Nat) (p : Option Nat),
      (s.setLeft i p).mirror = s.mirror.setRight i p := fun _ _ _ => rfl
  have hr : ∀ (s : Rb α) (i : Nat) (p : Option Nat),
      (s.setRight i p).mirror = s.mirror.setLeft i p := fun _ _ _ => rfl
  have hp : ∀ (s : Rb α) (i : Nat) (p : Option Nat),
      (s.setParent i p).mirror = s.mirror.setParent i p := fun _ _ _ => rfl
  simp only [rotateRight, rotateLeft, mirror_right, mirror_left]
  cases s.left y with
  | none => rfl
  | some x =>
      simp only [Option.map_some, hp, hl, mirror_relink, mirror_setParent?, hr, mirror_mirror,
        setLeft_right, setRight_left, mirror_left]
      cases s.right x <;> rfl

/-- **Left rotation.** The in-order sequence, every colour and every payload stay. -/
theorem rotateLeft_at {s : Rb α} {ctx : List Frame} {cx cy : Color} {a b d : Tree} {x y : Nat}
    (h : s.At ctx (node cx a x (node cy b y d))) :
    ∃ s', s.rotateLeft x = some s' ∧ s'.At ctx (node cy (node cx a x b) y d) ∧
      Only (plug ctx (node cx a x (node cy b y d))).ids s s' ∧ s'.color = s.color := by
  obtain ⟨h1, h2, h3, h4, h5, h6, h7, h8, h9, h10, h11⟩ := h.rep
  have hn := h.ids_nodup
  simp only [Tree.ids_node, List.nodup_append, List.nodup_cons, List.mem_append,
    List.mem_cons] at hn
  obtain ⟨hna, ⟨hx, hnb, ⟨hyd, hnd⟩, hbd⟩, hax⟩ := hn
  have hxa : x ∉ a.ids := fun hm => hax x hm x (.inl rfl) rfl
  have hya : y ∉ a.ids := fun hm => hax y hm y (.inr (.inr (.inl rfl))) rfl
  have hyb : y ∉ b.ids := fun hm => hbd y hm y (.inl rfl) rfl
  have hxb : x ∉ b.ids := fun hm => hx (.inl hm)
  have hxy : x ≠ y := fun e => hx (.inr (.inl e))
  have hxd : x ∉ d.ids := fun hm => hx (.inr (.inr hm))
  have hmx : x ∈ (node cx a x (node cy b y d)).ids := by simp
  have hmy : y ∈ (node cx a x (node cy b y d)).ids := by simp
  have hmb : ∀ {i}, i ∈ b.ids → i ∈ (node cx a x (node cy b y d)).ids := by
    intro i hi; simp [hi]
  -- the pointers that are written besides those of `x` and `y`
  have hbx : b.ptr ≠ some x := fun e => hxb (Tree.ptr_mem e)
  have hby : b.ptr ≠ some y := fun e => hyb (Tree.ptr_mem e)
  have hpx : parentPtr ctx ≠ some x := h.parentPtr_ne hmx
  have hpy : parentPtr ctx ≠ some y := h.parentPtr_ne hmy
  have hrot : s.rotateLeft x = some
      ((((((s.setRight x b.ptr).setParent? b.ptr (some x)).setParent y (parentPtr ctx)).relink
        (parentPtr ctx) x (some y)).setLeft y (some x)).setParent x (some y)) := by
    have hp : ((s.setRight x b.ptr).setParent? b.ptr (some x)).parent x = parentPtr ctx := by
      rw [setParent?_parent_of_ne _ _ _ _ hbx]
      simpa using h4
    simp only [rotateLeft, h3, Tree.ptr_node, setRight_left, h7, hp, setParent_parent,
      Function.update_of_ne hxy]
  refine ⟨_, hrot, ⟨?_, ?_, ?_⟩, ?_, ?_⟩
  · -- the surroundings now hold `y`
    rw [writes_setParent.repAround (h.notMem_before hmx) (h.notMem_after hmx),
      writes_setLeft.repAround (h.notMem_before hmy) (h.notMem_after hmy)]
    apply repAround_relink _ (nodup_around h.nodup) (h.notMem_before hmx)
    rw [writes_setParent.repAround (h.notMem_before hmy) (h.notMem_after hmy), repAround_setParent?,
      writes_setRight.repAround (h.notMem_before hmx) (h.notMem_after hmx)]
    · exact h.around
    · exact fun j hj e => h.notMem_before (hmb (Tree.ptr_mem e)) hj
    · exact fun j hj e => h.notMem_after (hmb (Tree.ptr_mem e)) hj
  · -- the two nodes, and the three subtrees
    have hnp : ∀ {t : Tree}, (∀ i ∈ t.ids, i ∈ (node cx a x (node cy b y d)).ids) →
        ∀ j ∈ t.ids, parentPtr ctx ≠ some j := fun ht j hj => h.parentPtr_ne (ht j hj)
    have hsub : ∀ {t : Tree} {p : Option Nat}, x ∉ t.ids → y ∉ t.ids →
        (∀ i ∈ t.ids, i ∈ (node cx a x (node cy b y d)).ids) →
        ((s.setRight x b.ptr).setParent? b.ptr (some x)).Rep t p →
        ((((((s.setRight x b.ptr).setParent? b.ptr (some x)).setParent y (parentPtr ctx)).relink
          (parentPtr ctx) x (some y)).setLeft y (some x)).setParent x (some y)).Rep t p := by
      intro t p hxt hyt ht hrep
      rw [writes_setParent.rep hxt, writes_setLeft.rep hyt, rep_relink (hnp ht), writes_setParent.rep hyt]
      exact hrep
    refine ⟨by simpa using h6, by simp, ?_, ?_, ⟨by simpa using h1, ?_, ?_, by simp, ?_, ?_⟩, ?_⟩
    · simpa [relink_right_of_ne _ _ _ _ _ hpy, Function.update_of_ne hxy.symm] using h8
    · simp [Function.update_of_ne hxy.symm]
    · simpa [relink_left_of_ne _ _ _ _ _ hpx, Function.update_of_ne hxy] using h2
    · simp [relink_right_of_ne _ _ _ _ _ hpx]
    · refine hsub hxa hya (fun i hi => by simp [hi]) ?_
      rw [rep_setParent?, writes_setRight.rep hxa]
      · exact h5
      · intro j hj e
        exact hax j hj j (.inr (.inl (Tree.ptr_mem e))) rfl
    · refine hsub hxb hyb (fun i hi => by simp [hi]) ?_
      exact rep_setParent?_ptr hnb ((writes_setRight.rep hxb).mpr h10)
    · refine hsub hxd hyd (fun i hi => by simp [hi]) ?_
      rw [rep_setParent?, writes_setRight.rep hxd]
      · exact h11
      · intro j hj e
        exact hbd j (Tree.ptr_mem e) j (.inr hj) rfl
  · rw [ids_plug_congr ctx (u := node cx a x (node cy b y d)) (by simp)]
    exact h.nodup
  · exact (((((writes_setRight.only (mem_plug hmx)).trans
      (only_setParent? fun j hj => mem_plug (hmb (Tree.ptr_mem hj)))).trans
      (writes_setParent.only (mem_plug hmy))).trans (only_relink fun j hj => parentPtr_mem_plug hj)).trans
      (writes_setLeft.only (mem_plug hmy))).trans (writes_setParent.only (mem_plug hmx))
  · simp

/-- In a tree the order in which the parent's child pointers are tried makes no difference. -/
theorem rotateRightL_eq {s : Rb α} {ctx : List Frame} {cy : Color} {t d : Tree} {y : Nat}
    (h : s.At ctx (node cy t y d)) : s.rotateRightL y = s.rotateRight y := by
  unfold rotateRightL rotateRight
  cases t with
  | nil =>
      have hl : s.left y = none := h.rep.2.1
      simp [hl]
  | node cx a x b =>
      obtain ⟨h1, h2, h3, h4, h5, h6⟩ := h.rep
      have hxy : y ≠ x := by
        have hn := h.ids_nodup
        simp only [Tree.ids_node, List.nodup_append, List.mem_append, List.mem_cons] at hn
        exact fun e => hn.2.2 x (.inr (.inl rfl)) y (.inl rfl) e.symm
      have hmy : y ∈ (node cy (node cx a x b) y d).ids := by simp
      have hby : b.ptr ≠ some y := by
        intro e
        have hn := h.ids_nodup
        simp only [Tree.ids_node, List.nodup_append, List.mem_append, List.mem_cons] at hn
        exact hn.2.2 y (.inr (.inr (Tree.ptr_mem e))) y (.inl rfl) rfl
      have hbx : s.right x = b.ptr := h5.2.2.1
      have hpar : ((s.setLeft y b.ptr).setParent? b.ptr (some y)).parent y = parentPtr ctx := by
        rw [setParent?_parent_of_ne _ _ _ _ hby]
        simpa using h4
      simp only [h2, Tree.ptr_node, setLeft_right, hbx, hpar, setParent_parent,
        Function.update_of_ne hxy, relink, relinkR]
      have haround := h.around
      cases ctx with
      | nil => rfl
      | cons f up =>
          have hne : f.id ≠ y := fun e => h.parentPtr_ne hmy (by simp [e])
          cases f with
          | left c p r =>
              have hr : r.ptr ≠ some y := by
                intro e
                exact h.notMem_after hmy (by simp [after, Tree.ptr_mem e])
              simp only [Tree.ptr_node] at haround
              simp only [parentPtr_cons, Frame.id] at hne ⊢
              simp [haround.2.1, haround.2.2.1, hr, Function.update_of_ne hne]
          | right c l p =>
              have hl : l.ptr ≠ some y := by
                intro e
                exact h.notMem_before hmy (by simp [before, Tree.ptr_mem e])
              simp only [Tree.ptr_node] at haround
              simp only [parentPtr_cons, Frame.id] at hne ⊢
              simp [haround.2.1, haround.2.2.1, hl, Function.update_of_ne hne]

/-! ## Rotations as the fixups use them -/

/-- `rot` does to a represented tree what a left rotation does. -/
def IsRotateLeft (rot : Rb α → Nat → Option (Rb α)) : Prop :=
  ∀ (s : Rb α) (ctx : List Frame) (cx cy : Color) (a b d : Tree) (x y : Nat),
    s.At ctx (node cx a x (node cy b y d)) →
    ∃ s', rot s x = some s' ∧ s'.At ctx (node cy (node cx a x b) y d) ∧
      Only (plug ctx (node cx a x (node cy b y d))).ids s s' ∧ s'.color = s.color

/-- `rot` does to a represented tree what a right rotation does. -/
def IsRotateRight (rot : Rb α → Nat → Option (Rb α)) : Prop :=
  ∀ (s : Rb α) (ctx : List Frame) (cx cy : Color) (a b d : Tree) (x y : Nat),
    s.At ctx (node cy (node cx a x b) y d) →
    ∃ s', rot s y = some s' ∧ s'.At ctx (node cx a x (node cy b y d)) ∧
      Only (plug ctx (node cy (node cx a x b) y d)).ids s s' ∧ s'.color = s.color

/-- An operation carried over to the reflected pool. -/
def reflect (rot : Rb α → Nat → Option (Rb α)) (s : Rb α) (x : Nat) : Option (Rb α) :=
  (rot s.mirror x).map mirror

theorem ids_plug_mirror (ctx : List Frame) (t : Tree) :
    (plug (ctx.map Frame.mirror) t.mirror).ids = (plug ctx t).ids.reverse := by
  rw [plug_mirror, Tree.ids_mirror]

theorem Only.of_mirror {ctx : List Frame} {t : Tree} {s s' : Rb α}
    (h : Only (plug (ctx.map Frame.mirror) t.mirror).ids s.mirror s') :
    Only (plug ctx t).ids s s'.mirror := by
  refine (h.mono fun i hi => ?_).mirror
  rwa [ids_plug_mirror, List.mem_reverse] at hi

/-- What an operation does to the reflected tree, the reflected operation does to the tree. -/
theorem reflect_at {rot : Rb α → Nat → Option (Rb α)} {s : Rb α} {ctx : List Frame} {t t' : Tree} {x : Nat}
    (h : ∃ s', rot s.mirror x = some s' ∧ s'.At (ctx.map Frame.mirror) t'.mirror ∧
      Only (plug (ctx.map Frame.mirror) t.mirror).ids s.mirror s' ∧ s'.color = s.color) :
    ∃ s', reflect rot s x = some s' ∧ s'.At ctx t' ∧ Only (plug ctx t).ids s s' ∧ s'.color = s.color := by
  obtain ⟨s', hs, hat, honly, hcol⟩ := h
  refine ⟨s'.mirror, by simp [reflect, hs], ?_, honly.of_mirror, hcol⟩
  rwa [← at_mirror]

theorem IsRotateLeft.reflect {rot : Rb α → Nat → Option (Rb α)} (h : IsRotateLeft rot) :
    IsRotateRight (reflect rot) :=
  fun _ _ _ _ _ _ _ _ _ hat => reflect_at (h _ _ _ _ _ _ _ _ _ (at_mirror.mpr hat))

theorem IsRotateRight.reflect {rot : Rb α → Nat → Option (Rb α)} (h : IsRotateRight rot) :
    IsRotateLeft (reflect rot) :=
  fun _ _ _ _ _ _ _ _ _ hat => reflect_at (h _ _ _ _ _ _ _ _ _ (at_mirror.mpr hat))

theorem isRotateLeft_rotateLeft : IsRotateLeft (α := α) rotateLeft :=
  fun _ _ _ _ _ _ _ _ _ h => rotateLeft_at h

theorem isRotateRight_rotateRight : IsRotateRight (α := α) rotateRight := by
  have h : rotateRight = reflect (α := α) rotateLeft := by
    funext s y
    exact rotateRight_eq_mirror s y
  rw [h]
  exact isRotateLeft_rotateLeft.reflect

theorem isRotateRight_rotateRightL : IsRotateRight (α := α) rotateRightL := by
  intro s ctx cx cy a b d x y hat
  rw [rotateRightL_eq hat]
  exact isRotateRight_rotateRight s ctx cx cy a b d x y hat

end Rb

end RbTree
