import Arcline.RbTree.Tree
import Mathlib.Logic.Function.Basic
import Mathlib.Tactic.Simps.Basic

set_option autoImplicit false

/-! # Linked red-black trees

Nodes live in a pool and point at each other through `left`, `right` and `parent`; a pointer is
an `Option Nat`, `none` being `NULL`. A state of such a pool is an `Rb`, with one map for each
field of the node structure, so that writing one field of one node is one `Function.update`.
Operations that follow a pointer return an `Option`: `none` is a dereferenced `NULL` (or a loop
that did not end).

`s.At ctx t` says that the links below `s.root` form the tree `plug ctx t`, in the form a loop
at the place between `ctx` and `t` needs: what the surroundings store, what the subtree stores,
and that no node occurs twice. `s.Is t` is the case of the whole tree.
-/

namespace RbTree

open Color RbTree.Tree

/-- A pool of tree nodes with payload `α`, and the root pointer of the tree in it. -/
structure Rb (α : Type) where
  left : Nat → Option Nat
  right : Nat → Option Nat
  parent : Nat → Option Nat
  color : Nat → Color
  val : Nat → α
  root : Option Nat

namespace Rb

variable {α : Type}

@[simps -fullyApplied]
def setLeft (s : Rb α) (i : Nat) (p : Option Nat) : Rb α :=
  { s with left := Function.update s.left i p }

@[simps -fullyApplied]
def setRight (s : Rb α) (i : Nat) (p : Option Nat) : Rb α :=
  { s with right := Function.update s.right i p }

@[simps -fullyApplied]
def setParent (s : Rb α) (i : Nat) (p : Option Nat) : Rb α :=
  { s with parent := Function.update s.parent i p }

@[simps -fullyApplied]
def setColor (s : Rb α) (i : Nat) (c : Color) : Rb α :=
  { s with color := Function.update s.color i c }

@[simps -fullyApplied]
def setVal (s : Rb α) (i : Nat) (v : α) : Rb α :=
  { s with val := Function.update s.val i v }

@[simps -fullyApplied]
def setRoot (s : Rb α) (p : Option Nat) : Rb α := { s with root := p }

/-- Write the parent of the node `p` points at, if it points at one. -/
def setParent? (s : Rb α) (p : Option Nat) (q : Option Nat) : Rb α :=
  match p with
  | none => s
  | some i => s.setParent i q

/-- Paint the node `p` points at, if it points at one. -/
def setColor? (s : Rb α) (p : Option Nat) (c : Color) : Rb α :=
  match p with
  | none => s
  | some i => s.setColor i c

/-- Make whatever pointed down at `u` (the root pointer when `p` is `NULL`, else a child
pointer of `p`, the left one being tried first) point at `v`. -/
def relink (s : Rb α) (p : Option Nat) (u : Nat) (v : Option Nat) : Rb α :=
  match p with
  | none => s.setRoot v
  | some p => if s.left p = some u then s.setLeft p v else s.setRight p v

def isRed (s : Rb α) (p : Option Nat) : Bool :=
  match p with
  | none => false
  | some i => s.color i = red

def isBlack (s : Rb α) (p : Option Nat) : Bool :=
  match p with
  | none => true
  | some i => s.color i = black

/-- The pool with left and right exchanged everywhere. -/
@[simps -fullyApplied]
def mirror (s : Rb α) : Rb α := { s with left := s.right, right := s.left }

/-! ## Field by field -/

section fields

variable (s : Rb α) (i j : Nat) (p q : Option Nat) (c : Color) (v : α)

@[simp] theorem setParent?_none : s.setParent? none q = s := rfl
@[simp] theorem setParent?_some : s.setParent? (some i) q = s.setParent i q := rfl
@[simp] theorem setColor?_none : s.setColor? none c = s := rfl
@[simp] theorem setColor?_some : s.setColor? (some i) c = s.setColor i c := rfl
@[simp] theorem isRed_none : s.isRed none = false := rfl
@[simp] theorem isRed_some : s.isRed (some i) = decide (s.color i = red) := rfl
@[simp] theorem isBlack_none : s.isBlack none = true := rfl
@[simp] theorem isBlack_some : s.isBlack (some i) = decide (s.color i = black) := rfl
@[simp] theorem mirror_mirror : s.mirror.mirror = s := rfl

@[simp] theorem setParent?_left : (s.setParent? q p).left = s.left := by cases q <;> rfl
@[simp] theorem setParent?_right : (s.setParent? q p).right = s.right := by cases q <;> rfl
@[simp] theorem setParent?_color : (s.setParent? q p).color = s.color := by cases q <;> rfl

theorem setParent?_parent_of_ne (h : q ≠ some i) : (s.setParent? q p).parent i = s.parent i := by
  cases q with
  | none => rfl
  | some j => simp [Function.update_of_ne (fun e : i = j => h (by rw [e]))]

end fields

section relink

variable (s : Rb α) (p v : Option Nat) (u i : Nat)

@[simp] theorem relink_parent : (s.relink p u v).parent = s.parent := by
  cases p with
  | none => rfl
  | some p => simp only [relink]; split <;> rfl

@[simp] theorem relink_color : (s.relink p u v).color = s.color := by
  cases p with
  | none => rfl
  | some p => simp only [relink]; split <;> rfl

theorem relink_left_of_ne (h : p ≠ some i) : (s.relink p u v).left i = s.left i := by
  cases p with
  | none => rfl
  | some p =>
      have hi : i ≠ p := fun e => h (by rw [e])
      simp only [relink]
      split
      · simp [Function.update_of_ne hi]
      · rfl

theorem relink_right_of_ne (h : p ≠ some i) : (s.relink p u v).right i = s.right i := by
  cases p with
  | none => rfl
  | some p =>
      have hi : i ≠ p := fun e => h (by rw [e])
      simp only [relink]
      split
      · rfl
      · simp [Function.update_of_ne hi]

end relink

/-! ## What the links represent -/

/-- The links of the pool at the node `i` are the same in both states. -/
def SameNode (s s' : Rb α) (i : Nat) : Prop :=
  s'.left i = s.left i ∧ s'.right i = s.right i ∧ s'.parent i = s.parent i ∧
    s'.color i = s.color i

/-- The subtree below a pointer is `t`, with parent pointer `p`. -/
def Rep (s : Rb α) : Tree → Option Nat → Prop
  | nil, _ => True
  | node c l k r, p => s.color k = c ∧ s.left k = l.ptr ∧ s.right k = r.ptr ∧ s.parent k = p ∧
      s.Rep l (some k) ∧ s.Rep r (some k)

/-- The links of the ancestors in `ctx`, the place itself being filled by the pointer `h`. -/
def RepAround (s : Rb α) : List Frame → Option Nat → Prop
  | [], h => s.root = h
  | .left c k r :: up, h => s.color k = c ∧ s.left k = h ∧ s.right k = r.ptr ∧
      s.parent k = parentPtr up ∧ s.Rep r (some k) ∧ s.RepAround up (some k)
  | .right c l k :: up, h => s.color k = c ∧ s.left k = l.ptr ∧ s.right k = h ∧
      s.parent k = parentPtr up ∧ s.Rep l (some k) ∧ s.RepAround up (some k)

variable {s s' : Rb α} {t : Tree} {p : Option Nat} {ctx : List Frame} {i u : Nat} {l : List Nat}

theorem rep_congr (h : ∀ i ∈ t.ids, s.SameNode s' i) : s'.Rep t p ↔ s.Rep t p := by
  induction t generalizing p with
  | nil => simp [Rep]
  | node c l k r ihl ihr =>
      obtain ⟨h1, h2, h3, h4⟩ := h k (by simp)
      simp only [Rep, h1, h2, h3, h4, ihl (fun i hi => h i (by simp [hi])),
        ihr (fun i hi => h i (by simp [hi]))]

theorem repAround_congr (hr : s'.root = s.root) (hb : ∀ i ∈ before ctx, s.SameNode s' i)
    (ha : ∀ i ∈ after ctx, s.SameNode s' i) : s'.RepAround ctx p ↔ s.RepAround ctx p := by
  induction ctx generalizing p with
  | nil => simp [RepAround, hr]
  | cons f up ih =>
      cases f with
      | left c k r =>
          obtain ⟨h1, h2, h3, h4⟩ := ha k (by simp [after])
          have hrep : s'.Rep r (some k) ↔ s.Rep r (some k) :=
            rep_congr fun i hi => ha i (by simp [after, hi])
          simp only [RepAround, h1, h2, h3, h4, hrep,
            ih (fun i hi => hb i (by simpa [before] using hi))
              (fun i hi => ha i (by simp [after, hi]))]
      | right c l k =>
          obtain ⟨h1, h2, h3, h4⟩ := hb k (by simp [before])
          have hrep : s'.Rep l (some k) ↔ s.Rep l (some k) :=
            rep_congr fun i hi => hb i (by simp [before, hi])
          simp only [RepAround, h1, h2, h3, h4, hrep,
            ih (fun i hi => hb i (by simp [before, hi]))
              (fun i hi => ha i (by simpa [after] using hi))]

/-- The tree below `s.root` is `plug ctx t`, seen from the place between `ctx` and `t`. -/
@[mk_iff]
structure At (s : Rb α) (ctx : List Frame) (t : Tree) : Prop where
  around : s.RepAround ctx t.ptr
  rep : s.Rep t (parentPtr ctx)
  nodup : (plug ctx t).ids.Nodup

/-- The tree below `s.root` is `t`. -/
def Is (s : Rb α) (t : Tree) : Prop := s.At [] t

/-- A tree is read off the root pointer and the links of its nodes. -/
theorem Is.congr (h : s.Is t) (hroot : s'.root = s.root) (hnode : ∀ i ∈ t.ids, s.SameNode s' i) :
    s'.Is t :=
  ⟨hroot.trans h.around, (rep_congr hnode).mpr h.rep, h.nodup⟩

theorem at_cons {f : Frame} {up : List Frame} : s.At (f :: up) t ↔ s.At up (f.fill t) := by
  constructor
  · rintro ⟨ha, hr, hn⟩
    cases f with
    | left c k r =>
        obtain ⟨h1, h2, h3, h4, h5, h6⟩ := ha
        exact ⟨h6, ⟨h1, h2, h3, h4, hr, h5⟩, hn⟩
    | right c l k =>
        obtain ⟨h1, h2, h3, h4, h5, h6⟩ := ha
        exact ⟨h6, ⟨h1, h2, h3, h4, h5, hr⟩, hn⟩
  · rintro ⟨ha, hr, hn⟩
    cases f with
    | left c k r =>
        obtain ⟨h1, h2, h3, h4, h5, h6⟩ := hr
        exact ⟨⟨h1, h2, h3, h4, h6, ha⟩, h5, hn⟩
    | right c l k =>
        obtain ⟨h1, h2, h3, h4, h5, h6⟩ := hr
        exact ⟨⟨h1, h2, h3, h4, h5, ha⟩, h6, hn⟩

theorem at_append {a b : List Frame} : s.At (a ++ b) t ↔ s.At b (plug a t) := by
  induction a generalizing t with
  | nil => rfl
  | cons f a ih => rw [List.cons_append, at_cons, ih, plug_cons]

/-- Moving the place a tree is looked at from. -/
theorem at_iff_is : s.At ctx t ↔ s.Is (plug ctx t) := by
  have := at_append (s := s) (a := ctx) (b := []) (t := t)
  rwa [List.append_nil] at this

/-! ### Apart-ness

What `Nodup` of the in-order sequence of `plug ctx t` says, in the form the frame conditions
use it. -/

theorem At.notMem_before (h : s.At ctx t) (hi : i ∈ t.ids) : i ∉ before ctx := by
  have hn := h.nodup
  rw [ids_plug, List.nodup_append] at hn
  intro hb
  exact hn.2.2 i hb i (by simp [hi]) rfl

theorem At.notMem_after (h : s.At ctx t) (hi : i ∈ t.ids) : i ∉ after ctx := by
  have hn := h.nodup
  rw [ids_plug, List.nodup_append, List.nodup_append] at hn
  intro ha
  exact hn.2.1.2.2 i hi i ha rfl

theorem At.ids_nodup (h : s.At ctx t) : t.ids.Nodup := by
  have hn := h.nodup
  rw [ids_plug, List.nodup_append, List.nodup_append] at hn
  exact hn.2.1.1

theorem parentPtr_mem {p : Nat} (h : parentPtr ctx = some p) : p ∈ before ctx ∨ p ∈ after ctx := by
  cases ctx with
  | nil => simp at h
  | cons f up =>
      cases f with
      | left c k r =>
          have : k = p := by simpa [Frame.id] using h
          simp [after, this]
      | right c l k =>
          have : k = p := by simpa [Frame.id] using h
          simp [before, this]

theorem mem_plug {u : List Frame} (h : i ∈ t.ids) : i ∈ (plug u t).ids := by
  rw [ids_plug]
  simp [h]

theorem parentPtr_mem_plug {p : Nat} (h : parentPtr ctx = some p) : p ∈ (plug ctx t).ids := by
  rw [ids_plug]
  rcases parentPtr_mem h with hb | ha
  · simp [hb]
  · simp [ha]

/-- The surroundings of a tree in which no node comes twice. -/
theorem nodup_around (h : (plug ctx t).ids.Nodup) : (before ctx ++ after ctx).Nodup := by
  rw [ids_plug] at h
  exact h.sublist ((List.Sublist.refl _).append (List.sublist_append_right _ _))

theorem At.parentPtr_ne (h : s.At ctx t) (hi : i ∈ t.ids) : parentPtr ctx ≠ some i := by
  intro hp
  rcases parentPtr_mem hp with hb | ha
  · exact h.notMem_before hi hb
  · exact h.notMem_after hi ha

/-! ### What an operation leaves alone -/

/-- `s'` differs from `s` in the links of the nodes in `l` (and the root pointer) only; in
particular every payload is the same. -/
structure Only (l : List Nat) (s s' : Rb α) : Prop where
  node : ∀ i, i ∉ l → s.SameNode s' i
  val : s'.val = s.val

theorem SameNode.refl (s : Rb α) (i : Nat) : s.SameNode s i := ⟨rfl, rfl, rfl, rfl⟩

theorem SameNode.trans {s'' : Rb α} (h : s.SameNode s' i) (h' : s'.SameNode s'' i) : s.SameNode s'' i :=
  ⟨h'.1.trans h.1, h'.2.1.trans h.2.1, h'.2.2.1.trans h.2.2.1, h'.2.2.2.trans h.2.2.2⟩

theorem Only.refl (l : List Nat) (s : Rb α) : Only l s s := ⟨fun i _ => .refl s i, rfl⟩

theorem Only.trans {s'' : Rb α} (h : Only l s s') (h' : Only l s' s'') : Only l s s'' :=
  ⟨fun i hi => (h.node i hi).trans (h'.node i hi), h'.val.trans h.val⟩

theorem Only.mirror (h : Only l s s') : Only l s.mirror s'.mirror :=
  ⟨fun i hi => ⟨(h.node i hi).2.1, (h.node i hi).1, (h.node i hi).2.2⟩, h.val⟩

theorem Only.mono {l' : List Nat} (h : Only l s s') (hl : ∀ i ∈ l, i ∈ l') : Only l' s s' :=
  ⟨fun i hi => h.node i fun h' => hi (hl i h'), h.val⟩

/-! ### Frame conditions of the single writes -/

/-- A write to a field of the node `i`: every other node, the root pointer and the payloads are as they
were. -/
structure Writes (i : Nat) (s s' : Rb α) : Prop where
  node : ∀ j, j ≠ i → s.SameNode s' j
  root : s'.root = s.root
  val : s'.val = s.val

section frame

variable {s s' : Rb α} {t : Tree} {ctx : List Frame} {l : List Nat} {i : Nat} {p q v : Option Nat}
  {c : Color}

theorem writes_setLeft : Writes i s (s.setLeft i v) :=
  ⟨fun _ hj => ⟨Function.update_of_ne hj _ _, rfl, rfl, rfl⟩, rfl, rfl⟩

theorem writes_setRight : Writes i s (s.setRight i v) :=
  ⟨fun _ hj => ⟨rfl, Function.update_of_ne hj _ _, rfl, rfl⟩, rfl, rfl⟩

theorem writes_setParent : Writes i s (s.setParent i v) :=
  ⟨fun _ hj => ⟨rfl, rfl, Function.update_of_ne hj _ _, rfl⟩, rfl, rfl⟩

theorem writes_setColor : Writes i s (s.setColor i c) :=
  ⟨fun _ hj => ⟨rfl, rfl, rfl, Function.update_of_ne hj _ _⟩, rfl, rfl⟩

theorem Writes.rep (h : Writes i s s') (hi : i ∉ t.ids) : s'.Rep t p ↔ s.Rep t p :=
  rep_congr fun j hj => h.node j fun e => hi (e ▸ hj)

theorem Writes.repAround (h : Writes i s s') (hb : i ∉ before ctx) (ha : i ∉ after ctx) :
    s'.RepAround ctx p ↔ s.RepAround ctx p :=
  repAround_congr h.root (fun j hj => h.node j fun e => hb (e ▸ hj))
    fun j hj => h.node j fun e => ha (e ▸ hj)

theorem Writes.only (h : Writes i s s') (hi : i ∈ l) : Only l s s' :=
  ⟨fun j hj => h.node j fun e => hj (e ▸ hi), h.val⟩

theorem rep_setParent? (h : ∀ j ∈ t.ids, q ≠ some j) :
    (s.setParent? q v).Rep t p ↔ s.Rep t p := by
  cases q with
  | none => rfl
  | some j => exact writes_setParent.rep fun hj => h j hj rfl

theorem rep_relink (h : ∀ j ∈ t.ids, q ≠ some j) : (s.relink q u v).Rep t p ↔ s.Rep t p :=
  rep_congr fun j hj => by
    simp [SameNode, relink_left_of_ne _ _ _ _ _ (h j hj), relink_right_of_ne _ _ _ _ _ (h j hj)]

/-- Writing the parent pointer of a subtree's root. -/
theorem rep_setParent?_ptr (hn : t.ids.Nodup) (h : s.Rep t p) :
    (s.setParent? t.ptr v).Rep t v := by
  cases t with
  | nil => trivial
  | node c l k r =>
      obtain ⟨h1, h2, h3, h4, h5, h6⟩ := h
      simp only [Tree.ids_node, List.nodup_append, List.nodup_cons, List.mem_cons] at hn
      have hkl : k ∉ l.ids := fun hk => hn.2.2 k hk k (.inl rfl) rfl
      refine ⟨h1, h2, h3, by simp, ?_, ?_⟩
      · exact (writes_setParent.rep hkl).mpr h5
      · exact (writes_setParent.rep hn.2.1.1).mpr h6

theorem repAround_setParent? (hb : ∀ j ∈ before ctx, q ≠ some j)
    (ha : ∀ j ∈ after ctx, q ≠ some j) :
    (s.setParent? q v).RepAround ctx p ↔ s.RepAround ctx p := by
  cases q with
  | none => rfl
  | some j => exact writes_setParent.repAround (fun h => hb j h rfl) (fun h => ha j h rfl)

/-- Relinking the place: the surroundings then hold the new pointer. -/
theorem repAround_relink (h : s.RepAround ctx (some u)) (hn : (before ctx ++ after ctx).Nodup)
    (hu : u ∉ before ctx) : (s.relink (parentPtr ctx) u v).RepAround ctx v := by
  cases ctx with
  | nil => rfl
  | cons f up =>
      cases f with
      | left c k r =>
          obtain ⟨h1, h2, h3, h4, h5, h6⟩ := h
          simp only [before, after, List.nodup_append, List.cons_append, List.nodup_cons,
            List.mem_append, List.mem_cons] at hn
          obtain ⟨hb, ⟨hk, hr, haft, hra⟩, hd⟩ := hn
          have hkb : k ∉ before up := fun hk => hd k hk k (.inl rfl) rfl
          have hrl : s.relink (parentPtr (.left c k r :: up)) u v = s.setLeft k v := by
            simp [relink, Frame.id, h2]
          rw [hrl]
          refine ⟨h1, by simp, h3, h4, (writes_setLeft.rep fun h => hk (.inl h)).mpr h5, ?_⟩
          exact (writes_setLeft.repAround hkb fun h => hk (.inr h)).mpr h6
      | right c l k =>
          obtain ⟨h1, h2, h3, h4, h5, h6⟩ := h
          simp only [before, after, List.nodup_append, List.mem_append, List.mem_singleton] at hn
          obtain ⟨⟨hb, ⟨hl, -, hlk⟩, hbl⟩, haft, hd⟩ := hn
          have hkl : k ∉ l.ids := fun hk => hlk k hk k rfl rfl
          have hkb : k ∉ before up := fun hk => hbl k hk k (.inr rfl) rfl
          have hka : k ∉ after up := fun hk => hd k (.inr (.inr rfl)) k hk rfl
          have hul : l.ptr ≠ some u := fun e => hu (by simp [before, Tree.ptr_mem e])
          have hrl : s.relink (parentPtr (.right c l k :: up)) u v = s.setRight k v := by
            simp [relink, Frame.id, h2, hul]
          rw [hrl]
          refine ⟨h1, h2, by simp, h4, (writes_setRight.rep hkl).mpr h5, ?_⟩
          exact (writes_setRight.repAround hkb hka).mpr h6

theorem only_setRoot : Only l s (s.setRoot v) := ⟨fun _ _ => ⟨rfl, rfl, rfl, rfl⟩, rfl⟩

theorem only_setParent? (h : ∀ j, p = some j → j ∈ l) : Only l s (s.setParent? p v) := by
  cases p with
  | none => exact .refl l s
  | some j => exact writes_setParent.only (h j rfl)

theorem only_relink (h : ∀ j, p = some j → j ∈ l) : Only l s (s.relink p u v) := by
  cases p with
  | none => exact only_setRoot
  | some j =>
      simp only [relink]
      split
      · exact writes_setLeft.only (h j rfl)
      · exact writes_setRight.only (h j rfl)

end frame

/-! ### Reflection -/

theorem rep_mirror : s.mirror.Rep t.mirror p ↔ s.Rep t p := by
  induction t generalizing p with
  | nil => rfl
  | node c l k r ihl ihr =>
      simp only [Tree.mirror, Rep, ihl, ihr, mirror_left, mirror_right, mirror_parent,
        mirror_color, Tree.ptr_mirror]
      tauto

theorem repAround_mirror : s.mirror.RepAround (ctx.map Frame.mirror) p ↔ s.RepAround ctx p := by
  induction ctx generalizing p with
  | nil => rfl
  | cons f up ih =>
      cases f <;> simp only [List.map_cons, Frame.mirror, RepAround, rep_mirror, ih, mirror_left,
        mirror_right, mirror_parent, mirror_color, Tree.ptr_mirror, parentPtr_mirror]
      all_goals tauto

theorem at_mirror : s.mirror.At (ctx.map Frame.mirror) t.mirror ↔ s.At ctx t := by
  simp [at_iff, repAround_mirror, rep_mirror, plug_mirror]

end Rb

end RbTree
