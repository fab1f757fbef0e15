import Mathlib.Data.List.Nodup
import Mathlib.Tactic.Common

set_option autoImplicit false

/-! # Red-black trees of node identities, and the tree around a node

The shape a linked red-black tree has in memory, without the memory: a `Tree` is a tree of
coloured node identities. What the algorithms do to a node in the middle of a tree is described
through its *surroundings*: a list of `Frame`s, innermost first, each of which is an ancestor
together with the subtree on its other side. `plug ctx t` is the tree with `t` at the place
`ctx` leaves open.

* `Tree.ids` is the in-order sequence. Every rebalancing step keeps it, so anything that
  depends on the order alone (a search tree's invariant, the set of nodes) survives without
  an argument of its own.
* `Tree.Bal t c n`: `t` has root colour `c`, no red node with a red child and `n` black nodes
  on every path.
* `Around ctx c n`: filling `ctx` with a tree of root colour `c` and black height `n` gives a
  red-black tree with a black root.
-/

namespace RbTree

inductive Color where
  | red
  | black
  deriving DecidableEq, Repr

inductive Tree where
  | nil
  | node (c : Color) (l : Tree) (k : Nat) (r : Tree)
  deriving DecidableEq, Repr

open Color RbTree.Tree

namespace Tree

/-- The in-order sequence of node identities. -/
def ids : Tree → List Nat
  | nil => []
  | node _ l k r => l.ids ++ k :: r.ids

/-- The pointer to the root, `none` for the empty tree. -/
def ptr : Tree → Option Nat
  | nil => none
  | node _ _ k _ => some k

/-- The reflected tree. The algorithms treat left and right alike, and every statement about
one side is read off the other through this map. -/
def mirror : Tree → Tree
  | nil => nil
  | node c l k r => node c r.mirror k l.mirror

/-- The tree with its root painted black. -/
def blacken : Tree → Tree
  | nil => nil
  | node _ l k r => node black l k r

@[simp] theorem ids_nil : nil.ids = [] := rfl

@[simp] theorem ids_node (c : Color) (l r : Tree) (k : Nat) :
    (node c l k r).ids = l.ids ++ k :: r.ids := rfl

@[simp] theorem ptr_nil : nil.ptr = none := rfl

@[simp] theorem ptr_node (c : Color) (l r : Tree) (k : Nat) : (node c l k r).ptr = some k := rfl

theorem ptr_mem {t : Tree} {k : Nat} (h : t.ptr = some k) : k ∈ t.ids := by
  cases t with
  | nil => simp at h
  | node c l k' r => simp_all

theorem ptr_eq_none {t : Tree} : t.ptr = none ↔ t = nil := by
  cases t <;> simp

@[simp] theorem ptr_mirror (t : Tree) : t.mirror.ptr = t.ptr := by
  cases t <;> rfl

@[simp] theorem mirror_mirror (t : Tree) : t.mirror.mirror = t := by
  induction t with
  | nil => rfl
  | node c l k r ihl ihr => simp [mirror, ihl, ihr]

@[simp] theorem ids_mirror (t : Tree) : t.mirror.ids = t.ids.reverse := by
  induction t with
  | nil => rfl
  | node c l k r ihl ihr => simp [mirror, ihl, ihr]

@[simp] theorem ids_blacken (t : Tree) : t.blacken.ids = t.ids := by
  cases t <;> rfl

/-- Root colour `c`, no red node with a red child, `n` black nodes on every path down. -/
inductive Bal : Tree → Color → Nat → Prop where
  | nil : Bal nil black 0
  | red {l r : Tree} {k n : Nat} : Bal l black n → Bal r black n → Bal (node red l k r) red n
  | black {l r : Tree} {k n : Nat} {c c' : Color} :
      Bal l c n → Bal r c' n → Bal (node black l k r) black (n + 1)

theorem Bal.mirror {t : Tree} {c : Color} {n : Nat} (h : t.Bal c n) : t.mirror.Bal c n := by
  induction h with
  | nil => exact .nil
  | red _ _ ihl ihr => exact .red ihr ihl
  | black _ _ ihl ihr => exact .black ihr ihl

/-- A subtree whose root may be painted black is red-black after painting, whichever colour it
had: one level higher if it was red. -/
theorem Bal.blacken {t : Tree} {c : Color} {n : Nat} (h : t.Bal c n) :
    ∃ m, t.blacken.Bal Color.black m := by
  cases h with
  | nil => exact ⟨0, .nil⟩
  | red hl hr => exact ⟨_, .black hl hr⟩
  | black hl hr => exact ⟨_, .black hl hr⟩

end Tree

/-! ## The tree around a node -/

/-- One ancestor of a place in a tree: `left c k r` when the place is on the left of the node
`k` of colour `c`, whose right subtree is `r`; `right c l k` when it is on the right. -/
inductive Frame where
  | left (c : Color) (k : Nat) (r : Tree)
  | right (c : Color) (l : Tree) (k : Nat)
  deriving DecidableEq, Repr

namespace Frame

def fill : Frame → Tree → Tree
  | left c k r, t => node c t k r
  | right c l k, t => node c l k t

def id : Frame → Nat
  | left _ k _ => k
  | right _ _ k => k

def mirror : Frame → Frame
  | left c k r => right c r.mirror k
  | right c l k => left c k l.mirror

end Frame

/-- Put `t` at the place `ctx` leaves open. -/
def plug : List Frame → Tree → Tree
  | [], t => t
  | f :: up, t => plug up (f.fill t)

/-- The parent pointer of the open place. -/
def parentPtr : List Frame → Option Nat
  | [] => none
  | f :: _ => some f.id

/-- The identities that precede the open place in order. -/
def before : List Frame → List Nat
  | [] => []
  | .left _ _ _ :: up => before up
  | .right _ l k :: up => before up ++ (l.ids ++ [k])

/-- The identities that follow the open place in order. -/
def after : List Frame → List Nat
  | [] => []
  | .left _ k r :: up => k :: r.ids ++ after up
  | .right _ _ _ :: up => after up

@[simp] theorem plug_nil (t : Tree) : plug [] t = t := rfl

@[simp] theorem plug_cons (f : Frame) (up : List Frame) (t : Tree) :
    plug (f :: up) t = plug up (f.fill t) := rfl

theorem plug_append (a b : List Frame) (t : Tree) : plug (a ++ b) t = plug b (plug a t) := by
  induction a generalizing t with
  | nil => rfl
  | cons f a ih => simp [ih]

@[simp] theorem parentPtr_nil : parentPtr [] = none := rfl

@[simp] theorem parentPtr_cons (f : Frame) (up : List Frame) :
    parentPtr (f :: up) = some f.id := rfl

theorem ids_plug (ctx : List Frame) (t : Tree) :
    (plug ctx t).ids = before ctx ++ (t.ids ++ after ctx) := by
  induction ctx generalizing t with
  | nil => simp [before, after]
  | cons f up ih =>
      cases f with
      | left c k r => simp [ih, Frame.fill, before, after]
      | right c l k => simp [ih, Frame.fill, before, after]

variable {t : Tree} {ctx : List Frame} {c : Color} {n : Nat}

/-- Two trees with the same in-order sequence are interchangeable at a place, as far as the
in-order sequence of the whole is concerned. -/
theorem ids_plug_congr (ctx : List Frame) {u : Tree} (h : t.ids = u.ids) :
    (plug ctx t).ids = (plug ctx u).ids := by
  rw [ids_plug, ids_plug, h]

theorem before_append (a b : List Frame) : before (a ++ b) = before b ++ before a := by
  induction a with
  | nil => simp [before]
  | cons f a ih => cases f <;> simp [before, ih]

theorem after_append (a b : List Frame) : after (a ++ b) = after a ++ after b := by
  induction a with
  | nil => simp [after]
  | cons f a ih => cases f <;> simp [after, ih]

/-- Every node of a tree is the root of a subtree at some place. -/
theorem exists_plug {k : Nat} (h : k ∈ t.ids) : ∃ ctx c l r, t = plug ctx (node c l k r) := by
  induction t with
  | nil => simp at h
  | node c l k' r ihl ihr =>
      rw [Tree.ids_node, List.mem_append, List.mem_cons] at h
      rcases h with h | rfl | h
      · obtain ⟨ctx, c', l', r', rfl⟩ := ihl h
        exact ⟨ctx ++ [.left c k' r], c', l', r', by simp [plug_append, Frame.fill]⟩
      · exact ⟨[], c, l, r, rfl⟩
      · obtain ⟨ctx, c', l', r', rfl⟩ := ihr h
        exact ⟨ctx ++ [.right c l k'], c', l', r', by simp [plug_append, Frame.fill]⟩

/-- `Around ctx c n`: the place is open for a tree of root colour `c` and black height `n`. A
place below a red node takes black trees only, one below a black node takes either colour, and
the root is black. -/
inductive Around : List Frame → Color → Nat → Prop where
  | root {n : Nat} : Around [] black n
  | redLeft {r : Tree} {k n : Nat} {up : List Frame} :
      r.Bal black n → Around up red n → Around (.left red k r :: up) black n
  | redRight {l : Tree} {k n : Nat} {up : List Frame} :
      l.Bal black n → Around up red n → Around (.right red l k :: up) black n
  | blackLeft {r : Tree} {k n : Nat} {up : List Frame} {c c' : Color} :
      r.Bal c n → Around up black (n + 1) → Around (.left black k r :: up) c' n
  | blackRight {l : Tree} {k n : Nat} {up : List Frame} {c c' : Color} :
      l.Bal c n → Around up black (n + 1) → Around (.right black l k :: up) c' n

theorem Around.mirror (h : Around ctx c n) : Around (ctx.map Frame.mirror) c n := by
  induction h with
  | root => exact .root
  | redLeft hr _ ih => exact .redRight hr.mirror ih
  | redRight hl _ ih => exact .redLeft hl.mirror ih
  | blackLeft hr _ ih => exact .blackRight hr.mirror ih
  | blackRight hl _ ih => exact .blackLeft hl.mirror ih

theorem Around.fill (h : Around ctx c n) (ht : t.Bal c n) : ∃ m, (plug ctx t).Bal black m := by
  induction h generalizing t with
  | root => exact ⟨_, ht⟩
  | redLeft hr _ ih => exact ih (.red ht hr)
  | redRight hl _ ih => exact ih (.red hl ht)
  | blackLeft hr _ ih => exact ih (.black ht hr)
  | blackRight hl _ ih => exact ih (.black hl ht)

/-- A place where a red tree may stand takes a black tree of the same black height as well. -/
theorem Around.of_red (h : Around ctx red n) : Around ctx c n := by
  cases h with
  | blackLeft hr hup => exact .blackLeft hr hup
  | blackRight hl hup => exact .blackRight hl hup

/-- Taking a red-black tree apart at a place. -/
theorem around_of_plug {m : Nat} (h : (plug ctx t).Bal black m) :
    ∃ c n, t.Bal c n ∧ Around ctx c n := by
  induction ctx generalizing t with
  | nil => exact ⟨black, m, h, .root⟩
  | cons f up ih =>
      obtain ⟨c, n, hf, hup⟩ := ih h
      cases f with
      | left c' k r =>
          cases hf with
          | red hl hr => exact ⟨_, _, hl, .redLeft hr hup⟩
          | black hl hr => exact ⟨_, _, hl, .blackLeft hr hup⟩
      | right c' l k =>
          cases hf with
          | red hl hr => exact ⟨_, _, hr, .redRight hl hup⟩
          | black hl hr => exact ⟨_, _, hr, .blackRight hl hup⟩

/-! ## Reflected surroundings -/

@[simp] theorem Frame.id_mirror (f : Frame) : f.mirror.id = f.id := by
  cases f <;> rfl

@[simp] theorem parentPtr_mirror (ctx : List Frame) :
    parentPtr (ctx.map Frame.mirror) = parentPtr ctx := by
  cases ctx <;> simp

theorem plug_mirror (ctx : List Frame) (t : Tree) :
    plug (ctx.map Frame.mirror) t.mirror = (plug ctx t).mirror := by
  induction ctx generalizing t with
  | nil => rfl
  | cons f up ih =>
      have hf : f.mirror.fill t.mirror = (f.fill t).mirror := by cases f <;> rfl
      simp [hf, ih]

theorem Frame.mirror_mirror (f : Frame) : f.mirror.mirror = f := by
  cases f <;> simp [Frame.mirror]

@[simp] theorem map_mirror_mirror (ctx : List Frame) :
    (ctx.map Frame.mirror).map Frame.mirror = ctx := by
  induction ctx with
  | nil => rfl
  | cons f up ih => simp only [List.map_cons, Frame.mirror_mirror, ih]

end RbTree
