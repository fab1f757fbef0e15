import Arcline.RbTree.Delete
import Mathlib.Data.List.Induction

set_option autoImplicit false

/-! # Taking a node out of a linked red-black tree

`unlink` takes the node `z` out of the tree: a node with at most one child is replaced by that
child, one with two children by its successor `y`, the leftmost node of the right subtree, which
takes over `z`'s place and colour. `rbDelete` then repairs the colours when the node that left its
place was black.
-/

namespace RbTree

open Color RbTree.Tree

namespace Rb

variable {α : Type} (rotL rotR : Rb α → Nat → Option (Rb α))

variable {s : Rb α} {ctx ctx2 : List Frame} {z y m fuel : Nat} {p : Option Nat} {c cy : Color}
  {t l r ry L : Tree}
  (onNull : Rb α → Nat → Option (Rb α × Bool))

/-- Replace the subtree at `u` by the one at `v`. -/
def transplant (s : Rb α) (u : Nat) (v : Option Nat) : Rb α :=
  let s := s.relink (s.parent u) u v
  s.setParent? v (s.parent u)

/-- The leftmost node below `n`, with a bound on the steps. -/
def treeMin : Nat → Rb α → Nat → Option Nat
  | 0, _, _ => none
  | fuel + 1, s, n =>
      match s.left n with
      | none => some n
      | some l => treeMin fuel s l

/-- What `unlink` hands to the fixup: the pool, the subtree `x` that moved up, its parent, and
the colour of the node that left its place. -/
structure Unlinked (α : Type) where
  pool : Rb α
  x : Option Nat
  xp : Option Nat
  color : Color

/-- The node `y`, which has no left child, takes the place of `z`, with `z`'s left child and
colour. -/
def takePlace (s : Rb α) (z y : Nat) : Rb α :=
  let s := s.transplant z (some y)
  let s := s.setLeft y (s.left z)
  let s := s.setParent? (s.left y) (some y)
  s.setColor y (s.color z)

def unlink (fuel : Nat) (s : Rb α) (z : Nat) : Option (Unlinked α) :=
  match s.left z with
  | none => some ⟨s.transplant z (s.right z), s.right z, s.parent z, s.color z⟩
  | some l =>
      match s.right z with
      | none => some ⟨s.transplant z (some l), some l, s.parent z, s.color z⟩
      | some r =>
          (treeMin fuel s r).map fun y =>
            if s.parent y = some z then
              ⟨(s.setParent? (s.right y) (some y)).takePlace z y, s.right y, some y, s.color y⟩
            else
              let s1 := s.transplant y (s.right y)
              let s1 := s1.setRight y (s1.right z)
              let s1 := s1.setParent? (s1.right y) (some y)
              ⟨s1.takePlace z y, s.right y, s.parent y, s.color y⟩

def rbDelete (fuel : Nat) (s : Rb α) (z : Nat) : Option (Rb α) :=
  (unlink fuel s z).bind fun u =>
    if u.color = black then deleteFixup rotL rotR onNull fuel u.pool u.x u.xp else some u.pool

/-! ## Replacing a subtree -/

theorem transplant_at {v : Tree} (ha : s.RepAround ctx (some z)) (hp : s.parent z = parentPtr ctx)
    (hv : s.Rep v p) (hn : (plug ctx v).ids.Nodup) (hz : z ∉ before ctx) :
    (s.transplant z v.ptr).At ctx v := by
  have hparts := hn
  rw [ids_plug, List.nodup_append, List.nodup_append] at hparts
  obtain ⟨-, ⟨hvn, -, hva⟩, hbv⟩ := hparts
  have hpv : ∀ j ∈ v.ids, parentPtr ctx ≠ some j := by
    intro j hj e
    rcases parentPtr_mem e with h | h
    · exact hbv j h j (by simp [hj]) rfl
    · exact hva j hj j h rfl
  have htr : s.transplant z v.ptr
      = (s.relink (parentPtr ctx) z v.ptr).setParent? v.ptr (parentPtr ctx) := by
    simp only [transplant, hp, relink_parent]
  rw [htr]
  refine ⟨?_, ?_, ?_⟩
  · rw [repAround_setParent?]
    · exact repAround_relink ha (nodup_around hn) hz
    · exact fun j hj e => hbv j hj j (by simp [Tree.ptr_mem e]) rfl
    · exact fun j hj e => hva j (Tree.ptr_mem e) j hj rfl
  · exact rep_setParent?_ptr hvn ((rep_relink hpv).mpr hv)
  · exact hn

theorem only_transplant {l : List Nat} {v : Option Nat} (hp : ∀ j, s.parent z = some j → j ∈ l)
    (hv : ∀ j, v = some j → j ∈ l) : Only l s (s.transplant z v) := by
  unfold transplant
  exact (only_relink hp).trans (only_setParent? hv)

/-- What `transplant` does to a subtree away from the place. -/
theorem rep_transplant {v : Option Nat} (hp : ∀ j ∈ t.ids, s.parent z ≠ some j)
    (hv : ∀ j ∈ t.ids, v ≠ some j) : (s.transplant z v).Rep t p ↔ s.Rep t p := by
  unfold transplant
  rw [rep_setParent? hv, rep_relink hp]

/-- `takePlace` on a pool in which `y` is the root of a detached tree without a left child. -/
theorem takePlace_at (ha : s.RepAround ctx (some z)) (hpz : s.parent z = parentPtr ctx)
    (hcz : s.color z = c) (hlz : s.left z = l.ptr) (hl : s.Rep l (some z))
    (hy : s.Rep (node cy nil y r) p) (hn : (plug ctx (node c l y r)).ids.Nodup)
    (hz : z ∉ before ctx ++ (l.ids ++ y :: r.ids) ++ after ctx) :
    (s.takePlace z y).At ctx (node c l y r) ∧
      Only (plug ctx (node c l y r)).ids s (s.takePlace z y) := by
  have hn' := hn
  rw [ids_plug, List.nodup_append, List.nodup_append] at hn
  obtain ⟨hb, ⟨hlr, haft, hva⟩, hbv⟩ := hn
  rw [Tree.ids_node, List.nodup_append, List.nodup_cons] at hlr
  obtain ⟨hln, ⟨hyr, hrn⟩, hlyr⟩ := hlr
  simp only [List.mem_append, List.mem_cons, not_or] at hz
  obtain ⟨⟨hzb, hzl, hzy, hzr⟩, hza⟩ := hz
  have hyl : y ∉ l.ids := fun h => hlyr y h y (by simp) rfl
  have hyb : y ∉ before ctx := fun h => hbv y h y (by simp) rfl
  have hya : y ∉ after ctx := fun h => hva y (by simp) y h rfl
  have hpne : ∀ j, parentPtr ctx = some j → j ∉ l.ids ∧ j ≠ y := by
    intro j hj
    rcases parentPtr_mem hj with h | h
    · exact ⟨fun hl => hbv j h j (by simp [hl]) rfl, fun e => hyb (e ▸ h)⟩
    · exact ⟨fun hl => hva j (by simp [hl]) j h rfl, fun e => hya (e ▸ h)⟩
  have hn1 : (plug ctx (node cy nil y r)).ids.Nodup := by
    rw [ids_plug] at hn' ⊢
    refine hn'.sublist ?_
    simp
  have h1 := transplant_at (v := node cy nil y r) ha hpz hy hn1 hzb
  have hl1 : (s.transplant z (some y)).Rep l (some z) := by
    refine (rep_transplant ?_ ?_).mpr hl
    · intro j hj e
      rw [hpz] at e
      exact (hpne j e).1 hj
    · intro j hj e
      exact hyl ((Option.some.inj e) ▸ hj)
  have hlz1 : (s.transplant z (some y)).left z = l.ptr := by
    unfold transplant
    rw [setParent?_left, relink_left_of_ne]
    · exact hlz
    · rw [hpz]
      intro e
      rcases parentPtr_mem e with h | h
      · exact hzb h
      · exact hza h
  have hcz1 : (s.transplant z (some y)).color z = c := by
    simp [transplant, hcz]
  have htp : s.takePlace z y
      = (((s.transplant z (some y)).setLeft y l.ptr).setParent? l.ptr (some y)).setColor y c := by
    simp only [takePlace, hlz1, setLeft_left, Function.update_self, setParent?_color,
      setLeft_color, hcz1]
  rw [htp]
  obtain ⟨-, -, hr1, hp1, -, hrr1⟩ := h1.rep
  have hrep : (((s.transplant z (some y)).setLeft y l.ptr).setParent? l.ptr (some y)).At ctx
      (node cy l y r) := by
    refine ⟨?_, ⟨?_, ?_, ?_, ?_, ?_, ?_⟩, ?_⟩
    · rw [repAround_setParent?, writes_setLeft.repAround hyb hya]
      · exact h1.around
      · exact fun j hj e => hbv j hj j (by simp [Tree.ptr_mem e]) rfl
      · exact fun j hj e => hva j (by simp [Tree.ptr_mem e]) j hj rfl
    · simpa using h1.rep.1
    · simp
    · simpa using hr1
    · rw [setParent?_parent_of_ne]
      · simpa using hp1
      · exact fun e => hyl (Tree.ptr_mem e)
    · exact rep_setParent?_ptr hln ((writes_setLeft.rep hyl).mpr hl1)
    · rw [rep_setParent?, writes_setLeft.rep hyr]
      · exact hrr1
      · exact fun j hj e => hlyr j (Tree.ptr_mem e) j (by simp [hj]) rfl
    · rwa [ids_plug_congr ctx (u := node c l y r) (by simp)]
  refine ⟨At.setColor hrep, ?_⟩
  have hy' : y ∈ (plug ctx (node c l y r)).ids := mem_plug (by simp)
  have htr : Only (plug ctx (node c l y r)).ids s (s.transplant z (some y)) := by
    refine only_transplant ?_ ?_
    · exact fun j hj => parentPtr_mem_plug (hpz.symm.trans hj)
    · intro j hj
      rw [← Option.some.inj hj]
      exact hy'
  refine ((htr.trans (writes_setLeft.only hy')).trans (only_setParent? ?_)).trans (writes_setColor.only hy')
  exact fun j hj => mem_plug (by simp [Tree.ptr_mem hj])

/-! ## The successor -/

/-- The leftmost node of a tree: the way down to it goes left only. -/
theorem exists_min (c : Color) (l : Tree) (k : Nat) (r : Tree) :
    ∃ ctx cy y ry, node c l k r = plug ctx (node cy nil y ry) ∧
      (plug ctx (node cy nil y ry)).ptr = some k ∧ before ctx = [] ∧
      (∀ f ∈ ctx, ∃ c k r, f = Frame.left c k r) := by
  induction l generalizing c k r with
  | nil => exact ⟨[], c, k, r, rfl, rfl, rfl, by simp⟩
  | node c' l' k' r' ih _ =>
      obtain ⟨ctx, cy, y, ry, h, -, hb, hf⟩ := ih c' k' r'
      refine ⟨ctx ++ [.left c k r], cy, y, ry, ?_, ?_, ?_, ?_⟩
      · rw [plug_append, ← h]
        rfl
      · rw [plug_append]
        rfl
      · simp [before_append, before, hb]
      · intro f hf'
        rcases List.mem_append.mp hf' with h1 | h1
        · exact hf f h1
        · exact ⟨c, k, r, by simpa using h1⟩

theorem treeMin_spec {r : Nat} (h : s.Rep (plug ctx (node cy nil y ry)) p)
    (hf : ∀ f ∈ ctx, ∃ c k r, f = Frame.left c k r) (hr : (plug ctx (node cy nil y ry)).ptr = some r)
    (hfuel : ctx.length < fuel) : treeMin fuel s r = some y := by
  -- walk down from the outermost frame
  induction ctx using List.reverseRecOn generalizing fuel r p with
  | nil =>
      have : y = r := by simpa using hr
      subst this
      rcases fuel with _ | fuel
      · omega
      have hl : s.left y = none := h.2.1
      simp [treeMin, hl]
  | append_singleton ctx f ih =>
      obtain ⟨c, k, rt, rfl⟩ := hf f (by simp)
      rw [plug_append] at h hr
      have hk : k = r := by simpa [Frame.fill] using hr
      subst hk
      rcases fuel with _ | fuel
      · omega
      obtain ⟨-, hl, -, -, hsub, -⟩ := h
      have hlen : ctx.length < fuel := by
        simp only [List.length_append, List.length_cons, List.length_nil] at hfuel
        omega
      obtain ⟨r', hr'⟩ : ∃ r', (plug ctx (node cy nil y ry)).ptr = some r' := by
        cases hq : plug ctx (node cy nil y ry) with
        | nil =>
            have : y ∈ (plug ctx (node cy nil y ry)).ids := mem_plug (by simp)
            simp [hq] at this
        | node c' l' k' r' => exact ⟨k', rfl⟩
      rw [treeMin, hl, hr']
      exact ih hsub (fun f hf' => hf f (by simp [hf'])) hr' hlen

/-! ## Unlinking -/

/-- Renaming the node of a frame does not change what the place is open for. -/
theorem around_rename {a b : List Frame} {c' : Color} {n : Nat}
    (h : Around (a ++ .right c l z :: b) c' n) : Around (a ++ .right c l y :: b) c' n := by
  induction a generalizing c' n with
  | nil =>
      cases h with
      | redRight hl hup => exact .redRight hl hup
      | blackRight hl hup => exact .blackRight hl hup
  | cons f a ih =>
      cases h with
      | redLeft hr hup => exact .redLeft hr (ih hup)
      | redRight hl hup => exact .redRight hl (ih hup)
      | blackLeft hr hup => exact .blackLeft hr (ih hup)
      | blackRight hl hup => exact .blackRight hl (ih hup)

/-- What is known after unlinking: if a red node left its place, the tree is red-black; if a
black one did, the place is where the fixup starts. -/
def UnlinkedOk (u : Unlinked α) (ctx : List Frame) (t : Tree) : Prop :=
  u.pool.At ctx t ∧ u.x = t.ptr ∧ u.xp = parentPtr ctx ∧
    (u.color = red → ∃ m, (plug ctx t).Bal black m) ∧
    (u.color = black → ∃ n, Deleting u.pool ctx t n)

/-- Moving up the only child `t` of a node of colour `c`. -/
theorem unlinkedOk_of_bal {u : Unlinked α} {c' : Color} {n : Nat} (hat : u.pool.At ctx t)
    (hx : u.x = t.ptr) (hxp : u.xp = parentPtr ctx) (hc : u.color = c) (ht : t.Bal c' n)
    (hred : c = red → c' = black) (haround : Around ctx c (if c = black then n + 1 else n)) :
    UnlinkedOk u ctx t := by
  refine ⟨hat, hx, hxp, fun h => ?_, fun h => ?_⟩
  · have hcr : c = red := hc.symm.trans h
    subst hcr
    have := hred rfl
    subst this
    exact (Around.of_red haround).fill ht
  · have hcb : c = black := hc.symm.trans h
    subst hcb
    refine ⟨n, hat, haround, ?_⟩
    cases ht with
    | nil => exact .inl .nil
    | red hl hr => exact .inr ⟨_, _, _, rfl, .black hl hr⟩
    | black hl hr => exact .inl (.black hl hr)

/-- The two subtrees of a red-black tree at a place, and what the place is open for. -/
theorem around_children (h : (plug ctx (node c l z r)).Bal black m) :
    ∃ c1 c2 n, l.Bal c1 n ∧ r.Bal c2 n ∧ (c = red → c1 = black ∧ c2 = black) ∧
      Around ctx c (if c = black then n + 1 else n) := by
  obtain ⟨c', n', ht, har⟩ := around_of_plug h
  cases ht with
  | red hl hr => exact ⟨_, _, _, hl, hr, fun _ => ⟨rfl, rfl⟩, har⟩
  | black hl hr => exact ⟨_, _, _, hl, hr, nofun, har⟩

theorem setParent?_self {q : Option Nat} (h : ∀ i, p = some i → s.parent i = q) :
    s.setParent? p q = s := by
  cases p with
  | none => rfl
  | some i =>
      have : Function.update s.parent i q = s.parent := by
        rw [← h i rfl, Function.update_eq_self]
      simp only [setParent?, setParent, this]

theorem length_le_ids (ctx : List Frame) (t : Tree) : ctx.length ≤ (plug ctx t).ids.length := by
  have h : ctx.length ≤ (before ctx).length + (after ctx).length := by
    induction ctx with
    | nil => simp
    | cons f up ih => cases f <;> simp [before, after] <;> omega
  rw [ids_plug]
  simp only [List.length_append]
  omega

/-- The nodes that stay when the successor `y` of `z` takes its place. -/
theorem successor_nodup (hat : s.At ctx (node c L z (plug ctx2 (node cy nil y ry))))
    (hb2 : before ctx2 = []) :
    (plug ctx (node c L y (plug ctx2 ry))).ids.Nodup ∧
      z ∉ before ctx ++ (L.ids ++ y :: (plug ctx2 ry).ids) ++ after ctx := by
  have hids : (plug ctx (node c L z (plug ctx2 (node cy nil y ry)))).ids
      = before ctx ++ (L.ids ++ z :: y :: (ry.ids ++ after ctx2) ++ after ctx) := by
    rw [ids_plug, Tree.ids_node, ids_plug, hb2]
    simp
  have hids' : (plug ctx (node c L y (plug ctx2 ry))).ids
      = before ctx ++ (L.ids ++ y :: (ry.ids ++ after ctx2) ++ after ctx) := by
    rw [ids_plug, Tree.ids_node, ids_plug, hb2]
    simp
  have hn := hat.nodup
  rw [hids] at hn
  refine ⟨?_, ?_⟩
  · rw [hids']
    refine hn.sublist ?_
    simp
  · rw [ids_plug, hb2]
    simp only [List.nodup_append, List.nodup_cons, List.mem_append, List.mem_cons,
      List.append_assoc, List.cons_append, List.nil_append, not_or] at hn ⊢
    obtain ⟨-, ⟨-, ⟨⟨h1, h2, h3, h4⟩, -⟩, h5⟩, h6⟩ := hn
    exact ⟨fun h => h6 z h z (.inr (.inl rfl)) rfl, fun h => h5 z h z (.inl rfl) rfl, h1, h2, h3,
      h4⟩

/-- The successor is the right child of `z`: it takes the place at once. -/
theorem takePlace_child (hat : s.At ctx (node c L z (node cy nil y ry))) :
    ((s.setParent? (s.right y) (some y)).takePlace z y).At ctx (node c L y ry) ∧
      Only (plug ctx (node c L y ry)).ids s ((s.setParent? (s.right y) (some y)).takePlace z y) := by
  obtain ⟨hcz, hlz, -, hpz, hl, hr⟩ := hat.rep
  obtain ⟨-, -, hry, -, -, hryrep⟩ := id hr
  have hat' : s.At ctx (node c L z (plug [] (node cy nil y ry))) := hat
  obtain ⟨hnd, hz⟩ := successor_nodup hat' rfl
  have hself : s.setParent? (s.right y) (some y) = s := by
    refine setParent?_self fun i hi => ?_
    rw [hry] at hi
    cases ry with
    | nil => simp at hi
    | node c' l' k' r' =>
        have : k' = i := by simpa using hi
        rw [← this]
        exact hryrep.2.2.2.1
  rw [hself]
  exact takePlace_at hat.around hpz hcz hlz hl hr hnd hz

/-- The successor is taken out. -/
theorem transplant_successor (hat : s.At ctx (node c L z (plug ctx2 (node cy nil y ry)))) :
    (s.transplant y (s.right y)).At ctx (node c L z (plug ctx2 ry)) := by
  have hat2 : s.At (ctx2 ++ .right c L z :: ctx) (node cy nil y ry) := at_append.mpr (at_cons.mpr hat)
  obtain ⟨-, -, hry, hpy, -, hryrep⟩ := hat2.rep
  have hat1 : (s.transplant y (s.right y)).At (ctx2 ++ .right c L z :: ctx) ry := by
    rw [hry]
    refine transplant_at hat2.around hpy hryrep ?_ (hat2.notMem_before (by simp))
    have hn := hat2.nodup
    rw [ids_plug] at hn ⊢
    refine hn.sublist ?_
    simp
  exact at_cons.mp (at_append.mp hat1)

/-- The successor is further down, below the frame `f`: it is taken out first, and takes over the right
subtree of `z`. -/
theorem takePlace_below {f : Frame} (hat : s.At ctx (node c L z (plug (f :: ctx2) (node cy nil y ry))))
    (hb2 : before (f :: ctx2) = []) (hfid : f.id ∈ after (f :: ctx2)) :
    ((((s.transplant y (s.right y)).setRight y (plug (f :: ctx2) ry).ptr).setParent?
        (plug (f :: ctx2) ry).ptr (some y)).takePlace z y).At ctx (node c L y (plug (f :: ctx2) ry)) ∧
      Only (plug ctx (node c L y (plug (f :: ctx2) ry))).ids s
        (((s.transplant y (s.right y)).setRight y (plug (f :: ctx2) ry).ptr).setParent?
          (plug (f :: ctx2) ry).ptr (some y) |>.takePlace z y) := by
  obtain ⟨hnd, hz⟩ := successor_nodup hat hb2
  have hat2 : s.At ((f :: ctx2) ++ .right c L z :: ctx) (node cy nil y ry) :=
    at_append.mpr (at_cons.mpr hat)
  obtain ⟨hcy, hly, hry, hpy, -⟩ := hat2.rep
  have hat1 := transplant_successor hat
  set s1 := s.transplant y (s.right y) with hs1
  obtain ⟨hcz1, hlz1, -, hpz1, hl1, hr1⟩ := hat1.rep
  set r' := plug (f :: ctx2) ry with hr'
  -- what `y` may not meet
  have hn' := hnd
  rw [ids_plug, Tree.ids_node, List.nodup_append, List.nodup_append, List.nodup_append,
    List.nodup_cons] at hn'
  obtain ⟨-, ⟨⟨-, ⟨hyr', hr'n⟩, hLy⟩, -, hma⟩, hmb⟩ := hn'
  have hyL : y ∉ L.ids := fun h => hLy y h y (by simp) rfl
  have hyb : y ∉ before ctx := fun h => hmb y h y (by simp) rfl
  have hya : y ∉ after ctx := fun h => hma y (by simp) y h rfl
  have hly1 : s1.left y = none := by
    rw [hs1, transplant, setParent?_left, relink_left_of_ne, hly, Tree.ptr_nil]
    exact hat2.parentPtr_ne (by simp) ∘ hpy.symm.trans
  have hcy1 : s1.color y = cy := by simp [hs1, transplant, hcy]
  set s3 := (s1.setRight y r'.ptr).setParent? r'.ptr (some y) with hs3
  have hrep3 : s3.Rep (node cy nil y r') (s3.parent y) := by
    refine ⟨by simp [hs3, hcy1], by simp [hs3, hly1], by simp [hs3], rfl, trivial, ?_⟩
    exact rep_setParent?_ptr hr'n ((writes_setRight.rep hyr').mpr hr1)
  have hznr : r'.ptr ≠ some z := fun e => hz (by simp [Tree.ptr_mem e])
  have haround : s3.RepAround ctx (some z) := by
    rw [hs3, repAround_setParent?, writes_setRight.repAround hyb hya]
    · exact hat1.around
    · exact fun j hj e => hmb j hj j (by simp [Tree.ptr_mem e]) rfl
    · exact fun j hj e => hma j (by simp [Tree.ptr_mem e]) j hj rfl
  have hleft : s3.Rep L (some z) := by
    rw [hs3, rep_setParent?, writes_setRight.rep hyL]
    · exact hl1
    · exact fun j hj e => hLy j hj j (by simp [Tree.ptr_mem e]) rfl
  have hparent : s3.parent z = parentPtr ctx := by
    rw [hs3, setParent?_parent_of_ne _ _ _ _ hznr]
    exact hpz1
  have htake := takePlace_at haround hparent (by simpa [hs3] using hcz1) (by simpa [hs3] using hlz1)
    hleft hrep3 hnd hz
  refine ⟨htake.1, ?_⟩
  have hy' : y ∈ (plug ctx (node c L y r')).ids := mem_plug (by simp)
  have hmr : ∀ j ∈ r'.ids, j ∈ (plug ctx (node c L y r')).ids :=
    fun j hj => mem_plug (by simp [hj])
  refine ((Only.trans ?_ (writes_setRight.only hy')).trans (only_setParent? ?_)).trans htake.2
  · refine only_transplant ?_ ?_
    · intro j hj
      have hj' : some f.id = some j := hpy.symm.trans hj
      refine hmr j ?_
      rw [hr', ids_plug, ← Option.some.inj hj']
      simp [hfid]
    · intro j hj
      rw [hry] at hj
      refine hmr j ?_
      rw [hr', ids_plug]
      simp [Tree.ptr_mem hj]
  · exact fun j hj => hmr j (Tree.ptr_mem hj)

/-- Unlinking a node with two children: the successor `y` takes the place, and its right subtree
`ry` moves up to where it was. -/
theorem unlink_successor {kl kr : Nat} (hat : s.At ctx (node c L z (plug ctx2 (node cy nil y ry))))
    (hL : L.ptr = some kl) (hkr : (plug ctx2 (node cy nil y ry)).ptr = some kr) (hb2 : before ctx2 = [])
    (hf2 : ∀ f ∈ ctx2, ∃ c k r, f = Frame.left c k r) (hlen : ctx2.length < fuel) :
    ∃ u, unlink fuel s z = some u ∧ u.pool.At ctx (node c L y (plug ctx2 ry)) ∧
      u.x = ry.ptr ∧ u.xp = parentPtr (ctx2 ++ .right c L y :: ctx) ∧ u.color = cy ∧
      Only (plug ctx (node c L y (plug ctx2 ry))).ids s u.pool := by
  obtain ⟨-, hlz, hrz, -, -, hr⟩ := hat.rep
  have hmin : treeMin fuel s kr = some y := treeMin_spec hr hf2 hkr hlen
  have hunlink : unlink fuel s z = some (if s.parent y = some z then
      ⟨(s.setParent? (s.right y) (some y)).takePlace z y, s.right y, some y, s.color y⟩
    else
      ⟨((((s.transplant y (s.right y)).setRight y ((s.transplant y (s.right y)).right z)).setParent?
        (((s.transplant y (s.right y)).setRight y ((s.transplant y (s.right y)).right z)).right y)
        (some y)).takePlace z y), s.right y, s.parent y, s.color y⟩) := by
    simp only [unlink, hlz, hL, hrz, hkr, hmin, Option.map_some]
  cases ctx2 with
  | nil =>
      obtain ⟨hcy, -, hry, hpy, -⟩ := hr
      obtain ⟨htake, honly⟩ := takePlace_child hat
      refine ⟨_, hunlink.trans (by rw [if_pos hpy]), htake, hry, rfl, hcy, ?_⟩
      exact honly
  | cons f ctx2 =>
      have hat2 : s.At ((f :: ctx2) ++ .right c L z :: ctx) (node cy nil y ry) :=
        at_append.mpr (at_cons.mpr hat)
      obtain ⟨hcy, -, hry, hpy, -⟩ := hat2.rep
      have hfid : f.id ∈ after (f :: ctx2) := by
        obtain ⟨c', k', r', rfl⟩ := hf2 f (by simp)
        simp [after, Frame.id]
      have hne : s.parent y ≠ some z := by
        rw [hpy]
        intro e
        refine (successor_nodup hat hb2).2 ?_
        have hid : f.id = z := Option.some.inj e
        rw [ids_plug, hb2, ← hid]
        simp [hfid]
      have hright : (s.transplant y (s.right y)).right z = (plug (f :: ctx2) ry).ptr :=
        (transplant_successor hat).rep.2.2.1
      obtain ⟨htake, honly⟩ := takePlace_below hat hb2 hfid
      rw [hright, setRight_right, Function.update_self, if_neg hne] at hunlink
      exact ⟨_, hunlink, htake, hry, hpy, hcy, honly⟩

/-- A node `z` with at most one child: the child `v` moves up. -/
theorem transplant_child {v : Tree} (hat : s.At ctx (node c l z r)) (hv : s.Rep v p)
    (hids : v.ids = l.ids ++ r.ids) :
    (s.transplant z v.ptr).At ctx v ∧
      (plug ctx v).ids = before ctx ++ (l.ids ++ (r.ids ++ after ctx)) ∧
      Only (before ctx ++ (l.ids ++ (r.ids ++ after ctx))) s (s.transplant z v.ptr) := by
  have hpz : s.parent z = parentPtr ctx := hat.rep.2.2.2.1
  have heq : (plug ctx v).ids = before ctx ++ (l.ids ++ (r.ids ++ after ctx)) := by
    rw [ids_plug, hids, List.append_assoc]
  have hnodup : (plug ctx v).ids.Nodup := by
    refine hat.nodup.sublist ?_
    rw [heq, ids_plug]
    simp
  refine ⟨transplant_at hat.around hpz hv hnodup (hat.notMem_before (by simp)), heq, ?_⟩
  rw [← heq]
  apply only_transplant
  · exact fun j hj => parentPtr_mem_plug (hpz.symm.trans hj)
  · exact fun j hj => mem_plug (Tree.ptr_mem hj)

/-- **Unlinking** a node `z` leaves every other node in the tree, in the same order. -/
theorem unlink_spec (hat : s.At ctx (node c l z r)) (hbal : (plug ctx (node c l z r)).Bal black m)
    (hfuel : (plug ctx (node c l z r)).ids.length < fuel) :
    ∃ u ctx' t', unlink fuel s z = some u ∧ UnlinkedOk u ctx' t' ∧
      (plug ctx' t').ids = before ctx ++ (l.ids ++ (r.ids ++ after ctx)) ∧
      Only (before ctx ++ (l.ids ++ (r.ids ++ after ctx))) s u.pool := by
  obtain ⟨hcz, hlz, hrz, hpz, hl, hr⟩ := hat.rep
  obtain ⟨c1, c2, n, hbl, hbr, hred, haround⟩ := around_children hbal
  cases l with
  | nil =>
      -- the right child moves up
      obtain ⟨hat', hids, honly⟩ := transplant_child hat hr rfl
      rw [← hrz] at hat' honly
      refine ⟨⟨s.transplant z (s.right z), s.right z, s.parent z, s.color z⟩, ctx, r, ?_,
        unlinkedOk_of_bal hat' hrz hpz hcz hbr (fun h => (hred h).2) haround, hids, honly⟩
      simp only [unlink, hlz, Tree.ptr_nil]
  | node cl ll kl lr =>
      cases r with
      | nil =>
          -- the left child moves up
          obtain ⟨hat', hids, honly⟩ := transplant_child hat hl (List.append_nil _).symm
          refine ⟨⟨s.transplant z (some kl), some kl, s.parent z, s.color z⟩, ctx,
            node cl ll kl lr, ?_,
            unlinkedOk_of_bal hat' rfl hpz hcz hbl (fun h => (hred h).1) haround, hids, honly⟩
          simp only [unlink, hlz, hrz, Tree.ptr_node, Tree.ptr_nil]
      | node cr rl kr rr =>
          obtain ⟨ctx2, cy, y, ry, hsplit, hkr, hb2, hf2⟩ := exists_min cr rl kr rr
          rw [hsplit] at hat hbal hfuel ⊢
          have hlen : ctx2.length < fuel := by
            have h1 := length_le_ids ctx2 (node cy nil y ry)
            rw [ids_plug] at hfuel
            simp only [Tree.ids_node, List.length_append, List.length_cons] at hfuel
            omega
          obtain ⟨u, hu, hatu, hx, hxp, hcol, honly⟩ :=
            unlink_successor hat rfl hkr hb2 hf2 hlen
          have hids : (plug ctx (node c (node cl ll kl lr) y (plug ctx2 ry))).ids
              = before ctx ++ ((node cl ll kl lr).ids ++
                ((plug ctx2 (node cy nil y ry)).ids ++ after ctx)) := by
            rw [ids_plug, Tree.ids_node, ids_plug, ids_plug, hb2]
            simp
          rw [hids] at honly
          -- `y`'s old place, with `z` renamed to `y` above it
          have hbal2 : (plug (ctx2 ++ .right c (node cl ll kl lr) z :: ctx)
              (node cy nil y ry)).Bal black m := by
            rw [plug_append]
            exact hbal
          obtain ⟨c1', c2', n', -, hry, hred', har'⟩ := around_children hbal2
          refine ⟨u, ctx2 ++ .right c (node cl ll kl lr) y :: ctx, ry, hu,
            unlinkedOk_of_bal (at_append.mpr (at_cons.mpr hatu)) hx hxp hcol hry
              (fun h => (hred' h).2) (around_rename har'), ?_, honly⟩
          rw [plug_append, ← hids]
          rfl

/-- **Deletion.** `rbDelete` of a node of a red-black tree ends, without following a missing
child, in a red-black tree whose in-order sequence is the old one without that node; it writes
links of the nodes that stay only. -/
theorem rbDelete_spec {rotL rotR : Rb α → Nat → Option (Rb α)}
    (onNull : Rb α → Nat → Option (Rb α × Bool)) (hL : IsRotateLeft rotL) (hR : IsRotateRight rotR)
    (his : s.Is t) (hbal : t.Bal black m) (hz : z ∈ t.ids) (hfuel : t.ids.length < fuel) :
    ∃ s' t', rbDelete rotL rotR onNull fuel s z = some s' ∧ s'.Is t' ∧
      t'.ids = t.ids.erase z ∧ (∃ m', t'.Bal black m') ∧ Only t'.ids s s' := by
  obtain ⟨ctx, c, l, r, rfl⟩ := exists_plug hz
  have hat := at_iff_is.mpr his
  obtain ⟨u, ctx', t', hu, ⟨hatu, hx, hxp, hred, hblack⟩, hids, honly⟩ :=
    unlink_spec hat hbal hfuel
  have herase : (plug ctx (node c l z r)).ids.erase z
      = before ctx ++ (l.ids ++ (r.ids ++ after ctx)) := by
    have hzb := hat.notMem_before (i := z) (by simp)
    have hzl : z ∉ l.ids := by
      have hn := hat.ids_nodup
      simp only [Tree.ids_node, List.nodup_append, List.mem_cons] at hn
      exact fun h => hn.2.2 z h z (.inl rfl) rfl
    rw [ids_plug, List.erase_append_right _ hzb, Tree.ids_node, List.append_assoc,
      List.erase_append_right _ hzl, List.cons_append, List.erase_cons_head]
  rw [herase]
  cases hcol : u.color with
  | red =>
      refine ⟨u.pool, plug ctx' t', ?_, at_iff_is.mp hatu, hids, hred hcol, ?_⟩
      · simp [rbDelete, hu, hcol]
      · rwa [hids]
  | black =>
      obtain ⟨n, hdel⟩ := hblack hcol
      have hlen : ctx'.length < fuel := by
        have h1 := length_le_ids ctx' t'
        have h2 : (plug ctx' t').ids.length ≤ (plug ctx (node c l z r)).ids.length := by
          rw [hids, ← herase]
          exact List.length_erase_le
        omega
      obtain ⟨s', t'', hs', his', hids', hbal', honly'⟩ :=
        deleteFixup_spec onNull hL hR fuel hdel (fun _ => hlen) (by omega)
      refine ⟨s', t'', ?_, his', hids'.trans hids, hbal', ?_⟩
      · simp only [rbDelete, hu, Option.bind_some, hcol, if_true, hx, hxp, hs']
      · rw [hids']
        rw [← hids] at honly
        exact honly.trans honly'

end Rb

end RbTree
