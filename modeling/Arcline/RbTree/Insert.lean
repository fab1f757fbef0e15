import Arcline.RbTree.Rotate

set_option autoImplicit false

/-! # Rebalancing after an insertion

`insertFixup` walks up from a freshly linked red node `z` while the parent is red. Each round
either repaints and moves two levels up, or rotates and leaves a black parent, which ends the
loop. The invariant of the loop is `Inserting`: the tree is red-black but for the edge between
`z` and its parent. The in-order sequence never changes.

The two rotations are parameters, since two sources may spell them differently.
-/

namespace RbTree

open Color RbTree.Tree

namespace Rb

variable {α : Type} (rotL rotR : Rb α → Nat → Option (Rb α))

/-- The end of a rotating round: the parent of `z` black, the grandparent red and rotated. -/
def insertRaise (rot : Rb α → Nat → Option (Rb α)) (s : Rb α) (z : Nat) :
    Option (Rb α × Nat) := do
  let p ← s.parent z
  let g ← s.parent p
  let s ← rot ((s.setColor p black).setColor g red) g
  some (s, z)

/-- One round of the loop when the parent `p` of `z` is the left child of `g`; the result is the
pool and the node the next round looks at. -/
def insertBodyLeft (s : Rb α) (z p g : Nat) : Option (Rb α × Nat) :=
  if s.isRed (s.right g) then
    some (((s.setColor p black).setColor? (s.right g) black).setColor g red, g)
  else if s.right p = some z then
    (rotL s p).bind fun s => insertRaise rotR s p
  else insertRaise rotR s z

/-- One round of the loop when `p` is the right child of `g`. -/
def insertBodyRight (s : Rb α) (z p g : Nat) : Option (Rb α × Nat) :=
  if s.isRed (s.left g) then
    some (((s.setColor p black).setColor? (s.left g) black).setColor g red, g)
  else if s.left p = some z then
    (rotR s p).bind fun s => insertRaise rotL s p
  else insertRaise rotL s z

/-- The loop, with a bound on its rounds. -/
def insertLoop : Nat → Rb α → Nat → Option (Rb α)
  | 0, _, _ => none
  | fuel + 1, s, z =>
      match s.parent z with
      | none => some s
      | some p =>
          if s.color p = red then
            match s.parent p with
            | none => none
            | some g =>
                (if s.left g = some p then insertBodyLeft rotL rotR s z p g
                  else insertBodyRight rotL rotR s z p g).bind
                  fun (s, z) => insertLoop fuel s z
          else some s

/-- Restore the colours after linking the red node `z`, and paint the root black. -/
def insertFixup (fuel : Nat) (s : Rb α) (z : Nat) : Option (Rb α) := do
  let s ← insertLoop rotL rotR fuel s z
  let r ← s.root
  some (s.setColor r black)

/-! ## Painting a node -/

theorem At.setColor {s : Rb α} {ctx : List Frame} {c d : Color} {l r : Tree} {k : Nat}
    (h : s.At ctx (node c l k r)) : (s.setColor k d).At ctx (node d l k r) := by
  obtain ⟨h1, h2, h3, h4, h5, h6⟩ := h.rep
  have hk : k ∈ (node c l k r).ids := by simp
  have hn := h.ids_nodup
  simp only [Tree.ids_node, List.nodup_append, List.nodup_cons, List.mem_cons] at hn
  have hkl : k ∉ l.ids := fun hm => hn.2.2 k hm k (.inl rfl) rfl
  refine ⟨?_, ⟨by simp, h2, h3, h4, ?_, ?_⟩, ?_⟩
  · exact (writes_setColor.repAround (h.notMem_before hk) (h.notMem_after hk)).mpr h.around
  · exact (writes_setColor.rep hkl).mpr h5
  · exact (writes_setColor.rep hn.2.1.1).mpr h6
  · rw [ids_plug_congr ctx (u := node c l k r) (by simp)]
    exact h.nodup

theorem isRed_ptr {s : Rb α} {t : Tree} {p : Option Nat} {c : Color} {n : Nat}
    (h : s.Rep t p) (hb : t.Bal c n) : s.isRed t.ptr = decide (c = red) := by
  cases hb with
  | nil => simp
  | red hl hr => simp [h.1]
  | black hl hr => simp [h.1]

theorem isBlack_ptr {s : Rb α} {t : Tree} {p : Option Nat} {c : Color} {n : Nat}
    (h : s.Rep t p) (hb : t.Bal c n) : s.isBlack t.ptr = decide (c = black) := by
  cases hb with
  | nil => simp
  | red hl hr => simp [h.1]
  | black hl hr => simp [h.1]

/-! ## The loop invariant -/

/-- `z` is a red node at the place `ctx` whose subtrees are black, and the place is open for a
black tree of the same black height: red-black everywhere but between `z` and its parent. -/
structure Inserting (s : Rb α) (ctx : List Frame) (a : Tree) (z : Nat) (b : Tree) (n : Nat) :
    Prop where
  at_ : s.At ctx (node red a z b)
  left : a.Bal black n
  right : b.Bal black n
  around : Around ctx black n

variable {rotL rotR} {s : Rb α} {ctx up : List Frame} {f : Frame} {c : Color} {t a b u : Tree} {n g z : Nat}

/-- Case 1: the uncle is red. Repaint, and go on from the grandparent. -/
theorem insertBodyLeft_red (rotL rotR : Rb α → Nat → Option (Rb α)) {l r ul ur : Tree} {p ku : Nat}
    {cg : Color} (hat : s.At up (node cg (node red l p r) g (node red ul ku ur)))
    (hl : l.Bal red n ∧ r.Bal black n ∨ l.Bal black n ∧ r.Bal red n) (hul : ul.Bal black n)
    (hur : ur.Bal black n) (hup : Around up black (n + 1)) :
    ∃ s', insertBodyLeft rotL rotR s z p g = some (s', g) ∧
      Inserting s' up (node black l p r) g (node black ul ku ur) (n + 1) ∧
      Only (plug up (node cg (node red l p r) g (node red ul ku ur))).ids s s' := by
  obtain ⟨-, -, hr, -, -, hu⟩ := hat.rep
  have hred : s.isRed (s.right g) = true := by
    rw [hr, isRed_ptr hu (.red hul hur)]
    rfl
  have h1 : (s.setColor p black).At up (node cg (node black l p r) g (node red ul ku ur)) := by
    have := (at_cons (f := .left cg g (node red ul ku ur))).mpr hat
    exact at_cons.mp (At.setColor (d := black) this)
  have h2 : ((s.setColor p black).setColor ku black).At up
      (node cg (node black l p r) g (node black ul ku ur)) := by
    have := (at_cons (f := .right cg (node black l p r) g)).mpr h1
    exact at_cons.mp (At.setColor (d := black) this)
  refine ⟨((s.setColor p black).setColor ku black).setColor g red, ?_, ⟨?_, ?_, ?_, hup⟩, ?_⟩
  · rw [insertBodyLeft, if_pos hred, hr, Tree.ptr_node, setColor?_some]
  · exact At.setColor h2
  · rcases hl with ⟨h, h'⟩ | ⟨h, h'⟩ <;> exact .black h h'
  · exact .black hul hur
  · refine ((writes_setColor.only ?_).trans (writes_setColor.only ?_)).trans (writes_setColor.only ?_)
    all_goals exact mem_plug (by simp)

theorem insertRaise_spec (hR : IsRotateRight rotR) {c : Tree} {p : Nat} {cp cg : Color}
    (hat : s.At up (node cg (node cp (node red a z b) p c) g u)) :
    ∃ s', insertRaise rotR s z = some (s', z) ∧
      s'.At up (node black (node red a z b) p (node red c g u)) ∧
      Only (plug up (node cg (node cp (node red a z b) p c) g u)).ids s s' := by
  obtain ⟨-, -, -, -, ⟨-, -, -, hpp, hz, -⟩, -⟩ := hat.rep
  have hpz : s.parent z = some p := hz.2.2.2.1
  have h1 : (s.setColor p black).At up (node cg (node black (node red a z b) p c) g u) := by
    have := (at_cons (f := .left cg g u)).mpr hat
    exact at_cons.mp (At.setColor (d := black) this)
  obtain ⟨s', hs, hat', honly, -⟩ := hR _ _ _ _ _ _ _ _ _ (At.setColor (d := red) h1)
  rw [ids_plug_congr up (u := node cg (node cp (node red a z b) p c) g u) (by simp)] at honly
  refine ⟨s', by simp [insertRaise, hpz, hpp, hs], hat', ?_⟩
  refine ((writes_setColor.only ?_).trans (writes_setColor.only ?_)).trans honly
  all_goals exact mem_plug (by simp)

/-- What the invariant says about the two innermost ancestors of `z` when the parent is red:
the grandparent exists and is black. -/
theorem Inserting.grandparent (h : Inserting s (f :: up) a z b n) (hred : s.color f.id = red) :
    ((∃ p c, f = .left red p c ∧ c.Bal black n) ∨
      (∃ c p, f = .right red c p ∧ c.Bal black n)) ∧ Around up red n := by
  have hcol := h.at_.around
  cases h.around with
  | redLeft hc hup => exact ⟨.inl ⟨_, _, rfl, hc⟩, hup⟩
  | redRight hc hup => exact ⟨.inr ⟨_, _, rfl, hc⟩, hup⟩
  | blackLeft hc hup => simp [Frame.id, hcol.1] at hred
  | blackRight hc hup => simp [Frame.id, hcol.1] at hred

/-- **One round on the left side.** Either the next round starts two levels up, or its parent
is black. -/
theorem insertBodyLeft_spec (hL : IsRotateLeft rotL) (hR : IsRotateRight rotR)
    (h : Inserting s (f :: .left black g u :: up) a z b n) (hred : s.color f.id = red) :
    ∃ s' ctx' a' z' b' n', insertBodyLeft rotL rotR s z f.id g = some (s', z') ∧
      Inserting s' ctx' a' z' b' n' ∧
      (plug ctx' (node red a' z' b')).ids
        = (plug (f :: .left black g u :: up) (node red a z b)).ids ∧
      Only (plug (f :: .left black g u :: up) (node red a z b)).ids s s' ∧
      (ctx' = up ∨ ∃ k r, ctx' = .left black k r :: up) := by
  obtain ⟨hf, hup⟩ := h.grandparent hred
  obtain ⟨hat, ha, hb, -⟩ := h
  have hat' := at_cons.mp hat
  have hat'' := at_cons.mp hat'
  obtain ⟨cu, hu, hup'⟩ : ∃ cu, u.Bal cu n ∧ Around up black (n + 1) := by
    cases hup with
    | blackLeft hu hup => exact ⟨_, hu, hup⟩
  have hright : s.right g = u.ptr := hat''.rep.2.2.1
  have hisRed : s.isRed (s.right g) = decide (cu = red) := by
    rw [hright]
    exact isRed_ptr hat''.rep.2.2.2.2.2 hu
  cases hcu : cu with
  | red =>
      subst hcu
      cases hu with
      | red hul hur =>
          rcases hf with ⟨p, c, rfl, hc⟩ | ⟨c, p, rfl, hc⟩
          · obtain ⟨s', hs, hins, honly⟩ := insertBodyLeft_red rotL rotR (z := z)
              hat'' (.inl ⟨.red ha hb, hc⟩) hul hur hup'
            exact ⟨s', _, _, _, _, _, hs, hins, ids_plug_congr up (by simp [Frame.fill]),
              honly, .inl rfl⟩
          · obtain ⟨s', hs, hins, honly⟩ := insertBodyLeft_red rotL rotR (z := z)
              hat'' (.inr ⟨hc, .red ha hb⟩) hul hur hup'
            exact ⟨s', _, _, _, _, _, hs, hins, ids_plug_congr up (by simp [Frame.fill]),
              honly, .inl rfl⟩
  | black =>
      subst hcu
      have hnred : ¬ s.isRed (s.right g) = true := by simp [hisRed]
      rcases hf with ⟨p, c, rfl, hc⟩ | ⟨c, p, rfl, hc⟩
      · -- `z` is the left child of `p`: one rotation
        have hp3 : s.right p = c.ptr := hat'.rep.2.2.1
        have hzc : s.right p ≠ some z := by
          rw [hp3]
          intro e
          have hn := hat'.ids_nodup
          simp only [Frame.fill, Tree.ids_node, List.nodup_append, List.mem_append,
            List.mem_cons] at hn
          exact hn.2.2 z (.inr (.inl rfl)) z (.inr (Tree.ptr_mem e)) rfl
        obtain ⟨s', hs, hat1, honly⟩ := insertRaise_spec hR hat''
        refine ⟨s', .left black p (node red c g u) :: up, a, z, b, n, ?_,
          ⟨at_cons.mpr hat1, ha, hb, .blackLeft (.red hc hu) hup'⟩, ?_, honly,
          .inr ⟨_, _, rfl⟩⟩
        · rw [insertBodyLeft, if_neg hnred, Frame.id, if_neg hzc, hs]
        · exact ids_plug_congr up (by simp [Frame.fill])
      · -- `z` is the right child of `p`: after rotating `p`, it is the lower red node and `z`
        -- its parent
        have hp3 : s.right p = some z := hat'.rep.2.2.1
        obtain ⟨s1, hs1, hat1, honly1, -⟩ := hL _ _ _ _ _ _ _ _ _ hat'
        obtain ⟨s', hs, hat2, honly2⟩ := insertRaise_spec hR (at_cons.mp hat1)
        refine ⟨s', .left black z (node red b g u) :: up, c, p, a, n, ?_,
          ⟨at_cons.mpr hat2, hc, ha, .blackLeft (.red hb hu) hup'⟩, ?_, honly1.trans ?_,
          .inr ⟨_, _, rfl⟩⟩
        · rw [insertBodyLeft, if_neg hnred, Frame.id, if_pos hp3, hs1, Option.bind_some, hs]
        · exact ids_plug_congr up (by simp [Frame.fill])
        · rwa [ids_plug_congr up (u := (Frame.left black g u).fill
            ((Frame.right red c p).fill (node red a z b))) (by simp [Frame.fill])] at honly2

/-! ## The reflected side -/

theorem insertRaise_reflect (rot : Rb α → Nat → Option (Rb α)) (s : Rb α) (z : Nat) :
    insertRaise rot s z
      = (insertRaise (reflect rot) s.mirror z).map fun q => (q.1.mirror, q.2) := by
  simp only [insertRaise, mirror_parent, reflect]
  cases s.parent z with
  | none => rfl
  | some p =>
      simp only [Option.bind_eq_bind, Option.bind_some]
      cases s.parent p with
      | none => rfl
      | some g =>
          have hm : ((s.mirror.setColor p black).setColor g red).mirror
              = (s.setColor p black).setColor g red := rfl
          simp only [Option.bind_some, hm]
          cases rot ((s.setColor p black).setColor g red) g <;> rfl

theorem insertBodyRight_reflect (s : Rb α) (z p g : Nat) :
    insertBodyRight rotL rotR s z p g
      = (insertBodyLeft (reflect rotR) (reflect rotL) s.mirror z p g).map
          fun q => (q.1.mirror, q.2) := by
  have hred : s.mirror.isRed (s.mirror.right g) = s.isRed (s.left g) := by
    rw [mirror_right]
    cases s.left g <;> rfl
  have hright : s.mirror.right p = s.left p := rfl
  simp only [insertBodyRight, insertBodyLeft, hred, hright]
  split
  · simp only [Option.map_some, mirror_right]
    cases s.left g <;> rfl
  · split
    · simp only [reflect, mirror_mirror]
      cases rotR s p with
      | none => rfl
      | some s1 => exact insertRaise_reflect rotL s1 p
    · exact insertRaise_reflect rotL s z

theorem Inserting.mirror (h : Inserting s ctx a z b n) :
    Inserting s.mirror (ctx.map Frame.mirror) b.mirror z a.mirror n :=
  ⟨at_mirror.mpr h.at_, h.right.mirror, h.left.mirror, h.around.mirror⟩

/-- **One round on the right side**, read off the left side through reflection. -/
theorem insertBodyRight_spec (hL : IsRotateLeft rotL) (hR : IsRotateRight rotR)
    (h : Inserting s (f :: .right black u g :: up) a z b n) (hred : s.color f.id = red) :
    ∃ s' ctx' a' z' b' n', insertBodyRight rotL rotR s z f.id g = some (s', z') ∧
      Inserting s' ctx' a' z' b' n' ∧
      (plug ctx' (node red a' z' b')).ids
        = (plug (f :: .right black u g :: up) (node red a z b)).ids ∧
      Only (plug (f :: .right black u g :: up) (node red a z b)).ids s s' ∧
      (ctx' = up ∨ ∃ l k, ctx' = .right black l k :: up) := by
  have hm := h.mirror
  simp only [List.map_cons] at hm
  have hred' : s.mirror.color f.mirror.id = red := by simpa using hred
  obtain ⟨s', ctx', a', z', b', n', hs, hins, hids, honly, hctx⟩ :=
    insertBodyLeft_spec hR.reflect hL.reflect hm hred'
  have hmap : f.mirror :: Frame.left black g u.mirror :: up.map Frame.mirror
      = (f :: Frame.right black u g :: up).map Frame.mirror := rfl
  have hnode : node red b.mirror z a.mirror = (node red a z b).mirror := rfl
  rw [hmap, hnode] at hids honly
  refine ⟨s'.mirror, ctx'.map Frame.mirror, b'.mirror, z', a'.mirror, n', ?_, hins.mirror,
    ?_, honly.of_mirror, ?_⟩
  · rw [insertBodyRight_reflect, ← Frame.id_mirror f, hs]
    rfl
  · have := congrArg List.reverse hids
    rw [ids_plug_mirror, List.reverse_reverse] at this
    rw [← this, ← ids_plug_mirror]
    rfl
  · rcases hctx with rfl | ⟨k, r, rfl⟩
    · exact .inl (map_mirror_mirror up)
    · exact .inr ⟨r.mirror, k, by rw [List.map_cons, map_mirror_mirror]; rfl⟩

/-! ## The loop -/

/-- When the parent of `z` is black, or `z` is the root, the loop is over. -/
theorem insertLoop_stop {fuel : Nat} (h : Inserting s ctx a z b n)
    (hstop : ∀ f up, ctx = f :: up → s.color f.id ≠ red) :
    insertLoop rotL rotR (fuel + 1) s z = some s := by
  have hp : s.parent z = parentPtr ctx := h.at_.rep.2.2.2.1
  simp only [insertLoop, hp]
  cases ctx with
  | nil => rfl
  | cons f up => simp [hstop f up rfl]

/-- **The loop ends**, within as many rounds as `z` has ancestors, in a tree with the same
in-order sequence in which `z`'s place has a black parent or is the root. -/
theorem insertLoop_spec (hL : IsRotateLeft rotL) (hR : IsRotateRight rotR) (fuel : Nat) :
    ∀ {s : Rb α} {ctx : List Frame} {a b : Tree} {z n : Nat}, Inserting s ctx a z b n →
      ctx.length < fuel →
      ∃ s' ctx' a' z' b' n', insertLoop rotL rotR fuel s z = some s' ∧
        Inserting s' ctx' a' z' b' n' ∧ (∀ f up, ctx' = f :: up → s'.color f.id ≠ red) ∧
        (plug ctx' (node red a' z' b')).ids = (plug ctx (node red a z b)).ids ∧
        Only (plug ctx (node red a z b)).ids s s' := by
  induction fuel with
  | zero => intro s ctx a b z n _ hlt; omega
  | succ fuel ih =>
      intro s ctx a b z n h hlt
      by_cases hstop : ∀ f up, ctx = f :: up → s.color f.id ≠ red
      · exact ⟨s, ctx, a, z, b, n, insertLoop_stop h hstop, h, hstop, rfl, .refl _ s⟩
      push Not at hstop
      obtain ⟨f, up, rfl, hred⟩ := hstop
      obtain ⟨-, hup⟩ := h.grandparent hred
      have hp : s.parent z = some f.id := h.at_.rep.2.2.2.1
      -- one round, then the rounds that remain
      have step : ∃ g s1 ctx1 a1 z1 b1 n1, s.parent f.id = some g ∧
          (if s.left g = some f.id then insertBodyLeft rotL rotR s z f.id g
            else insertBodyRight rotL rotR s z f.id g) = some (s1, z1) ∧
          Inserting s1 ctx1 a1 z1 b1 n1 ∧ ctx1.length < fuel ∧
          (plug ctx1 (node red a1 z1 b1)).ids = (plug (f :: up) (node red a z b)).ids ∧
          Only (plug (f :: up) (node red a z b)).ids s s1 := by
        have hpar : s.parent f.id = parentPtr up ∧ s.RepAround up (some f.id) := by
          have := h.at_.around
          cases f with
          | left c k r => exact ⟨this.2.2.2.1, this.2.2.2.2.2⟩
          | right c l k => exact ⟨this.2.2.2.1, this.2.2.2.2.2⟩
        cases hup with
        | @blackLeft u g _ up' _ _ hu hup' =>
            obtain ⟨s1, ctx1, a1, z1, b1, n1, hs, hins, hids, honly, hctx⟩ :=
              insertBodyLeft_spec hL hR h hred
            refine ⟨g, s1, ctx1, a1, z1, b1, n1, hpar.1, ?_, hins, ?_, hids, honly⟩
            · rw [if_pos hpar.2.2.1, hs]
            · rcases hctx with rfl | ⟨k, r, rfl⟩ <;> simp at hlt ⊢ <;> omega
        | @blackRight u g _ up' _ _ hu hup' =>
            obtain ⟨s1, ctx1, a1, z1, b1, n1, hs, hins, hids, honly, hctx⟩ :=
              insertBodyRight_spec hL hR h hred
            have hne : s.left g ≠ some f.id := by
              rw [hpar.2.2.1]
              intro e
              have hn := (at_cons.mp (at_cons.mp h.at_)).ids_nodup
              simp only [Frame.fill, Tree.ids_node, List.nodup_append] at hn
              refine hn.2.2 f.id (Tree.ptr_mem e) f.id ?_ rfl
              have : (f.fill (node red a z b)).ptr = some f.id := by cases f <;> rfl
              exact List.mem_cons_of_mem _ (Tree.ptr_mem this)
            refine ⟨g, s1, ctx1, a1, z1, b1, n1, hpar.1, ?_, hins, ?_, hids, honly⟩
            · rw [if_neg hne, hs]
            · rcases hctx with rfl | ⟨k, r, rfl⟩ <;> simp at hlt ⊢ <;> omega
      obtain ⟨g, s1, ctx1, a1, z1, b1, n1, hg, hs1, hins1, hlt1, hids1, honly1⟩ := step
      obtain ⟨s', ctx', a', z', b', n', hs', hins', hstop', hids', honly'⟩ := ih hins1 hlt1
      refine ⟨s', ctx', a', z', b', n', ?_, hins', hstop', hids'.trans hids1, ?_⟩
      · simp only [insertLoop, hp, hred, if_true, hg, hs1, Option.bind_some, hs']
      · rw [hids1] at honly'
        exact honly1.trans honly'

theorem Is.setColor_root {r : Nat} (h : s.Is t) (hr : s.root = some r) :
    (s.setColor r black).Is t.blacken := by
  have hptr : t.ptr = some r := by rw [← hr]; exact h.around.symm
  cases t with
  | nil => simp at hptr
  | node c l k r' =>
      have : k = r := by simpa using hptr
      subst this
      exact At.setColor h

/-- **Rebalancing an insertion.** After a red node `z` with empty subtrees has been linked at a
place of a red-black tree, `insertFixup` ends, without following a missing child, in a red-black
tree with the same in-order sequence, writing links of tree nodes only. -/
theorem insertFixup_spec (hL : IsRotateLeft rotL) (hR : IsRotateRight rotR) {m fuel : Nat}
    (hat : s.At ctx (node red nil z nil)) (hbal : (plug ctx nil).Bal black m)
    (hfuel : ctx.length < fuel) :
    ∃ s' t', insertFixup rotL rotR fuel s z = some s' ∧ s'.Is t' ∧
      t'.ids = before ctx ++ z :: after ctx ∧ (∃ m', t'.Bal black m') ∧
      Only (before ctx ++ z :: after ctx) s s' := by
  obtain ⟨c, n, hnil, haround⟩ := around_of_plug hbal
  cases hnil with
  | nil =>
      have hins : Inserting s ctx nil z nil 0 := ⟨hat, .nil, .nil, haround⟩
      have hids : (plug ctx (node red nil z nil)).ids = before ctx ++ z :: after ctx := by
        rw [ids_plug]; simp
      obtain ⟨s1, ctx', a', z', b', n', hs1, hins1, hstop, hids1, honly⟩ :=
        insertLoop_spec hL hR fuel hins hfuel
      have his := at_iff_is.mp hins1.at_
      obtain ⟨r, hr⟩ : ∃ r, s1.root = some r := by
        have hroot : s1.root = (plug ctx' (node red a' z' b')).ptr := his.around
        cases hq : (plug ctx' (node red a' z' b')) with
        | nil =>
            have : z' ∈ (plug ctx' (node red a' z' b')).ids := mem_plug (by simp)
            simp [hq] at this
        | node c l k r => exact ⟨k, by rw [hroot, hq]; rfl⟩
      rw [hids] at hids1 honly
      refine ⟨s1.setColor r black, _, by simp [insertFixup, hs1, hr], his.setColor_root hr,
        by rw [Tree.ids_blacken, hids1], ?_, honly.trans (writes_setColor.only ?_)⟩
      · -- the place of `z'` takes a red tree, unless it is the root, which is painted
        cases hctx : ctx' with
        | nil => exact ⟨_, .black hins1.left hins1.right⟩
        | cons f up =>
            have hred : Around ctx' red n' := by
              have hne := hstop f up hctx
              have hcol := hins1.at_.around
              rw [hctx] at hcol ⊢
              have hins2 := hins1.around
              rw [hctx] at hins2
              cases hins2 with
              | redLeft h1 h2 => exact absurd hcol.1 hne
              | redRight h1 h2 => exact absurd hcol.1 hne
              | blackLeft h1 h2 => exact .blackLeft h1 h2
              | blackRight h1 h2 => exact .blackRight h1 h2
            obtain ⟨m', hm'⟩ := hred.fill (.red hins1.left hins1.right)
            rw [← hctx]
            exact hm'.blacken
      · have hptr : (plug ctx' (node red a' z' b')).ptr = some r := by
          rw [← hr]; exact his.around.symm
        rw [← hids1]
        exact Tree.ptr_mem hptr

end Rb

end RbTree
