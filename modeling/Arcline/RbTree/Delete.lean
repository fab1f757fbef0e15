import Arcline.RbTree.Insert

set_option autoImplicit false

/-! # Rebalancing after a deletion

`deleteFixup` starts at a place whose subtree is one black node short and walks up until the
deficit is gone. One round looks at the sibling `w` of the deficient subtree: a red sibling is
first rotated away (case 1); a sibling with two black children is painted red, which moves the
deficit to the parent (case 2); else one or two rotations make up for it (cases 3 and 4).

The sibling of a deficient subtree is never missing, so what a source does with a missing one
(`onNull`) is a parameter, like the rotations.
-/

namespace RbTree

open Color RbTree.Tree

namespace Rb

variable {α : Type} (rotL rotR : Rb α → Nat → Option (Rb α))
  (onNull : Rb α → Nat → Option (Rb α × Bool))

/-- Case 1 on the left: a red sibling `w` of the left child of `k` is rotated above `k`. -/
def deleteCase1Left (s : Rb α) (k w : Nat) : Option (Rb α) :=
  if s.color w = red then rotL ((s.setColor w black).setColor k red) k else some s

/-- Case 4 on the left: `w` takes the colour of `k` and is rotated above it. -/
def deleteCase4Left (s : Rb α) (k w : Nat) : Option (Rb α) :=
  let s := s.setColor w (s.color k)
  let s := s.setColor k black
  let s := s.setColor? (s.right w) black
  rotL s k

/-- Cases 2 to 4 on the left; `true` means that the deficit has moved to `k`. -/
def deleteCase2Left (s : Rb α) (k w : Nat) : Option (Rb α × Bool) :=
  if s.isBlack (s.left w) && s.isBlack (s.right w) then some (s.setColor w red, true)
  else if s.isBlack (s.right w) then
    (rotR ((s.setColor? (s.left w) black).setColor w red) w).bind fun s =>
      (s.right k).bind fun w => (deleteCase4Left rotL s k w).map (·, false)
  else (deleteCase4Left rotL s k w).map (·, false)

/-- One round when the deficient subtree is the left one of `k`. -/
def deleteBodyLeft (s : Rb α) (k : Nat) : Option (Rb α × Bool) :=
  match s.right k with
  | none => onNull s k
  | some w =>
      (deleteCase1Left rotL s k w).bind fun s =>
        match s.right k with
        | none => onNull s k
        | some w => deleteCase2Left rotL rotR s k w

def deleteCase1Right (s : Rb α) (k w : Nat) : Option (Rb α) :=
  if s.color w = red then rotR ((s.setColor w black).setColor k red) k else some s

def deleteCase4Right (s : Rb α) (k w : Nat) : Option (Rb α) :=
  let s := s.setColor w (s.color k)
  let s := s.setColor k black
  let s := s.setColor? (s.left w) black
  rotR s k

def deleteCase2Right (s : Rb α) (k w : Nat) : Option (Rb α × Bool) :=
  if s.isBlack (s.right w) && s.isBlack (s.left w) then some (s.setColor w red, true)
  else if s.isBlack (s.left w) then
    (rotL ((s.setColor? (s.right w) black).setColor w red) w).bind fun s =>
      (s.left k).bind fun w => (deleteCase4Right rotR s k w).map (·, false)
  else (deleteCase4Right rotR s k w).map (·, false)

/-- One round when the deficient subtree is the right one of `k`. -/
def deleteBodyRight (s : Rb α) (k : Nat) : Option (Rb α × Bool) :=
  match s.left k with
  | none => onNull s k
  | some w =>
      (deleteCase1Right rotR s k w).bind fun s =>
        match s.left k with
        | none => onNull s k
        | some w => deleteCase2Right rotL rotR s k w

/-- The loop, with a bound on its rounds: `x` is the deficient subtree, which may be empty, and
`xp` its parent. The result is the pool and the node to be painted black. -/
def deleteLoop : Nat → Rb α → Option Nat → Option Nat → Option (Rb α × Option Nat)
  | 0, _, _, _ => none
  | fuel + 1, s, x, xp =>
      if x ≠ s.root ∧ s.isBlack x = true then
        match xp with
        | none => none
        | some k =>
            (if x = s.left k then deleteBodyLeft rotL rotR onNull s k
              else deleteBodyRight rotL rotR onNull s k).bind fun q =>
                if q.2 then deleteLoop fuel q.1 (some k) (q.1.parent k)
                else some (q.1, q.1.root)
      else some (s, x)

/-- Restore the colours after a black node has been taken out above `x`. -/
def deleteFixup (fuel : Nat) (s : Rb α) (x xp : Option Nat) : Option (Rb α) :=
  (deleteLoop rotL rotR onNull fuel s x xp).map fun q => q.1.setColor? q.2 black

variable {rotL rotR onNull} {s : Rb α} {ctx up : List Frame} {c : Color} {t wl : Tree} {k kw n : Nat}

/-! ## The rotating cases -/

theorem deleteCase1Left_spec (hL : IsRotateLeft rotL) {wr : Tree}
    (hat : s.At up (node c t k (node red wl kw wr))) :
    ∃ s', deleteCase1Left rotL s k kw = some s' ∧
      s'.At up (node black (node red t k wl) kw wr) ∧
      Only (plug up (node c t k (node red wl kw wr))).ids s s' := by
  have hcol : s.color kw = red := hat.rep.2.2.2.2.2.1
  have h1 : (s.setColor kw black).At up (node c t k (node black wl kw wr)) := by
    have := (at_cons (f := .right c t k)).mpr hat
    exact at_cons.mp (At.setColor (d := black) this)
  obtain ⟨s', hs, hat', honly, -⟩ := hL _ _ _ _ _ _ _ _ _ (At.setColor (d := red) h1)
  rw [ids_plug_congr up (u := node c t k (node red wl kw wr)) (by simp)] at honly
  refine ⟨s', by rw [deleteCase1Left, if_pos hcol, hs], hat', ?_⟩
  refine ((writes_setColor.only ?_).trans (writes_setColor.only ?_)).trans honly
  all_goals exact mem_plug (by simp)

theorem deleteCase4Left_spec (hL : IsRotateLeft rotL) {cw : Color} {wrl wrr : Tree} {kr : Nat}
    (hat : s.At up (node c t k (node cw wl kw (node red wrl kr wrr)))) :
    ∃ s', deleteCase4Left rotL s k kw = some s' ∧
      s'.At up (node c (node black t k wl) kw (node black wrl kr wrr)) ∧
      Only (plug up (node c t k (node cw wl kw (node red wrl kr wrr)))).ids s s' := by
  obtain ⟨hck, -, -, -, -, -, -, hkr, -⟩ := hat.rep
  have h1 : (s.setColor kw c).At up (node c t k (node c wl kw (node red wrl kr wrr))) := by
    have := (at_cons (f := .right c t k)).mpr hat
    exact at_cons.mp (At.setColor (d := c) this)
  have h2 := At.setColor (d := black) h1
  have h3 : (((s.setColor kw c).setColor k black).setColor kr black).At up
      (node black t k (node c wl kw (node black wrl kr wrr))) := by
    have := (at_cons (f := .right c wl kw)).mpr ((at_cons (f := .right black t k)).mpr h2)
    exact at_cons.mp (at_cons.mp (At.setColor (d := black) this))
  obtain ⟨s', hs, hat', honly, -⟩ := hL _ _ _ _ _ _ _ _ _ h3
  rw [ids_plug_congr up (u := node c t k (node cw wl kw (node red wrl kr wrr))) (by simp)]
    at honly
  refine ⟨s', ?_, hat', ?_⟩
  · simp only [deleteCase4Left, hck, setColor_right, hkr, Tree.ptr_node, setColor?_some, hs]
  · refine (((writes_setColor.only ?_).trans (writes_setColor.only ?_)).trans
      (writes_setColor.only ?_)).trans honly
    all_goals exact mem_plug (by simp)

/-! ## The loop invariant -/

/-- The subtree `t` at the place `ctx` is one black node short, or its root is red and painting
it black repairs the tree. -/
structure Deleting (s : Rb α) (ctx : List Frame) (t : Tree) (n : Nat) : Prop where
  at_ : s.At ctx t
  around : Around ctx black (n + 1)
  short : t.Bal black n ∨ ∃ l k r, t = node red l k r ∧ (node black l k r).Bal black (n + 1)

/-- What a round leads to: a red-black tree, or the loop invariant at the node `k`. There the
loop goes on only if `k` is black, and then the place satisfies `B`. -/
def DeleteStep (B : List Frame → Prop) (s : Rb α) (ctx : List Frame) (t : Tree) (k : Nat)
    (q : Rb α × Bool) : Prop :=
  Only (plug ctx t).ids s q.1 ∧
  ((q.2 = false ∧ ∃ t', q.1.Is t' ∧ t'.ids = (plug ctx t).ids ∧ ∃ m, t'.Bal black m) ∨
    (q.2 = true ∧ ∃ ctx' t' n', Deleting q.1 ctx' t' n' ∧ t'.ptr = some k ∧
      (plug ctx' t').ids = (plug ctx t).ids ∧
      (t'.Bal black n' → B ctx')))

/-- Cases 2 to 4, the sibling being black. -/
theorem deleteCase2Left_spec (hL : IsRotateLeft rotL) (hR : IsRotateRight rotR) {wr : Tree}
    (hat : s.At (.left c k (node black wl kw wr) :: up) t) (ht : t.Bal black n)
    (hw : (node black wl kw wr).Bal black (n + 1))
    (haround : Around (.left c k (node black wl kw wr) :: up) black (n + 1)) :
    ∃ q, deleteCase2Left rotL rotR s k kw = some q ∧
      DeleteStep (fun ctx' => c = black ∧ ctx' = up) s
        (.left c k (node black wl kw wr) :: up) t k q := by
  have hat' := at_cons.mp hat
  obtain ⟨hck, -, hwk, -, -, ⟨hcw, hwlp, hwrp, -, hwl, hwr⟩⟩ := hat'.rep
  obtain ⟨c1, c2, hl, hr⟩ : ∃ c1 c2, wl.Bal c1 n ∧ wr.Bal c2 n := by
    cases hw with
    | black hl hr => exact ⟨_, _, hl, hr⟩
  have hbl : s.isBlack (s.left kw) = decide (c1 = black) := by
    rw [hwlp]; exact isBlack_ptr hwl hl
  have hbr : s.isBlack (s.right kw) = decide (c2 = black) := by
    rw [hwrp]; exact isBlack_ptr hwr hr
  -- a tree that has the colour `c` and the black height of the node `k` it replaces
  have hdone : ∀ {l' r' : Tree} {k' : Nat}, l'.Bal black (n + 1) → r'.Bal black (n + 1) →
      ∃ m, (plug up (node c l' k' r')).Bal black m := by
    intro l' r' k' hl' hr'
    cases haround with
    | redLeft _ hup => exact hup.fill (.red hl' hr')
    | blackLeft _ hup => exact hup.fill (.black hl' hr')
  cases c2 with
  | red =>
      -- case 4
      cases hr with
      | @red wrl wrr kr _ hrl hrr =>
          obtain ⟨s', hs, hat2, honly⟩ := deleteCase4Left_spec hL hat'
          refine ⟨(s', false), ?_, honly, .inl ⟨rfl, _, at_iff_is.mp hat2, ?_, ?_⟩⟩
          · simp [deleteCase2Left, hbr, hs]
          · exact ids_plug_congr up (by simp [Frame.fill])
          · exact hdone (.black ht hl) (.black hrl hrr)
  | black =>
      cases c1 with
      | black =>
          -- case 2: the deficit moves to `k`
          have h1 : (s.setColor kw red).At up (node c t k (node red wl kw wr)) := by
            have := (at_cons (f := .right c t k)).mpr hat'
            exact at_cons.mp (At.setColor (d := red) this)
          refine ⟨(s.setColor kw red, true), ?_, writes_setColor.only ?_, .inr ⟨rfl, up,
            node c t k (node red wl kw wr), ?_⟩⟩
          · simp [deleteCase2Left, hbl, hbr]
          · exact mem_plug (u := up) (by simp [Frame.fill])
          · have hids : (plug up (node c t k (node red wl kw wr))).ids
                = (plug (.left c k (node black wl kw wr) :: up) t).ids :=
              ids_plug_congr up (by simp [Frame.fill])
            cases haround with
            | redLeft _ hup =>
                exact ⟨n, ⟨h1, hup.of_red, .inr ⟨_, _, _, rfl, .black ht (.red hl hr)⟩⟩, rfl,
                  hids, fun hb => by cases hb⟩
            | blackLeft _ hup =>
                exact ⟨n + 1, ⟨h1, hup, .inl (.black ht (.red hl hr))⟩, rfl, hids,
                  fun _ => ⟨rfl, rfl⟩⟩
      | red =>
          cases hl with
          | @red wll wlr kl _ hll hlr =>
              -- case 3 turns the red child of `w` outwards, then case 4
              have h1 : (s.setColor kl black).At (.right c t k :: up)
                  (node black (node black wll kl wlr) kw wr) := by
                have := (at_cons (f := .left black kw wr)).mpr
                  ((at_cons (f := .right c t k)).mpr hat')
                exact at_cons.mp (At.setColor (d := black) this)
              obtain ⟨s1, hs1, hat1, honly1, -⟩ :=
                hR _ _ _ _ _ _ _ _ _ (At.setColor (d := red) h1)
              have hat1' := at_cons.mp hat1
              have hk1 : s1.right k = some kl := hat1'.rep.2.2.1
              obtain ⟨s', hs, hat2, honly2⟩ := deleteCase4Left_spec hL hat1'
              have hids1 : ∀ (x : Color), (plug (.right c t k :: up)
                  (node x (node black wll kl wlr) kw wr)).ids = (plug (.left c k
                    (node black (node red wll kl wlr) kw wr) :: up) t).ids :=
                fun x => ids_plug_congr up (by simp [Frame.fill])
              have hids2 : (plug up (node c t k (node black wll kl (node red wlr kw wr)))).ids
                  = (plug (.left c k (node black (node red wll kl wlr) kw wr) :: up) t).ids :=
                ids_plug_congr up (by simp [Frame.fill])
              refine ⟨(s', false), ?_, ?_, .inl ⟨rfl, _, at_iff_is.mp hat2, ?_, ?_⟩⟩
              · have hwlp' : s.left kw = some kl := hwlp
                simp [deleteCase2Left, hbr, hwlp', hwl.1, hs1, hk1, hs]
              · rw [hids1] at honly1
                rw [hids2] at honly2
                refine (((writes_setColor.only ?_).trans (writes_setColor.only ?_)).trans honly1).trans
                  honly2
                · exact mem_plug (u := up) (by simp [Frame.fill])
                · exact mem_plug (u := up) (by simp [Frame.fill])
              · exact ids_plug_congr up (by simp [Frame.fill])
              · exact hdone (.black ht hll) (.black hlr hr)

/-- **One round on the left side.** -/
theorem deleteBodyLeft_spec (onNull : Rb α → Nat → Option (Rb α × Bool)) (hL : IsRotateLeft rotL)
    (hR : IsRotateRight rotR) {w : Tree} (hat : s.At (.left c k w :: up) t) (ht : t.Bal black n)
    (haround : Around (.left c k w :: up) black (n + 1)) :
    ∃ q, deleteBodyLeft rotL rotR onNull s k = some q ∧
      DeleteStep (fun ctx' => ctx' = up) s (.left c k w :: up) t k q := by
  have hat' := at_cons.mp hat
  have hright : s.right k = w.ptr := hat'.rep.2.2.1
  obtain ⟨cw, hw, hcw⟩ : ∃ cw, w.Bal cw (n + 1) ∧ (cw = red → c = black) := by
    cases haround with
    | redLeft hw _ => exact ⟨_, hw, by simp⟩
    | blackLeft hw _ => exact ⟨_, hw, by simp⟩
  cases hw with
  | @black wl wr kw _ _ _ hl hr =>
      have hcol : s.color kw ≠ red := by
        rw [hat'.rep.2.2.2.2.2.1]
        decide
      obtain ⟨q, hq, hstep⟩ := deleteCase2Left_spec hL hR hat ht (.black hl hr) haround
      refine ⟨q, ?_, hstep.1, ?_⟩
      · simp only [deleteBodyLeft, hright, Tree.ptr_node, deleteCase1Left, if_neg hcol,
          Option.bind_some, hq]
      · rcases hstep.2 with h | ⟨h1, ctx', t', n', h2, h3, h4, h5⟩
        · exact .inl h
        · exact .inr ⟨h1, ctx', t', n', h2, h3, h4, fun hb => (h5 hb).2⟩
  | @red wl wr kw _ hl hr =>
      have hc : c = black := hcw rfl
      subst hc
      obtain ⟨s1, hs1, hat1, honly1⟩ := deleteCase1Left_spec hL hat'
      have hat1' := (at_cons (f := .left red k wl)).mpr
        ((at_cons (f := .left black kw wr)).mpr hat1)
      have hk1 : s1.right k = wl.ptr := hat1'.around.2.2.1
      have haround1 : Around (.left red k wl :: .left black kw wr :: up) black (n + 1) := by
        cases haround with
        | blackLeft _ hup => exact .redLeft hl (.blackLeft hr hup)
      have hids : (plug (.left red k wl :: .left black kw wr :: up) t).ids
          = (plug (.left black k (node red wl kw wr) :: up) t).ids :=
        ids_plug_congr up (by simp [Frame.fill])
      cases hl with
      | @black wll wlr kwl _ _ _ hll hlr =>
          obtain ⟨q, hq, honly, hstep⟩ :=
            deleteCase2Left_spec hL hR hat1' ht (.black hll hlr) haround1
          refine ⟨q, ?_, ?_, ?_⟩
          · simp only [deleteBodyLeft, hright, Tree.ptr_node, hs1, Option.bind_some, hk1, hq]
          · rw [hids] at honly
            exact honly1.trans honly
          · rw [hids] at hstep
            rcases hstep with h | ⟨h1, ctx', t', n', h2, h3, h4, h5⟩
            · exact .inl h
            · -- `k` is red now, so the loop ends there
              exact .inr ⟨h1, ctx', t', n', h2, h3, h4, fun hb => absurd (h5 hb).1 (by decide)⟩

/-! ## The reflected side -/

/-- The reflected result of a round. -/
def mirrorStep (q : Rb α × Bool) : Rb α × Bool := (q.1.mirror, q.2)

theorem deleteCase1Right_reflect (s : Rb α) (k w : Nat) :
    deleteCase1Right rotR s k w
      = (deleteCase1Left (reflect rotR) s.mirror k w).map mirror := by
  unfold deleteCase1Right deleteCase1Left
  by_cases h : s.color w = red
  · have h' : s.mirror.color w = red := h
    rw [if_pos h, if_pos h']
    have hm : ((s.mirror.setColor w black).setColor k red).mirror
        = (s.setColor w black).setColor k red := rfl
    simp [reflect, hm, Option.map_map, Function.comp_def]
  · have h' : ¬ s.mirror.color w = red := h
    rw [if_neg h, if_neg h']
    rfl

theorem deleteCase4Right_reflect (s : Rb α) (k w : Nat) :
    deleteCase4Right rotR s k w
      = (deleteCase4Left (reflect rotR) s.mirror k w).map mirror := by
  have hm : ∀ p : Option Nat, ((((s.mirror.setColor w (s.mirror.color k)).setColor k black)).setColor?
      p black).mirror = ((s.setColor w (s.color k)).setColor k black).setColor? p black := by
    intro p
    cases p <;> rfl
  simp only [deleteCase4Right, deleteCase4Left, reflect, hm, Option.map_map, Function.comp_def]
  simp

theorem isBlack_mirror (s : Rb α) (p : Option Nat) : s.mirror.isBlack p = s.isBlack p := by
  cases p <;> rfl

theorem deleteCase2Right_reflect (s : Rb α) (k w : Nat) :
    deleteCase2Right rotL rotR s k w
      = (deleteCase2Left (reflect rotR) (reflect rotL) s.mirror k w).map mirrorStep := by
  have hm : ∀ p : Option Nat, ((s.mirror.setColor? p black).setColor w red).mirror
      = (s.setColor? p black).setColor w red := by
    intro p
    cases p <;> rfl
  simp only [deleteCase2Right, deleteCase2Left, isBlack_mirror, mirror_left, mirror_right]
  split
  · rfl
  · split
    · simp only [reflect, hm]
      cases rotL ((s.setColor? (s.right w) black).setColor w red) w with
      | none => rfl
      | some s1 =>
          simp only [Option.map_some, Option.bind_some, mirror_right]
          cases s1.left k with
          | none => rfl
          | some w' =>
              simp only [Option.bind_some, deleteCase4Right_reflect, Option.map_map]
              rfl
    · simp only [deleteCase4Right_reflect, Option.map_map]
      rfl

theorem deleteBodyRight_reflect (s : Rb α) (k : Nat) :
    deleteBodyRight rotL rotR onNull s k
      = (deleteBodyLeft (reflect rotR) (reflect rotL)
          (fun s k => (onNull s.mirror k).map mirrorStep) s.mirror k).map mirrorStep := by
  have hnull : ∀ o : Option (Rb α × Bool), (o.map mirrorStep).map mirrorStep = o := by
    intro o
    cases o <;> rfl
  simp only [deleteBodyRight, deleteBodyLeft, mirror_right]
  cases s.left k with
  | none => exact (hnull _).symm
  | some w =>
      simp only [deleteCase1Right_reflect]
      cases deleteCase1Left (reflect rotR) s.mirror k w with
      | none => rfl
      | some s1 =>
          simp only [Option.map_some, Option.bind_some, mirror_left]
          cases s1.right k with
          | none => exact (hnull _).symm
          | some w' => exact deleteCase2Right_reflect s1.mirror k w'

theorem Deleting.mirror (h : Deleting s ctx t n) :
    Deleting s.mirror (ctx.map Frame.mirror) t.mirror n := by
  refine ⟨at_mirror.mpr h.at_, h.around.mirror, ?_⟩
  rcases h.short with h1 | ⟨l, k, r, rfl, hb⟩
  · exact .inl h1.mirror
  · exact .inr ⟨r.mirror, k, l.mirror, rfl, hb.mirror⟩

/-- **One round on the right side**, read off the left side through reflection. -/
theorem deleteBodyRight_spec (hL : IsRotateLeft rotL) (hR : IsRotateRight rotR) {w : Tree}
    (hat : s.At (.right c w k :: up) t) (ht : t.Bal black n)
    (haround : Around (.right c w k :: up) black (n + 1)) :
    ∃ q, deleteBodyRight rotL rotR onNull s k = some q ∧
      DeleteStep (fun ctx' => ctx' = up) s (.right c w k :: up) t k q := by
  obtain ⟨q, hq, honly, hstep⟩ := deleteBodyLeft_spec
    (fun s k => (onNull s.mirror k).map mirrorStep) hR.reflect hL.reflect
    (at_mirror.mpr hat) ht.mirror haround.mirror
  have hmap : Frame.left c k w.mirror :: up.map Frame.mirror
      = (Frame.right c w k :: up).map Frame.mirror := rfl
  rw [hmap] at honly hstep
  refine ⟨mirrorStep q, by rw [deleteBodyRight_reflect, hq]; rfl, honly.of_mirror, ?_⟩
  rw [ids_plug_mirror] at hstep
  rcases hstep with ⟨h1, t', h2, h3, m, h4⟩ | ⟨h1, ctx', t', n', h2, h3, h4, h5⟩
  · refine .inl ⟨h1, t'.mirror, at_mirror.mpr h2, ?_, m, h4.mirror⟩
    rw [Tree.ids_mirror, h3, List.reverse_reverse]
  · refine .inr ⟨h1, ctx'.map Frame.mirror, t'.mirror, n', h2.mirror, by simpa using h3, ?_, ?_⟩
    · rw [ids_plug_mirror, h4, List.reverse_reverse]
    · intro hb
      have := hb.mirror
      rw [Tree.mirror_mirror] at this
      rw [h5 this]
      exact map_mirror_mirror up

/-! ## The loop -/

theorem plug_ptr_of_ne_nil (h : ctx ≠ []) :
    ∃ j, (plug ctx t).ptr = some j ∧ (j ∈ before ctx ∨ j ∈ after ctx) := by
  induction ctx generalizing t with
  | nil => exact absurd rfl h
  | cons f up ih =>
      by_cases hup : up = []
      · subst hup
        cases f with
        | left c k r => exact ⟨k, rfl, by simp [after]⟩
        | right c l k => exact ⟨k, rfl, by simp [before]⟩
      · obtain ⟨j, hj, hmem⟩ := ih (t := f.fill t) hup
        refine ⟨j, hj, ?_⟩
        cases f <;> rcases hmem with hm | hm <;> simp [before, after, hm]

/-- A subtree below other nodes is not the whole tree. -/
theorem At.ptr_ne_root (h : s.At ctx t) (hctx : ctx ≠ []) : t.ptr ≠ s.root := by
  obtain ⟨j, hj, hmem⟩ := plug_ptr_of_ne_nil (t := t) hctx
  have hroot : s.root = some j := by
    rw [← hj]
    exact (at_iff_is.mp h).around
  rw [hroot]
  intro e
  rcases hmem with hm | hm
  · exact h.notMem_before (Tree.ptr_mem e) hm
  · exact h.notMem_after (Tree.ptr_mem e) hm

theorem Is.setColor?_root (h : s.Is t) : (s.setColor? s.root black).Is t.blacken := by
  cases hr : s.root with
  | none =>
      have hptr : t.ptr = none := by rw [← hr]; exact h.around.symm
      rw [Tree.ptr_eq_none.mp hptr] at h ⊢
      exact h
  | some r => exact h.setColor_root hr

/-- One round on either side. -/
theorem deleteBody_spec (onNull : Rb α → Nat → Option (Rb α × Bool)) (hL : IsRotateLeft rotL)
    (hR : IsRotateRight rotR) {f : Frame} (h : Deleting s (f :: up) t n) (hb : t.Bal black n) :
    ∃ q, (if t.ptr = s.left f.id then deleteBodyLeft rotL rotR onNull s f.id
        else deleteBodyRight rotL rotR onNull s f.id) = some q ∧
      DeleteStep (fun ctx' => ctx' = up) s (f :: up) t f.id q := by
  have har := h.at_.around
  cases f with
  | left c k w =>
      have hif : t.ptr = s.left (Frame.left c k w).id := har.2.1.symm
      rw [if_pos hif]
      exact deleteBodyLeft_spec _ hL hR h.at_ hb h.around
  | right c w k =>
      have hwne : t.ptr ≠ s.left k := by
        rw [har.2.1]
        intro e
        -- the sibling is not empty, and no node of it is in `t`
        have hw : ∃ cw, w.Bal cw (n + 1) := by
          cases h.around with
          | redRight hw _ => exact ⟨_, hw⟩
          | blackRight hw _ => exact ⟨_, hw⟩
        obtain ⟨cw, hw⟩ := hw
        cases w with
        | nil => cases hw
        | node cw wl kw wr =>
            have hm : kw ∈ t.ids := Tree.ptr_mem e
            exact h.at_.notMem_before hm (by simp [before])
      have hif : ¬ t.ptr = s.left (Frame.right c w k).id := hwne
      rw [if_neg hif]
      exact deleteBodyRight_spec hL hR h.at_ hb h.around

theorem only_setColor?_root (h : s.At [] t) (c : Color) : Only t.ids s (s.setColor? s.root c) := by
  have hroot : s.root = t.ptr := h.around
  cases hr : s.root with
  | none => exact .refl _ s
  | some i => exact writes_setColor.only (Tree.ptr_mem (hroot.symm.trans hr))

/-- **The loop ends**, within as many rounds as the place has ancestors; after painting, the
tree is red-black with the same in-order sequence. -/
theorem deleteFixup_spec (onNull : Rb α → Nat → Option (Rb α × Bool)) (hL : IsRotateLeft rotL)
    (hR : IsRotateRight rotR) (fuel : Nat) :
    ∀ {s : Rb α} {ctx : List Frame} {t : Tree} {n : Nat}, Deleting s ctx t n →
      (t.Bal black n → ctx.length < fuel) → 0 < fuel →
      ∃ s' t', deleteFixup rotL rotR onNull fuel s t.ptr (parentPtr ctx) = some s' ∧
        s'.Is t' ∧ t'.ids = (plug ctx t).ids ∧ (∃ m, t'.Bal black m) ∧
        Only (plug ctx t).ids s s' := by
  induction fuel with
  | zero => intro s ctx t n _ _ h; omega
  | succ fuel ih =>
      intro s ctx t n h hfuel _
      rcases h.short with hb | ⟨l, k, r, rfl, hb⟩
      · cases hctx : ctx with
        | nil =>
            -- the whole tree is short: nothing to do
            subst hctx
            have hroot : s.root = t.ptr := h.at_.around
            refine ⟨s.setColor? s.root black, t.blacken, ?_, Is.setColor?_root h.at_,
              by simp, hb.blacken, only_setColor?_root h.at_ black⟩
            simp [deleteFixup, deleteLoop, hroot]
        | cons f up =>
            subst hctx
            have hne : t.ptr ≠ s.root := h.at_.ptr_ne_root (by simp)
            have hblack : s.isBlack t.ptr = true := by
              rw [isBlack_ptr h.at_.rep hb]
              rfl
            obtain ⟨q, hq, honly, hstep⟩ := deleteBody_spec onNull hL hR h hb
            have hloop : deleteLoop rotL rotR onNull (fuel + 1) s t.ptr (parentPtr (f :: up))
                = if q.2 then deleteLoop rotL rotR onNull fuel q.1 (some f.id) (q.1.parent f.id)
                  else some (q.1, q.1.root) := by
              simp only [deleteLoop, parentPtr_cons, hq, Option.bind_some]
              rw [if_pos ⟨hne, hblack⟩]
            rcases hstep with ⟨h1, t', h2, h3, m, h4⟩ | ⟨h1, ctx', t', n', h2, h3, h4, h5⟩
            · refine ⟨q.1.setColor? q.1.root black, t'.blacken, ?_, Is.setColor?_root h2,
                by rw [Tree.ids_blacken, h3], h4.blacken, honly.trans (h3 ▸ only_setColor?_root h2 black)⟩
              rw [deleteFixup, hloop, h1]
              rfl
            · have hlt : t'.Bal black n' → ctx'.length < fuel := by
                intro hb'
                rw [h5 hb']
                have := hfuel hb
                simp only [List.length_cons] at this
                omega
              have hpos : 0 < fuel := by
                have := hfuel hb
                simp only [List.length_cons] at this
                omega
              obtain ⟨s', t'', hs', his, hids, hbal, honly'⟩ := ih h2 hlt hpos
              refine ⟨s', t'', ?_, his, hids.trans h4, hbal, ?_⟩
              · have hpar : q.1.parent f.id = parentPtr ctx' := by
                  have hrep := h2.at_.rep
                  cases t' with
                  | nil => simp at h3
                  | node c' l' k' r' =>
                      have : k' = f.id := by simpa using h3
                      rw [← this]
                      exact hrep.2.2.2.1
                rw [deleteFixup, hloop, h1, if_pos rfl, hpar, ← h3]
                exact hs'
              · rw [h4] at honly'
                exact honly.trans honly'
      · -- a red root: paint it
        have hcol : s.isBlack (some k) = false := by
          simp [h.at_.rep.1]
        obtain ⟨m, hm⟩ := h.around.fill hb
        refine ⟨s.setColor k black, plug ctx (node black l k r), ?_,
          at_iff_is.mp (At.setColor h.at_), ids_plug_congr ctx (by simp), ⟨m, hm⟩,
          writes_setColor.only (mem_plug (by simp))⟩
        simp only [deleteFixup, deleteLoop, Tree.ptr_node, hcol]
        simp

end Rb

end RbTree
