import Arcline.RbTree.Unlink

set_option autoImplicit false

/-! # Searching a linked tree

A search walks down from the root, to the left at the nodes where the test `goLeft` says so and to
the right at the others. On a tree whose in-order sequence the test cuts in two, such a walk ends
between the two parts: the last node it left to the right is the last of the first part
(`lastRight`), the last one it left to the left is the first of the second part (`lastLeft`), and
the link it ends at (`descend`) is where a new node goes (`attach`).
-/

namespace RbTree

open Color RbTree.Tree

namespace Rb

variable {α : Type} (goLeft less more : Nat → Bool)

/-- The last node a search from `n` leaves to the right, with a bound on the steps. -/
def lastRight : Nat → Rb α → Option Nat → Option Nat → Option (Option Nat)
  | 0, _, _, _ => none
  | _ + 1, _, none, res => some res
  | fuel + 1, s, some n, res =>
      if goLeft n then lastRight fuel s (s.left n) res else lastRight fuel s (s.right n) (some n)

/-- The last node a search from `n` leaves to the left, with a bound on the steps. -/
def lastLeft : Nat → Rb α → Option Nat → Option Nat → Option (Option Nat)
  | 0, _, _, _ => none
  | _ + 1, _, none, res => some res
  | fuel + 1, s, some n, res =>
      if goLeft n then lastLeft fuel s (s.left n) (some n) else lastLeft fuel s (s.right n) res

/-- The first node on the search from `n` that is neither to be left to the left nor to the
right. -/
def findNode : Nat → Rb α → Option Nat → Option (Option Nat)
  | 0, _, _ => none
  | _ + 1, _, none => some none
  | fuel + 1, s, some n =>
      if less n then findNode fuel s (s.left n)
      else if more n then findNode fuel s (s.right n)
      else some (some n)

/-- A link of the tree: the root pointer, or the left (`true`) or right child pointer of a
node. -/
abbrev Link := Option (Nat × Bool)

def deref (s : Rb α) : Link → Option Nat
  | none => s.root
  | some (p, true) => s.left p
  | some (p, false) => s.right p

/-- The empty link a search ends at. -/
def descend : Nat → Rb α → Link → Option Link
  | 0, _, _ => none
  | fuel + 1, s, link =>
      match s.deref link with
      | none => some link
      | some p => descend fuel s (some (p, goLeft p))

def store (s : Rb α) : Link → Option Nat → Rb α
  | none, v => s.setRoot v
  | some (p, true), v => s.setLeft p v
  | some (p, false), v => s.setRight p v

/-- Hang the node `n` into an empty link, as a red leaf. -/
def attach (s : Rb α) (link : Link) (n : Nat) : Rb α :=
  ((((s.store link (some n)).setParent n (link.map Prod.fst)).setLeft n none).setRight n
    none).setColor n red

/-- Insert `n` where a search ends, and repair the colours. -/
def rbInsert (rotL rotR : Rb α → Nat → Option (Rb α)) (fuel : Nat) (s : Rb α) (n : Nat) :
    Option (Rb α) :=
  (descend goLeft fuel s none).bind fun link =>
    insertFixup rotL rotR fuel (s.attach link n) n

/-- The nodes linked below the root. -/
inductive InTree (s : Rb α) : Nat → Prop
  | root {n : Nat} : s.root = some n → InTree s n
  | left {p n : Nat} : InTree s p → s.left p = some n → InTree s n
  | right {p n : Nat} : InTree s p → s.right p = some n → InTree s n

theorem Rep.inTree {s : Rb α} {t : Tree} {p : Option Nat} (h : s.Rep t p)
    (hroot : ∀ n, t.ptr = some n → s.InTree n) : ∀ n ∈ t.ids, s.InTree n := by
  induction t generalizing p with
  | nil => simp
  | node c l k r ihl ihr =>
      obtain ⟨-, hl, hr, -, hlrep, hrrep⟩ := h
      have hk : s.InTree k := hroot k rfl
      intro n hn
      simp only [Tree.ids_node, List.mem_append, List.mem_cons] at hn
      rcases hn with hn | rfl | hn
      · exact ihl hlrep (fun i hi => .left hk (hl.trans hi)) n hn
      · exact hk
      · exact ihr hrrep (fun i hi => .right hk (hr.trans hi)) n hn

/-- On a tree, the linked nodes are its nodes. -/
theorem Is.inTree_iff {s : Rb α} {t : Tree} (h : s.Is t) {n : Nat} : s.InTree n ↔ n ∈ t.ids := by
  constructor
  · intro hn
    induction hn with
    | root hr => exact Tree.ptr_mem ((show s.root = t.ptr from h.around).symm.trans hr)
    | left _ hl ih =>
        obtain ⟨ctx, c, l, r, rfl⟩ := exists_plug ih
        obtain ⟨-, hl', -⟩ := (at_iff_is.mpr h).rep
        refine mem_plug ?_
        simp [Tree.ptr_mem (hl'.symm.trans hl)]
    | right _ hr ih =>
        obtain ⟨ctx, c, l, r, rfl⟩ := exists_plug ih
        obtain ⟨-, -, hr', -⟩ := (at_iff_is.mpr h).rep
        refine mem_plug ?_
        simp [Tree.ptr_mem (hr'.symm.trans hr)]
  · exact h.rep.inTree (fun i hi => .root ((show s.root = t.ptr from h.around).trans hi)) n

/-! ## What the searches find -/

variable {goLeft less more} {s : Rb α} {ctx : List Frame} {t l r : Tree} {p : Option Nat} {c : Color}
  {n k fuel : Nat}

/-- The test changes at most once along `l`, from no to yes. -/
def Cuts (goLeft : Nat → Bool) (l : List Nat) : Prop :=
  l.Pairwise fun i j => goLeft i = true → goLeft j = true

theorem Cuts.of_node (h : Cuts goLeft (node c l k r).ids) :
    Cuts goLeft l.ids ∧ Cuts goLeft r.ids ∧ (∀ i ∈ l.ids, goLeft i = true → goLeft k = true) ∧
      ∀ j ∈ r.ids, goLeft k = true → goLeft j = true := by
  simp only [Cuts, Tree.ids_node, List.pairwise_append, List.pairwise_cons] at h
  obtain ⟨hl, ⟨hk, hr⟩, hx⟩ := h
  exact ⟨hl, hr, fun i hi => hx i hi k (by simp), hk⟩

/-- Where the walk goes left, the first part lies to the left of the node. -/
theorem Cuts.filter_left (h : Cuts goLeft (node c l k r).ids) (hk : goLeft k = true) :
    ((node c l k r).ids.filter fun i => !goLeft i) = l.ids.filter (fun i => !goLeft i) ∧
      (node c l k r).ids.filter goLeft = l.ids.filter goLeft ++ k :: r.ids := by
  obtain ⟨-, -, -, hr⟩ := h.of_node
  have hall : ∀ j ∈ r.ids, goLeft j = true := fun j hj => hr j hj hk
  have hnone : r.ids.filter (fun i => !goLeft i) = [] := by
    rw [List.filter_eq_nil_iff]
    intro j hj
    simp [hall j hj]
  constructor
  · simp [hk, hnone]
  · simp [hk, List.filter_eq_self.mpr hall]

/-- Where it goes right, the second part lies to the right of it. -/
theorem Cuts.filter_right (h : Cuts goLeft (node c l k r).ids) (hk : goLeft k = false) :
    ((node c l k r).ids.filter fun i => !goLeft i) =
        l.ids ++ k :: r.ids.filter (fun i => !goLeft i) ∧
      (node c l k r).ids.filter goLeft = r.ids.filter goLeft := by
  obtain ⟨-, -, hl, -⟩ := h.of_node
  have hall : ∀ i ∈ l.ids, goLeft i = false := by
    intro i hi
    cases hi' : goLeft i with
    | false => rfl
    | true => rw [hl i hi hi'] at hk; exact absurd hk (by simp)
  have hnone : l.ids.filter goLeft = [] := by
    rw [List.filter_eq_nil_iff]
    intro i hi
    simp [hall i hi]
  constructor
  · have : l.ids.filter (fun i => !goLeft i) = l.ids :=
      List.filter_eq_self.mpr fun i hi => by simp [hall i hi]
    simp [hk, this]
  · simp [hk, hnone]

theorem lastRight_spec (hrep : s.Rep t p) (hcut : Cuts goLeft t.ids) (hfuel : t.ids.length < fuel)
    (res : Option Nat) :
    lastRight goLeft fuel s t.ptr res
      = some ((t.ids.filter fun i => !goLeft i).getLast?.or res) := by
  induction t generalizing fuel p res with
  | nil =>
      rcases fuel with _ | fuel
      · omega
      simp [lastRight]
  | node c l k r ihl ihr =>
      rcases fuel with _ | fuel
      · omega
      obtain ⟨-, hl, hr, -, hlrep, hrrep⟩ := hrep
      obtain ⟨hcl, hcr, -, -⟩ := hcut.of_node
      simp only [Tree.ids_node, List.length_append, List.length_cons] at hfuel
      cases hk : goLeft k with
      | true =>
          rw [(hcut.filter_left hk).1]
          simp only [Tree.ptr_node, lastRight, hk, if_true, hl]
          exact ihl hlrep hcl (by omega) res
      | false =>
          rw [(hcut.filter_right hk).1]
          simp only [Tree.ptr_node, lastRight, hk, Bool.false_eq_true, if_false, hr]
          rw [ihr hrrep hcr (by omega) (some k), List.getLast?_append, List.getLast?_cons]
          cases (r.ids.filter fun i => !goLeft i).getLast? <;> simp

/-- The last node left to the left is, in the reflected pool and for the opposite test, the last one left
to the right. -/
theorem lastLeft_eq_mirror (s : Rb α) (n res : Option Nat) :
    lastLeft goLeft fuel s n res = lastRight (fun i => !goLeft i) fuel s.mirror n res := by
  induction fuel generalizing n res with
  | zero => rfl
  | succ fuel ih =>
      cases n with
      | none => rfl
      | some n =>
          cases hn : goLeft n <;> simp [lastLeft, lastRight, hn, ih]

theorem Cuts.mirror (h : Cuts goLeft t.ids) : Cuts (fun i => !goLeft i) t.mirror.ids := by
  rw [Cuts, Tree.ids_mirror, List.pairwise_reverse]
  refine List.Pairwise.imp (fun {i j} hij hj => ?_) h
  cases hi : goLeft i with
  | false => rfl
  | true => simp [hij hi] at hj

theorem lastLeft_spec (hrep : s.Rep t p) (hcut : Cuts goLeft t.ids) (hfuel : t.ids.length < fuel)
    (res : Option Nat) :
    lastLeft goLeft fuel s t.ptr res = some ((t.ids.filter goLeft).head?.or res) := by
  rw [lastLeft_eq_mirror, ← Tree.ptr_mirror,
    lastRight_spec (rep_mirror.mpr hrep) hcut.mirror (by simpa using hfuel)]
  simp [List.filter_reverse]

/-- On a sequence on which the tests are strictly monotone, the search finds the one node on which
both fail, if there is one. -/
theorem findNode_spec (hrep : s.Rep t p) (hex : ∀ i, less i = true → more i = false)
    (hmono : t.ids.Pairwise fun i j => more i = false → less j = true) (hfuel : t.ids.length < fuel) :
    findNode less more fuel s t.ptr = some (t.ids.find? fun i => !less i && !more i) := by
  induction t generalizing fuel p with
  | nil =>
      rcases fuel with _ | fuel
      · omega
      simp [findNode]
  | node c l k r ihl ihr =>
      rcases fuel with _ | fuel
      · omega
      obtain ⟨-, hl, hr, -, hlrep, hrrep⟩ := hrep
      simp only [Tree.ids_node, List.length_append, List.length_cons] at hfuel
      simp only [Tree.ids_node, List.pairwise_append, List.pairwise_cons] at hmono
      obtain ⟨hml, ⟨hk, hmr⟩, hx⟩ := hmono
      simp only [Tree.ptr_node, Tree.ids_node, findNode]
      -- unless the search goes left, every node to the left of `k` is passed to the right
      have hleft : less k = false → l.ids.find? (fun i => !less i && !more i) = none := by
        intro hlk
        rw [List.find?_eq_none]
        intro i hi
        cases hm : more i with
        | true => simp
        | false => rw [hx i hi k (by simp) hm] at hlk; exact absurd hlk (by simp)
      cases hlk : less k with
      | true =>
          have hright : r.ids.find? (fun i => !less i && !more i) = none := by
            rw [List.find?_eq_none]
            intro j hj
            simp [hk j hj (hex k hlk)]
          rw [if_pos rfl, hl, ihl hlrep hml (by omega), List.find?_append, List.find?_cons]
          simp [hlk, hright]
      | false =>
          cases hmk : more k with
          | true =>
              rw [if_neg (by simp), if_pos rfl, hr, ihr hrrep hmr (by omega), List.find?_append,
                List.find?_cons]
              simp [hlk, hmk, hleft hlk]
          | false =>
              rw [if_neg (by simp), if_neg (by simp), List.find?_append, List.find?_cons]
              simp [hlk, hmk, hleft hlk]

/-- Whatever the order, the search comes to an end, and what it finds is a node of the tree on which
both tests fail. -/
theorem findNode_mem (hrep : s.Rep t p) (hfuel : t.ids.length < fuel) :
    ∃ r, findNode less more fuel s t.ptr = some r ∧
      ∀ n, r = some n → n ∈ t.ids ∧ less n = false ∧ more n = false := by
  induction t generalizing fuel p with
  | nil =>
      rcases fuel with _ | fuel
      · omega
      exact ⟨none, by simp [findNode], by simp⟩
  | node c l k r ihl ihr =>
      rcases fuel with _ | fuel
      · omega
      obtain ⟨-, hl, hr, -, hlrep, hrrep⟩ := hrep
      simp only [Tree.ids_node, List.length_append, List.length_cons] at hfuel
      simp only [Tree.ptr_node, Tree.ids_node, findNode]
      cases hlk : less k with
      | true =>
          obtain ⟨x, hx, hmem⟩ := ihl hlrep (show l.ids.length < fuel by omega)
          exact ⟨x, by simpa [hl] using hx, fun n hn => by simp [hmem n hn]⟩
      | false =>
          cases hmk : more k with
          | true =>
              obtain ⟨x, hx, hmem⟩ := ihr hrrep (show r.ids.length < fuel by omega)
              exact ⟨x, by simpa [hr] using hx, fun n hn => by simp [hmem n hn]⟩
          | false =>
              refine ⟨some k, by simp, fun n hn => ?_⟩
              obtain rfl : k = n := by simpa using hn
              exact ⟨by simp, hlk, hmk⟩

/-! ## Hanging a node in -/

/-- The link at the place `ctx`. -/
def linkOf : List Frame → Link
  | [] => none
  | .left _ k _ :: _ => some (k, true)
  | .right _ _ k :: _ => some (k, false)

theorem fst_linkOf (ctx : List Frame) : (linkOf ctx).map Prod.fst = parentPtr ctx := by
  rcases ctx with _ | ⟨_ | _, _⟩ <;> rfl

theorem At.deref (h : s.At ctx t) : s.deref (linkOf ctx) = t.ptr := by
  rcases ctx with _ | ⟨_ | _, _⟩
  · exact h.around
  · exact h.around.2.1
  · exact h.around.2.2.1

/-- The search ends at the empty place between the two parts. -/
theorem descend_at (hat : s.At ctx t) (hcut : Cuts goLeft t.ids) (hfuel : t.ids.length < fuel) :
    ∃ ctx', plug ctx' nil = plug ctx t ∧
      before ctx' = before ctx ++ t.ids.filter (fun i => !goLeft i) ∧
      after ctx' = t.ids.filter goLeft ++ after ctx ∧
      descend goLeft fuel s (linkOf ctx) = some (linkOf ctx') := by
  induction t generalizing ctx fuel with
  | nil =>
      rcases fuel with _ | fuel
      · omega
      exact ⟨ctx, rfl, by simp, by simp, by simp [descend, hat.deref]⟩
  | node c l k r ihl ihr =>
      rcases fuel with _ | fuel
      · omega
      obtain ⟨hcl, hcr, -, -⟩ := hcut.of_node
      simp only [Tree.ids_node, List.length_append, List.length_cons] at hfuel
      simp only [descend, hat.deref, Tree.ptr_node]
      cases hk : goLeft k with
      | true =>
          obtain ⟨ctx', hplug, hb, ha, hd⟩ :=
            ihl (show s.At (.left c k r :: ctx) l from at_cons.mpr hat) hcl
              (show l.ids.length < fuel by omega)
          refine ⟨ctx', hplug, ?_, ?_, hd⟩
          · rw [hb, (hcut.filter_left hk).1]
            rfl
          · rw [ha, (hcut.filter_left hk).2]
            simp [after]
      | false =>
          obtain ⟨ctx', hplug, hb, ha, hd⟩ :=
            ihr (show s.At (.right c l k :: ctx) r from at_cons.mpr hat) hcr
              (show r.ids.length < fuel by omega)
          refine ⟨ctx', hplug, ?_, ?_, hd⟩
          · rw [hb, (hcut.filter_right hk).1]
            simp [before]
          · rw [ha, (hcut.filter_right hk).2]
            rfl

theorem attach_parent (s : Rb α) (link : Link) (n : Nat) :
    (s.attach link n).parent = Function.update s.parent n (link.map Prod.fst) := by
  rcases link with _ | ⟨p, _ | _⟩ <;> rfl

/-- Apart from the new node and the link itself nothing changes. -/
theorem only_attach : Only (before ctx ++ n :: after ctx) s (s.attach (linkOf ctx) n) := by
  have hn : n ∈ before ctx ++ n :: after ctx := by simp
  have hstore : Only (before ctx ++ n :: after ctx) s (s.store (linkOf ctx) (some n)) := by
    rcases ctx with _ | ⟨_ | _, _⟩
    · exact only_setRoot
    · exact writes_setLeft.only (by simp [after])
    · exact writes_setRight.only (by simp [before])
  exact (((hstore.trans (writes_setParent.only hn)).trans (writes_setLeft.only hn)).trans
    (writes_setRight.only hn)).trans (writes_setColor.only hn)

/-- Hanging a node that is not in the tree into an empty place. -/
theorem attach_at (hat : s.At ctx nil) (hn : n ∉ (plug ctx nil).ids) :
    (s.attach (linkOf ctx) n).At ctx (node red nil n nil) := by
  rw [ids_plug] at hn
  simp only [Tree.ids_nil, List.nil_append, List.mem_append, not_or] at hn
  obtain ⟨hnb, hna⟩ := hn
  have hnodup : (plug ctx (node red nil n nil)).ids.Nodup := by
    have h := hat.nodup
    rw [ids_plug] at h ⊢
    simp only [Tree.ids_nil, List.nil_append, Tree.ids_node, List.cons_append] at h ⊢
    rw [List.nodup_middle, List.nodup_cons]
    exact ⟨by simp [hnb, hna], h⟩
  have hrep : (s.attach (linkOf ctx) n).Rep (node red nil n nil) (parentPtr ctx) := by
    refine ⟨by simp [attach], by simp [attach], by simp [attach], ?_, trivial, trivial⟩
    rw [attach_parent, Function.update_self, fst_linkOf]
  -- what was around the place stays, but for the link itself
  have haround : (s.store (linkOf ctx) (some n)).RepAround ctx (some n) := by
    have hd := hat.nodup
    have ha := hat.around
    rcases ctx with _ | ⟨⟨c, k, r⟩ | ⟨c, l, k⟩, up⟩
    · rfl
    · simp only [plug_cons, Frame.fill, ids_plug, Tree.ids_node, Tree.ids_nil, List.nil_append,
        List.nodup_append, List.nodup_cons, List.cons_append, List.mem_append, List.mem_cons] at hd
      obtain ⟨hc, -, hr, hp, hrr, hup⟩ := ha
      obtain ⟨-, ⟨hkr, -⟩, hkb⟩ := hd
      refine ⟨hc, by simp [store, linkOf], hr, hp, ?_, ?_⟩
      · exact (writes_setLeft.rep fun h => hkr (.inl h)).mpr hrr
      · exact (writes_setLeft.repAround (fun h => hkb k h k (.inl rfl) rfl)
          fun h => hkr (.inr h)).mpr hup
    · simp only [plug_cons, Frame.fill, ids_plug, Tree.ids_node, Tree.ids_nil, List.nodup_append,
        List.nodup_cons, List.mem_append, List.mem_cons] at hd
      obtain ⟨hc, hl, -, hp, hlr, hup⟩ := ha
      obtain ⟨-, ⟨⟨-, -, hlk⟩, -, hka⟩, hkb⟩ := hd
      refine ⟨hc, hl, by simp [store, linkOf], hp, ?_, ?_⟩
      · exact (writes_setRight.rep fun h => hlk k h k (.inl rfl) rfl).mpr hlr
      · exact (writes_setRight.repAround (fun h => hkb k h k (.inl (.inr (.inl rfl))) rfl)
          fun h => hka k (.inr (.inl rfl)) k h rfl).mpr hup
  refine ⟨?_, hrep, hnodup⟩
  rw [Tree.ptr_node, attach, writes_setColor.repAround hnb hna, writes_setRight.repAround hnb hna,
    writes_setLeft.repAround hnb hna, writes_setParent.repAround hnb hna]
  exact haround

/-- **Insertion.** A node that is not in the tree is put between the two parts of the in-order
sequence; the tree stays red-black, and links of its nodes only are written. -/
theorem rbInsert_spec {rotL rotR : Rb α → Nat → Option (Rb α)} (hL : IsRotateLeft rotL)
    (hR : IsRotateRight rotR) {m : Nat} (his : s.Is t) (hbal : t.Bal black m) (hcut : Cuts goLeft t.ids)
    (hn : n ∉ t.ids) (hfuel : t.ids.length < fuel) :
    ∃ s' t', rbInsert goLeft rotL rotR fuel s n = some s' ∧ s'.Is t' ∧
      t'.ids = t.ids.filter (fun i => !goLeft i) ++ n :: t.ids.filter goLeft ∧
      (∃ m', t'.Bal black m') ∧ Only t'.ids s s' := by
  obtain ⟨ctx, hplug, hb, ha, hd⟩ := descend_at (show s.At [] t from his) hcut hfuel
  rw [plug_nil] at hplug
  rw [show before [] = [] from rfl, List.nil_append] at hb
  rw [show after [] = [] from rfl, List.append_nil] at ha
  subst hplug
  have hat := at_iff_is.mpr his
  have hlen : ctx.length < fuel := Nat.lt_of_le_of_lt (length_le_ids ctx nil) hfuel
  obtain ⟨s', t', hs', his', hids, hbal', honly⟩ :=
    insertFixup_spec hL hR (attach_at hat hn) hbal hlen
  refine ⟨s', t', ?_, his', ?_, hbal', ?_⟩
  · rw [rbInsert, show (none : Link) = linkOf [] from rfl, hd, Option.bind_some, hs']
  · rw [hids, hb, ha]
  · rw [hids]
    exact only_attach.trans honly

end Rb

end RbTree
