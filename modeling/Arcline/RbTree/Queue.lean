import Arcline.RbTree.Search

set_option autoImplicit false

/-! # A linked tree as a queue

A tree that is used as a queue keeps a pointer to its first node. An insertion finds out on its way
down whether the new node is the first one (`descendFirst`); taking the first node out moves the
pointer to the next one (`nextNode`). `detach` is the removal of a node written out in one piece; on
a tree it does what `unlink` does.
-/

namespace RbTree

open Color RbTree.Tree

namespace Rb

variable {α : Type} (goLeft : Nat → Bool)

/-- The empty link a search ends at, and whether it went to the left only. -/
def descendFirst : Nat → Rb α → Link → Bool → Option (Link × Bool)
  | 0, _, _, _ => none
  | fuel + 1, s, link, first =>
      match s.deref link with
      | none => some (link, first)
      | some p => descendFirst fuel s (some (p, goLeft p)) (first && goLeft p)

/-- Climb from the child `n` of `p` as long as it is a right child. -/
def climb : Nat → Rb α → Nat → Option Nat → Option (Option Nat)
  | 0, _, _, _ => none
  | _ + 1, _, _, none => some none
  | fuel + 1, s, n, some p =>
      if s.right p = some n then climb fuel s p (s.parent p) else some (some p)

/-- The node after `n` in order. -/
def nextNode (fuel : Nat) (s : Rb α) (n : Nat) : Option (Option Nat) :=
  match s.right n with
  | some r => (treeMin fuel s r).map some
  | none => climb fuel s n (s.parent n)

/-- Move the node `y`, leftmost in the right subtree of `z` and not its root, to the root of that
subtree; the result has the parent of what moved up in place of `y`. -/
def raise (s : Rb α) (z y : Nat) : Option (Rb α × Option Nat) :=
  (s.parent y).map fun p =>
    let s1 := s.setParent? (s.right y) (some p)
    let s1 := s1.setLeft p (s1.right y)
    let s1 := s1.setRight y (s1.right z)
    let s1 := s1.setParent? (s1.right y) (some y)
    (s1, s1.parent y)

/-- Take the node `z` out. -/
def detach (fuel : Nat) (s : Rb α) (z : Nat) : Option (Unlinked α) :=
  match s.left z, s.right z with
  | none, r =>
      let s1 := s.relink (s.parent z) z r
      some ⟨s1.setParent? r (s1.parent z), r, s.parent z, s.color z⟩
  | some l, none =>
      let s1 := s.relink (s.parent z) z (some l)
      some ⟨s1.setParent l (s1.parent z), some l, s.parent z, s.color z⟩
  | some _, some r =>
      (treeMin fuel s r).bind fun y =>
        (if s.parent y = some z then some (s, some y) else raise s z y).map fun q =>
          let s1 := q.1.relink (q.1.parent z) z (some y)
          let s1 := s1.setParent y (s1.parent z)
          let s1 := s1.setColor y (s1.color z)
          let s1 := s1.setLeft y (s1.left z)
          let s1 := s1.setParent? (s1.left y) (some y)
          ⟨s1, s.right y, q.2, s.color y⟩

/-- Take the node `z` out and repair the colours. -/
def rbDetach (rotL rotR : Rb α → Nat → Option (Rb α)) (onNull : Rb α → Nat → Option (Rb α × Bool))
    (fuel : Nat) (s : Rb α) (z : Nat) : Option (Rb α) :=
  (detach fuel s z).bind fun u =>
    if u.color = black then deleteFixup rotL rotR onNull fuel u.pool u.x u.xp else some u.pool

variable {goLeft} {s : Rb α} {ctx : List Frame} {t : Tree} {n z fuel : Nat}

/-! ## The first node -/

theorem descendFirst_fst (fuel : Nat) (s : Rb α) (link : Link) (first : Bool) :
    (descendFirst goLeft fuel s link first).map Prod.fst = descend goLeft fuel s link := by
  induction fuel generalizing link first with
  | zero => rfl
  | succ fuel ih =>
      rw [descendFirst, descend]
      cases s.deref link with
      | none => rfl
      | some p => exact ih _ _

/-- The flag of a search: nothing of the tree lies before the place where it ends. -/
theorem descendFirst_at {first : Bool} (hat : s.At ctx t) (hcut : Cuts goLeft t.ids)
    (hfuel : t.ids.length < fuel) :
    (descendFirst goLeft fuel s (linkOf ctx) first).map Prod.snd =
      some (first && t.ids.all goLeft) := by
  induction t generalizing ctx fuel first with
  | nil =>
      rcases fuel with _ | fuel
      · omega
      simp [descendFirst, hat.deref]
  | node c l k r ihl ihr =>
      rcases fuel with _ | fuel
      · omega
      obtain ⟨hcl, hcr, -, hkr⟩ := hcut.of_node
      simp only [Tree.ids_node, List.length_append, List.length_cons] at hfuel
      simp only [descendFirst, hat.deref, Tree.ptr_node]
      cases hk : goLeft k with
      | true =>
          have hr : r.ids.all goLeft = true :=
            List.all_eq_true.mpr fun j hj => hkr j hj hk
          have hl : (descendFirst goLeft fuel s (some (k, true)) (first && true)).map Prod.snd = _ :=
            ihl (show s.At (.left c k r :: ctx) l from at_cons.mpr hat) hcl
              (show l.ids.length < fuel by omega)
          rw [hl, Tree.ids_node, List.all_append, List.all_cons, hk, hr, Bool.and_true,
            Bool.and_true, Bool.and_true]
      | false =>
          have hr : (descendFirst goLeft fuel s (some (k, false)) (first && false)).map Prod.snd = _ :=
            ihr (show s.At (.right c l k :: ctx) r from at_cons.mpr hat) hcr
              (show r.ids.length < fuel by omega)
          rw [hr, Tree.ids_node, List.all_append, List.all_cons, hk, Bool.false_and, Bool.and_false,
            Bool.and_false, Bool.and_false, Bool.false_and]

/-- The search ends where `descend` ends, and its flag says whether the new node comes before all
nodes of the tree. -/
theorem descendFirst_eq (his : s.Is t) (hcut : Cuts goLeft t.ids) (hfuel : t.ids.length < fuel) :
    descendFirst goLeft fuel s none true =
      (descend goLeft fuel s none).map fun link => (link, t.ids.all goLeft) := by
  have hsnd : (descendFirst goLeft fuel s none true).map Prod.snd = some (t.ids.all goLeft) :=
    descendFirst_at (show s.At [] t from his) hcut hfuel
  rw [← descendFirst_fst fuel s none true]
  cases h : descendFirst goLeft fuel s none true with
  | none => rfl
  | some q =>
      rw [h, Option.map_some] at hsnd
      rw [Option.map_some, Option.map_some, ← Option.some.inj hsnd]

/-- Whatever the test, the search goes the way of a test that cuts the sequence in two: the one that
sends to the left what lies behind the place where the search ends. -/
theorem exists_cuts (goLeft : Nat → Bool) (hat : s.At ctx t) :
    ∃ g, Cuts g t.ids ∧ ∀ g', (∀ i ∈ t.ids, g' i = g i) → ∀ fuel first,
      descendFirst goLeft fuel s (linkOf ctx) first = descendFirst g' fuel s (linkOf ctx) first := by
  induction t generalizing ctx with
  | nil =>
      refine ⟨goLeft, List.Pairwise.nil, fun g' _ fuel first => ?_⟩
      cases fuel with
      | zero => rfl
      | succ fuel => simp [descendFirst, hat.deref]
  | node c l k r ihl ihr =>
      have hnodup : (node c l k r).ids.Nodup := by
        have h := hat.nodup
        rw [ids_plug] at h
        exact (List.nodup_append.mp (List.nodup_append.mp h).2.1).1
      rw [Tree.ids_node, List.nodup_append, List.nodup_cons] at hnodup
      obtain ⟨-, ⟨hkr, -⟩, hlr⟩ := hnodup
      cases hk : goLeft k with
      | true =>
          obtain ⟨g, hcut, hwalk⟩ := ihl (show s.At (.left c k r :: ctx) l from at_cons.mpr hat)
          have hkl : k ∉ l.ids := fun h => hlr k h k List.mem_cons_self rfl
          have hin : ∀ i ∈ l.ids, (if i ∈ l.ids then g i else true) = g i := fun i hi => if_pos hi
          have hout : ∀ i ∈ k :: r.ids, (if i ∈ l.ids then g i else true) = true := by
            intro i hi
            exact if_neg fun h => hlr i h i hi rfl
          refine ⟨fun i => if i ∈ l.ids then g i else true, ?_, fun g' hg' fuel first => ?_⟩
          · rw [Cuts, Tree.ids_node, List.pairwise_append]
            refine ⟨hcut.imp_of_mem fun hi hj hij => ?_, ?_, fun i _ j hj _ => hout j hj⟩
            · rw [hin _ hi, hin _ hj]
              exact hij
            · exact List.pairwise_of_forall_mem_list fun i _ j hj _ => hout j hj
          · have hg'k : g' k = true := (hg' k (by simp)).trans (if_neg hkl)
            cases fuel with
            | zero => rfl
            | succ fuel =>
                simp only [descendFirst, hat.deref, Tree.ptr_node, hk, hg'k]
                refine hwalk g' (fun i hi => ?_) fuel _
                exact (hg' i (by simp [hi])).trans (hin i hi)
      | false =>
          obtain ⟨g, hcut, hwalk⟩ := ihr (show s.At (.right c l k :: ctx) r from at_cons.mpr hat)
          have hin : ∀ i ∈ r.ids, (if i ∈ r.ids then g i else false) = g i := fun i hi => if_pos hi
          have hout : ∀ i ∈ l.ids ++ [k], (if i ∈ r.ids then g i else false) = false := by
            intro i hi
            refine if_neg fun h => ?_
            rcases List.mem_append.mp hi with hi | hi
            · exact hlr i hi i (List.mem_cons_of_mem k h) rfl
            · exact hkr (List.mem_singleton.mp hi ▸ h)
          have hfalse : ∀ i ∈ l.ids ++ [k], ∀ j : Nat,
              (if i ∈ r.ids then g i else false) = true →
                (if j ∈ r.ids then g j else false) = true := by
            intro i hi j htrue
            rw [hout i hi] at htrue
            exact absurd htrue (by simp)
          refine ⟨fun i => if i ∈ r.ids then g i else false, ?_, fun g' hg' fuel first => ?_⟩
          · rw [Cuts, Tree.ids_node, List.append_cons, List.pairwise_append]
            refine ⟨List.pairwise_of_forall_mem_list fun i hi j _ => hfalse i hi j,
              hcut.imp_of_mem fun hi hj hij => ?_, fun i hi j _ => hfalse i hi j⟩
            rw [hin _ hi, hin _ hj]
            exact hij
          · have hg'k : g' k = false := (hg' k (by simp)).trans (if_neg hkr)
            cases fuel with
            | zero => rfl
            | succ fuel =>
                simp only [descendFirst, hat.deref, Tree.ptr_node, hk, hg'k]
                refine hwalk g' (fun i hi => ?_) fuel _
                exact (hg' i (by simp [hi])).trans (hin i hi)

/-- Hanging a node whose links and colour are already those of a red leaf. -/
theorem attach_leaf {link : Link} (hl : s.left n = none) (hr : s.right n = none) (hc : s.color n = red)
    (hne : ∀ q, link = some q → q.1 ≠ n) :
    s.attach link n = (s.setParent n (link.map Prod.fst)).store link (some n) := by
  have hself {β : Type} (f : Nat → β) {p : Nat} {v w : β} (hp : p ≠ n) (hf : f n = w) :
      Function.update (Function.update f p v) n w = Function.update f p v := by
    rw [Function.update_eq_self_iff, Function.update_of_ne hp.symm, hf]
  have hl' : Function.update s.left n none = s.left := by
    rw [← hl, Function.update_eq_self]
  have hr' : Function.update s.right n none = s.right := by
    rw [← hr, Function.update_eq_self]
  have hc' : Function.update s.color n red = s.color := by
    rw [← hc, Function.update_eq_self]
  rcases link with _ | ⟨p, _ | _⟩
  · simp [attach, store, setRoot, setParent, setLeft, setRight, setColor, hl', hr', hc']
  · have hp := hne _ rfl
    simp [attach, store, setParent, setLeft, setRight, setColor, hl', hc', hself s.right hp hr]
  · have hp := hne _ rfl
    simp [attach, store, setParent, setLeft, setRight, setColor, hr', hc', hself s.left hp hl]

/-- **Insertion with a first pointer.** A node that is a red leaf outside the tree is put between the
two parts of the in-order sequence, and the flag says whether the first part is empty. -/
theorem insertFirst_spec {rotL rotR : Rb α → Nat → Option (Rb α)} (hL : IsRotateLeft rotL)
    (hR : IsRotateRight rotR) {m : Nat} (his : s.Is t) (hbal : t.Bal black m) (hcut : Cuts goLeft t.ids)
    (hn : n ∉ t.ids) (hl : s.left n = none) (hr : s.right n = none) (hc : s.color n = red)
    (hfuel : t.ids.length < fuel) :
    ∃ link s' t', descendFirst goLeft fuel s none true = some (link, t.ids.all goLeft) ∧
      insertFixup rotL rotR fuel ((s.setParent n (link.map Prod.fst)).store link (some n)) n =
        some s' ∧
      s'.Is t' ∧ t'.ids = t.ids.filter (fun i => !goLeft i) ++ n :: t.ids.filter goLeft ∧
      (∃ m', t'.Bal black m') ∧ Only t'.ids s s' := by
  obtain ⟨ctx, hplug, -, -, hd⟩ := descend_at (show s.At [] t from his) hcut hfuel
  obtain ⟨s', t', hs', hrest⟩ := rbInsert_spec hL hR his hbal hcut hn hfuel
  have hd' : descend goLeft fuel s none = some (linkOf ctx) := hd
  have hne : ∀ q, linkOf ctx = some q → q.1 ≠ n := by
    rintro q hq rfl
    have hp : parentPtr ctx = some q.1 := by rw [← fst_linkOf, hq, Option.map_some]
    rw [plug_nil] at hplug
    rw [← hplug, ids_plug, Tree.ids_nil, List.nil_append, List.mem_append] at hn
    exact hn (parentPtr_mem hp)
  refine ⟨linkOf ctx, s', t', ?_, ?_, hrest⟩
  · rw [descendFirst_eq his hcut hfuel, hd', Option.map_some]
  · rw [← attach_leaf hl hr hc hne]
    rw [rbInsert, hd', Option.bind_some] at hs'
    exact hs'

/-- Where nothing comes before a place, the way down to it goes left only. -/
theorem before_eq_nil (h : before ctx = []) : ∀ f ∈ ctx, ∃ c k r, f = Frame.left c k r := by
  induction ctx with
  | nil => simp
  | cons f ctx ih =>
      cases f with
      | left c k r =>
          intro g hg
          rcases List.mem_cons.mp hg with rfl | hg
          · exact ⟨c, k, r, rfl⟩
          · exact ih h g hg
      | right c l k => simp [before] at h

/-- Nothing comes before the first element. -/
theorem eq_nil_of_head? {pre rest : List Nat} (hnodup : (pre ++ n :: rest).Nodup)
    (hfirst : (pre ++ n :: rest).head? = some n) : pre = [] := by
  cases pre with
  | nil => rfl
  | cons a pre =>
      obtain rfl : a = n := by simpa using hfirst
      simp at hnodup

theorem Rep.parent_ptr {p : Option Nat} {i : Nat} (h : s.Rep t p) (hi : t.ptr = some i) :
    s.parent i = p := by
  cases t with
  | nil => exact absurd hi (by simp)
  | node c l k r =>
      obtain rfl : k = i := by simpa using hi
      exact h.2.2.2.1

/-- **The next of the first node.** -/
theorem nextNode_first (his : s.Is t) (hfirst : t.ids.head? = some n) (hfuel : t.ids.length < fuel) :
    nextNode fuel s n = some t.ids.tail.head? := by
  obtain ⟨ctx, c, l, r, rfl⟩ := exists_plug (List.mem_of_mem_head? hfirst)
  have hat := at_iff_is.mpr his
  obtain ⟨-, -, hright, hparent, -, hr⟩ := hat.rep
  have hnodup := hat.nodup
  rw [ids_plug] at hfirst hfuel hnodup ⊢
  have hnil : before ctx ++ l.ids = [] := by
    rw [Tree.ids_node, List.append_assoc, ← List.append_assoc] at hfirst hnodup
    exact eq_nil_of_head? hnodup hfirst
  obtain ⟨hb, hl⟩ := List.append_eq_nil_iff.mp hnil
  obtain rfl : l = nil := by
    cases l with
    | nil => rfl
    | node cl ll kl lr => simp at hl
  simp only [hb, Tree.ids_node, Tree.ids_nil, List.nil_append, List.cons_append,
    List.tail_cons] at hfuel ⊢
  cases r with
  | node cr rl kr rr =>
      obtain ⟨ctx2, cy, y, ry, hsplit, hkr, hb2, hf2⟩ := exists_min cr rl kr rr
      have hlen : ctx2.length < fuel := by
        have h1 := length_le_ids ctx2 (node cy nil y ry)
        rw [← hsplit] at h1
        simp only [List.length_cons, List.length_append] at hfuel h1
        omega
      rw [hsplit] at hr ⊢
      have hmin := treeMin_spec hr hf2 hkr hlen
      simp [nextNode, hright, hmin, ids_plug, hb2]
  | nil =>
      rcases fuel with _ | fuel
      · omega
      cases ctx with
      | nil => simp [nextNode, hright, hparent, climb, parentPtr, after]
      | cons f up =>
          obtain ⟨cf, k, rf, rfl⟩ := before_eq_nil hb f List.mem_cons_self
          have hne : s.right k ≠ some n := by
            rw [hat.around.2.2.1]
            intro h
            have hna : n ∉ after (.left cf k rf :: up) := hat.notMem_after (by simp)
            exact hna (by simp [after, Tree.ptr_mem h])
          have hp : s.parent n = some k := hparent
          simp [nextNode, hright, hp, climb, after, hne]

/-! ## Detaching -/

/-- The order in which the links and the colour of the new node are written does not matter. -/
theorem takePlace_eq (s : Rb α) (z y : Nat) :
    s.takePlace z y =
      let s1 := s.relink (s.parent z) z (some y)
      let s1 := s1.setParent y (s1.parent z)
      let s1 := s1.setColor y (s1.color z)
      let s1 := s1.setLeft y (s1.left z)
      s1.setParent? (s1.left y) (some y) := by
  unfold takePlace transplant
  generalize s.relink (s.parent z) z (some y) = s1
  simp only [setParent?_some, setLeft_left, setColor_left, setParent_left, Function.update_self]
  cases s1.left z <;> rfl

/-- On a left child, `raise` replaces it by its right child. -/
theorem raise_eq {y p : Nat} (hp : s.parent y = some p) (hleft : s.left p = some y)
    (hry : s.right y ≠ some y) (hrz : s.right z ≠ some y) :
    raise s z y =
      let s1 := s.transplant y (s.right y)
      let s1 := s1.setRight y (s1.right z)
      let s1 := s1.setParent? (s1.right y) (some y)
      some (s1, some p) := by
  have hmove : (s.setParent? (s.right y) (some p)).setLeft p (s.right y) =
      s.transplant y (s.right y) := by
    simp only [transplant, relink, hp, hleft, if_true, setLeft_parent]
    cases s.right y <;> rfl
  have hparent : (s.transplant y (s.right y)).parent y = some p := by
    rw [← hmove, setLeft_parent, setParent?_parent_of_ne _ _ _ _ hry, hp]
  have hright : (s.transplant y (s.right y)).right = s.right := by
    rw [← hmove, setLeft_right, setParent?_right]
  rw [raise, hp, Option.map_some]
  simp only [setParent?_right, hmove, setRight_right, Function.update_self, hright]
  rw [setParent?_parent_of_ne _ _ _ _ hrz, setRight_parent, hparent]

/-- On a tree, `detach` does what `unlink` does. -/
theorem detach_eq_unlink {c : Color} {l r : Tree} (hat : s.At ctx (node c l z r))
    (hfuel : (plug ctx (node c l z r)).ids.length < fuel) : detach fuel s z = unlink fuel s z := by
  obtain ⟨-, hlz, hrz, -, -, hr⟩ := hat.rep
  cases l with
  | nil =>
      unfold detach unlink
      rw [hlz]
      rfl
  | node cl ll kl lr =>
      cases r with
      | nil =>
          unfold detach unlink
          rw [hlz, hrz]
          rfl
      | node cr rl kr rr =>
          obtain ⟨ctx2, cy, y, ry, hsplit, hkr, -, hf2⟩ := exists_min cr rl kr rr
          rw [hsplit] at hat hfuel hr
          have hlen : ctx2.length < fuel := by
            have h1 := length_le_ids ctx2 (node cy nil y ry)
            rw [ids_plug] at hfuel
            simp only [Tree.ids_node, List.length_append, List.length_cons] at hfuel
            omega
          have hmin := treeMin_spec hr hf2 hkr hlen
          have haty : s.At (ctx2 ++ .right c (node cl ll kl lr) z :: ctx) (node cy nil y ry) :=
            at_append.mpr (at_cons.mpr hat)
          obtain ⟨-, hly, hry, hpy, -, hryrep⟩ := haty.rep
          unfold detach unlink
          rw [hlz, hrz]
          simp only [Tree.ptr_node, hmin, Option.bind_some, Option.map_some]
          cases ctx2 with
          | nil =>
              -- the successor is the right child itself
              have hpz : s.parent y = some z := hpy
              have hself : s.setParent? (s.right y) (some y) = s := by
                refine setParent?_self fun i hi => ?_
                exact hryrep.parent_ptr (hry.symm.trans hi)
              simp only [hpz, if_true, Option.map_some, hself, takePlace_eq]
          | cons f up =>
              obtain ⟨cf, p, rf, rfl⟩ := hf2 f List.mem_cons_self
              have hp : s.parent y = some p := hpy
              have hleft : s.left p = some y := haty.around.2.1
              have hd := haty.nodup
              simp only [ids_plug, List.cons_append, before, after, before_append, after_append,
                Tree.ids_node, Tree.ids_nil] at hd
              have hpz : s.parent y ≠ some z := by
                rw [hp]
                rintro h
                obtain rfl : p = z := Option.some.inj h
                simp [List.nodup_append] at hd
              have hry' : s.right y ≠ some y := by
                intro h
                have hyy : some y = some p :=
                  (hryrep.parent_ptr (hry.symm.trans h)).symm.trans hp
                rw [← Option.some.inj hyy, hly] at hleft
                exact absurd hleft (by simp)
              have hkr' : s.right z ≠ some y := by
                rw [hrz, Tree.ptr_node]
                intro h
                exact hpz (Option.some.inj h ▸ hr.parent_ptr hkr)
              rw [if_neg hpz, if_neg hpz, raise_eq hp hleft hry' hkr', hp]
              simp only [Option.map_some, takePlace_eq]

/-- **Detaching.** On a red-black tree, `rbDetach` is `rbDelete`. -/
theorem rbDetach_eq {rotL rotR : Rb α → Nat → Option (Rb α)}
    {onNull : Rb α → Nat → Option (Rb α × Bool)} (his : s.Is t) (hz : z ∈ t.ids)
    (hfuel : t.ids.length < fuel) :
    rbDetach rotL rotR onNull fuel s z = rbDelete rotL rotR onNull fuel s z := by
  obtain ⟨ctx, c, l, r, rfl⟩ := exists_plug hz
  rw [rbDetach, rbDelete, detach_eq_unlink (at_iff_is.mpr his) hfuel]

end Rb

end RbTree
