import Arcline.Mm.VmallocSpace

set_option autoImplicit false

/-! # The loops of `coalesce_free_list`

The two lists of the allocator go through the same `next` fields. A merge takes both blocks off
`free_list` and puts one of them in front of the pool, while `cur` or `next` may still point at it: the
walk then goes on along the pool. If the blocks of the list are apart this does not happen, and the loops
end (`coalesce_well_linked`). If they are not, the walk can get into a part of the nodes that no `next`
pointer leads out of (`Closed`), and then it never ends.
-/

namespace Arcline

open Linked

namespace Vmalloc

variable {v : Vmalloc} {blocks free : List Nat}

/-- The two lists: `blocks` on `free_list`, with their `prev` pointers, and `free` in the pool. They end
and have no node in common. -/
structure Lists (v : Vmalloc) (blocks free : List Nat) : Prop where
  list : Doubly v.next v.prev none v.freeList blocks
  pool : Chain v.next v.freePoolList free
  nodup : (blocks ++ free).Nodup

/-- One of the blocks ends where the other one starts. -/
def Adjacent (v : Vmalloc) (b c : Nat) : Prop :=
  v.va b + v.size b = v.va c ∨ v.va c + v.size c = v.va b

instance (v : Vmalloc) (b c : Nat) : Decidable (v.Adjacent b c) := inferInstanceAs (Decidable (_ ∨ _))

/-- The blocks are not empty and do not overlap. -/
structure Disjoint (v : Vmalloc) (blocks : List Nat) : Prop where
  pos : ∀ b ∈ blocks, 0 < (v.size b).toNat
  disjoint : blocks.Pairwise fun b c =>
    (v.va b).toNat + (v.size b).toNat ≤ (v.va c).toNat ∨
      (v.va c).toNat + (v.size c).toNat ≤ (v.va b).toNat

/-- What `coalesce_free_list` should leave behind: two lists, and no two blocks to be merged. If the
`prev` pointers of the pool were right before they still are. -/
def Coalesced (v v' : Vmalloc) (free : List Nat) : Prop :=
  ∃ blocks' free', v'.Lists blocks' free' ∧ blocks'.Pairwise (fun b c => ¬ v'.Adjacent b c) ∧
    (Doubly v.next v.prev none v.freePoolList free → Doubly v'.next v'.prev none v'.freePoolList free')

/-- A block is not adjacent to itself unless it is empty. -/
theorem apart_of_pairwise (hpos : ∀ b ∈ blocks, 0 < (v.size b).toNat)
    (hapart : blocks.Pairwise fun b c => ¬ v.Adjacent b c) :
    ∀ b ∈ blocks, ∀ c ∈ blocks, v.va b + v.size b ≠ v.va c := by
  have hself : ∀ b ∈ blocks, v.va b + v.size b ≠ v.va b := by
    intro b hb heq
    have hzero : v.size b = 0 := by
      calc v.size b = v.va b + v.size b - v.va b := by rw [BitVec.add_comm, BitVec.add_sub_cancel]
        _ = 0#64 := by rw [heq, BitVec.sub_self]
    have hnat := hpos b hb
    rw [hzero] at hnat
    exact absurd hnat (by decide)
  intro b hb c hc heq
  by_cases hbc : b = c
  · exact hself b hb (hbc ▸ heq)
  · have : Std.Symm fun b c => ¬ v.Adjacent b c := ⟨fun _ _ h h' => h h'.symm⟩
    exact hapart.forall hb hc hbc (.inl heq)

/-- **`coalesce_free_list` ends, and leaves two proper lists and no blocks to merge**, if no two blocks
are adjacent. -/
theorem coalesce_well_linked (h : v.Lists blocks free) (hdisj : v.Disjoint blocks)
    (hapart : blocks.Pairwise fun b c => ¬ v.Adjacent b c) :
    ∃ v', (∀ steps > blocks.length, v.coalesceFreeList steps = some v') ∧ v.Coalesced v' free := by
  have hends := apart_of_pairwise hdisj.pos hapart
  refine ⟨v, fun steps hsteps => ?_, blocks, free, h, hapart, id⟩
  rw [coalesceFreeList_apart h.list.chain hends, if_pos (.inr hsteps)]

/-- Two free regions of one page each, `gap` bytes apart and the lower one first on the list. The nodes
up to `n` are in the pool as `init_pool` left them there. -/
def twoBlocks (n : Nat) (gap : Word) : Vmalloc where
  va b := if b = n + 1 then vmallocStart else if b = n + 2 then vmallocStart + 0x3000 + gap else 0
  size b := if b = n + 1 ∨ b = n + 2 then 0x3000 else 0
  next b := if b = n + 1 then some (n + 2) else if b = n + 2 ∨ b = 0 then none else some (b - 1)
  prev b := if b = n + 2 then some (n + 1) else none
  freeList := some (n + 1)
  vmallocNext := vmallocStart + 0x6000 + gap
  freePoolList := some n
  initialized := true

theorem chain_twoBlocks (n : Nat) (gap : Word) {k : Nat} (hk : k ≤ n) :
    Chain (twoBlocks n gap).next (some k) (List.range (k + 1)).reverse := by
  induction k with
  | zero => exact ⟨rfl, by simp [twoBlocks]⟩
  | succ k ih =>
      have hnext : (twoBlocks n gap).next (k + 1) = some k := by
        simp only [twoBlocks]
        rw [if_neg (by omega), if_neg (by omega), Nat.add_sub_cancel]
      rw [List.range_succ, List.reverse_append, List.reverse_singleton, List.singleton_append]
      refine ⟨rfl, ?_⟩
      rw [hnext]
      exact ih (by omega)

theorem lists_twoBlocks (n : Nat) (gap : Word) :
    (twoBlocks n gap).Lists [n + 1, n + 2] (List.range (n + 1)).reverse where
  list := by simp [twoBlocks, Doubly]
  pool := chain_twoBlocks n gap (Nat.le_refl n)
  nodup := by
    have hrange : (List.range (n + 1)).reverse.Nodup := List.nodup_reverse.mpr List.nodup_range
    refine List.nodup_append.mpr ⟨by simp, hrange, fun x hx y hy => ?_⟩
    have hlt := List.mem_range.mp (List.mem_reverse.mp hy)
    simp only [List.mem_cons, List.not_mem_nil, or_false] at hx
    omega

/-- Two blocks with a region between them. -/
theorem coalesce_well_linked_gap :
    ∃ v', (∀ steps > 2, (twoBlocks 509 0x3000).coalesceFreeList steps = some v') ∧
      (twoBlocks 509 0x3000).Coalesced v' (List.range 510).reverse :=
  coalesce_well_linked (lists_twoBlocks 509 0x3000) ⟨by decide, by decide⟩ (by decide)

/-! ## Walks that never end -/

/-- No `next` pointer leads out of the nodes `S`, and the pool is among them. -/
structure Closed (v : Vmalloc) (S : Set Nat) : Prop where
  pool : ∃ x ∈ S, v.freePoolList = some x
  next : ∀ x ∈ S, ∃ y ∈ S, v.next x = some y

variable {S : Set Nat}

theorem Closed.setSize (h : v.Closed S) (b : Nat) (x : Word) : (v.setSize b x).Closed S := ⟨h.pool, h.next⟩

variable {b cur next : Nat} {changed : Bool}

theorem Closed.unlink (h : v.Closed S) (hb : b ∈ S) : (v.unlink b).Closed S := by
  obtain ⟨n, hn, hnext⟩ := h.next b hb
  unfold Vmalloc.unlink
  cases hprev : v.prev b with
  | none =>
      simp only [hnext]
      exact ⟨h.pool, h.next⟩
  | some p =>
      -- whatever node is before `b`, its new pointer is one of a node in `S`
      have hupdate : ∀ x ∈ S, ∃ y ∈ S, Function.update v.next p (v.next b) x = some y := by
        intro x hx
        by_cases hxp : x = p
        · exact ⟨n, hn, by rw [hxp, Function.update_self, hnext]⟩
        · rw [Function.update_of_ne hxp]
          exact h.next x hx
      obtain ⟨m, hm, hnext'⟩ := hupdate b hb
      simp only [setNext, hnext']
      exact ⟨h.pool, hupdate⟩

theorem Closed.freeBlock (h : v.Closed S) (hb : b ∈ S) : (v.freeBlock b).Closed S := by
  refine ⟨⟨b, hb, rfl⟩, fun x hx => ?_⟩
  show ∃ y ∈ S, Function.update v.next b v.freePoolList x = some y
  by_cases hxb : x = b
  · rw [hxb, Function.update_self]
    exact h.pool
  · rw [Function.update_of_ne hxb]
    exact h.next x hx

/-- Once `cur` and `next` are in a closed part the inner loop does not end: both stay there, whatever
is merged. -/
theorem Closed.coalesceNext (h : v.Closed S) (fuel : Nat) (hcur : cur ∈ S) (hnext : next ∈ S)
    (changed : Bool) : coalesceNext fuel cur (some next) changed v = none := by
  induction fuel generalizing v cur next changed with
  | zero => rfl
  | succ fuel ih =>
      rw [Vmalloc.coalesceNext]
      split
      · have hclosed : (((v.setSize cur (v.size cur + v.size next)).unlink cur).unlink next).Closed S :=
          ((h.setSize cur _).unlink hcur).unlink hnext
        obtain ⟨tmp, htmp, heq⟩ := hclosed.next next hnext
        simp only [heq]
        exact ih (hclosed.freeBlock hnext) hcur htmp true
      · split
        · have hclosed : (((v.setSize next (v.size next + v.size cur)).unlink next).unlink cur).Closed S :=
            ((h.setSize next _).unlink hnext).unlink hcur
          obtain ⟨tmp, htmp, heq⟩ := hclosed.next next hnext
          simp only [heq]
          exact ih (hclosed.freeBlock hcur) hnext htmp true
        · obtain ⟨n, hn, heq⟩ := h.next next hnext
          rw [heq]
          exact ih h hcur hn changed

/-! ## Merging along the pool

Nodes of the pool that were never used have address and size 0, so each of them ends where the next one
starts. -/

/-- What `unlink` does to a node without a `prev` pointer. -/
structure UnlinkedFirst (v w : Vmalloc) (b : Nat) : Prop where
  va : w.va = v.va
  size : w.size = v.size
  next : w.next = v.next
  pool : w.freePoolList = v.freePoolList
  prev : ∀ x, v.prev x = none ∨ v.next b = some x → w.prev x = none
  list : w.freeList = v.next b

theorem unlinkedFirst (h : v.prev b = none) : v.UnlinkedFirst (v.unlink b) b := by
  unfold Vmalloc.unlink
  rw [h]
  cases hnext : v.next b with
  | none =>
      simp only [hnext]
      refine ⟨rfl, rfl, rfl, rfl, fun x hx => ?_, hnext.symm⟩
      rcases hx with hx | hx
      · exact hx
      · rw [hnext] at hx
        contradiction
  | some n =>
      simp only [hnext, h]
      refine ⟨rfl, rfl, rfl, rfl, fun x hx => ?_, hnext.symm⟩
      show Function.update v.prev n none x = none
      by_cases hxn : x = n
      · rw [hxn, Function.update_self]
      · rw [Function.update_of_ne hxn]
        rcases hx with hx | hx
        · exact hx
        · exact absurd (Option.some.inj (hnext.symm.trans hx)).symm hxn

/-- A node of the pool that was never used. -/
structure Unused (v : Vmalloc) (x : Nat) : Prop where
  va : v.va x = 0
  size : v.size x = 0
  prev : v.prev x = none

/-- The state after `next` was merged into `cur`, when neither has a `prev` pointer. -/
def merged (v : Vmalloc) (cur next : Nat) : Vmalloc :=
  (((v.setSize cur (v.size cur + v.size next)).unlink cur).unlink next).freeBlock next

structure Merged (v w : Vmalloc) (cur next : Nat) : Prop where
  va : w.va = v.va
  size : w.size = Function.update v.size cur (v.size cur + v.size next)
  pool : w.freePoolList = some next
  prev : ∀ x, v.prev x = none → w.prev x = none
  next : w.next = Function.update v.next next v.freePoolList

theorem merged_spec (hcur : v.prev cur = none) (hnext : v.prev next = none ∨ v.next cur = some next) :
    v.Merged (v.merged cur next) cur next ∧
      (((v.setSize cur (v.size cur + v.size next)).unlink cur).unlink next).next = v.next := by
  have hfirst : (v.setSize cur (v.size cur + v.size next)).UnlinkedFirst _ cur := unlinkedFirst hcur
  have hsecond := unlinkedFirst (hfirst.prev next hnext)
  have hlinks := hsecond.next.trans hfirst.next
  refine ⟨⟨hsecond.va.trans hfirst.va, hsecond.size.trans hfirst.size, rfl, fun x hx => ?_, ?_⟩, hlinks⟩
  · exact hsecond.prev x (.inl (hfirst.prev x (.inl hx)))
  · show Function.update _ next _ = _
    rw [hlinks, hsecond.pool.trans hfirst.pool]
    rfl

/-- One round of the inner loop that merges. -/
theorem coalesceNext_merge {fuel : Nat} (hcur : v.prev cur = none)
    (hnext : v.prev next = none ∨ v.next cur = some next) (hadj : v.va cur + v.size cur = v.va next) :
    coalesceNext (fuel + 1) cur (some next) changed v
      = coalesceNext fuel cur (v.next next) true (v.merged cur next) := by
  rw [coalesceNext, if_pos hadj, ← (merged_spec hcur hnext).2]
  rfl

/-- When the inner loop has gone along unused nodes they are in front of the pool, and the pool leads
back to `cur`. -/
theorem coalesceNext_unused {fuel : Nat} {next : Option Nat} {rest : List Nat}
    {r : Nat × Bool × Vmalloc} (hpool : ∃ x ∈ S, v.freePoolList = some x) (hcur : v.Unused cur)
    (hrest : ∀ x ∈ rest, x ∈ S ∧ v.Unused x) (hmem : cur ∉ rest) (hnodup : rest.Nodup)
    (hc : Chain v.next next rest) (hnext : ∀ x ∈ S, x ∉ rest → ∃ y ∈ S, v.next x = some y)
    (h : coalesceNext fuel cur next changed v = some r) : r.1 = cur ∧ r.2.2.Closed S := by
  induction rest generalizing v fuel next changed with
  | nil =>
      obtain rfl := hc
      cases fuel with
      | zero => simp [coalesceNext] at h
      | succ fuel =>
          obtain rfl := Option.some.inj h
          exact ⟨rfl, hpool, fun x hx => hnext x hx List.not_mem_nil⟩
  | cons x rest ih =>
      obtain ⟨rfl, hc⟩ := hc
      obtain ⟨hx, hunused⟩ := hrest x List.mem_cons_self
      rw [List.nodup_cons] at hnodup
      rw [List.mem_cons, not_or] at hmem
      cases fuel with
      | zero => simp [coalesceNext] at h
      | succ fuel =>
          have hadj : v.va cur + v.size cur = v.va x := by
            rw [hcur.va, hcur.size, hunused.va]
            rfl
          rw [coalesceNext_merge hcur.prev (.inl hunused.prev) hadj] at h
          have hmerged : v.Merged (v.merged cur x) cur x :=
            (merged_spec hcur.prev (.inl hunused.prev)).1
          generalize v.merged cur x = w at h hmerged
          have hstill : ∀ y, v.Unused y → w.Unused y := by
            intro y hy
            refine ⟨by rw [hmerged.va, hy.va], ?_, hmerged.prev y hy.prev⟩
            rw [hmerged.size]
            by_cases hyc : y = cur
            · rw [hyc, Function.update_self, hcur.size, hunused.size]
              rfl
            · rw [Function.update_of_ne hyc, hy.size]
          refine ih ⟨x, hx, hmerged.pool⟩ (hstill cur hcur) (fun y hy => ?_) hmem.2 hnodup.2 ?_ ?_ h
          · obtain ⟨hyS, hy⟩ := hrest y (List.mem_cons_of_mem _ hy)
            exact ⟨hyS, hstill y hy⟩
          · rw [hmerged.next]
            exact hc.update hnodup.1
          · intro y hy hyrest
            rw [hmerged.next]
            by_cases hyx : y = x
            · rw [hyx, Function.update_self]
              exact hpool
            · rw [Function.update_of_ne hyx]
              exact hnext y hy fun hmem => (List.mem_cons.mp hmem).elim hyx hyrest

/-- A pass does not end if it does not after its first block. -/
theorem coalescePass_none_of {steps : Nat}
    (h : ∀ r, coalesceNext steps cur (v.next cur) changed v = some r → ∀ fuel, coalescePass steps fuel
      (r.2.2.next r.1) r.2.1 r.2.2 = none) (fuel : Nat) :
    coalescePass steps fuel (some cur) changed v = none := by
  cases fuel with
  | zero => rfl
  | succ fuel =>
      rw [coalescePass]
      cases hr : coalesceNext steps cur (v.next cur) changed v with
      | none => rfl
      | some r => exact h r hr fuel

/-- In a closed part no pass ends. -/
theorem Closed.coalescePass (h : v.Closed S) (hcur : cur ∈ S) (steps fuel : Nat) (changed : Bool) :
    coalescePass steps fuel (some cur) changed v = none := by
  refine coalescePass_none_of (fun r hr => ?_) fuel
  obtain ⟨next, hnext, heq⟩ := h.next cur hcur
  rw [heq, h.coalesceNext steps hcur hnext changed] at hr
  contradiction

/-- A free list of two blocks, the second of which starts where the first one ends, with two unused nodes
in front of the pool: the first pass never ends. -/
theorem coalescePass_none {a z : Nat} {zs : List Nat} (h : v.Lists [a, b] (z :: zs)) (hzs : zs ≠ [])
    (hadj : v.va a + v.size a = v.va b) (hstart : v.va b ≠ 0) (hend : v.va b + v.size b ≠ 0)
    (hunused : ∀ x ∈ z :: zs, v.Unused x) (steps fuel : Nat) (changed : Bool) :
    coalescePass steps fuel (some a) changed v = none := by
  obtain ⟨-, hprev, hnext, -, hlast⟩ := h.list
  obtain ⟨hpool, hchain⟩ := h.pool
  have hnodup : (a :: b :: z :: zs).Nodup := h.nodup
  simp only [List.nodup_cons, List.mem_cons, not_or] at hnodup
  obtain ⟨⟨hab, haz, hazs⟩, ⟨hbz, hbzs⟩, hzmem, hzs'⟩ := hnodup
  have ha : a ∉ z :: zs := by simp [haz, hazs]
  obtain ⟨hmerged, -⟩ := merged_spec hprev (.inr hnext)
  have hround : ∀ n, coalesceNext (n + 1) a (some b) changed v
      = coalesceNext n a (v.next b) true (v.merged a b) :=
    fun n => coalesceNext_merge hprev (.inr hnext) hadj
  generalize v.merged a b = w at hmerged hround
  -- after the merge `b` is in front of the pool and `a` still points at it
  have hwa : w.next a = some b := by rw [hmerged.next, Function.update_of_ne hab, hnext]
  have hwb : w.next b = some z := by rw [hmerged.next, Function.update_self, hpool]
  have hwunused : ∀ x ∈ z :: zs, x ≠ a → w.Unused x := by
    intro x hx hxa
    have hold := hunused x hx
    refine ⟨by rw [hmerged.va, hold.va], ?_, hmerged.prev x hold.prev⟩
    rw [hmerged.size, Function.update_of_ne hxa, hold.size]
  have hwchain : Chain w.next (some z) (z :: zs) := by
    rw [hmerged.next]
    exact Chain.update ⟨rfl, hchain⟩ (by simp [hbz, hbzs])
  obtain ⟨y, ys, rfl⟩ := List.exists_cons_of_ne_nil hzs
  have hwz : w.next z = some y := hwchain.2.1
  have hwb' : ∀ c ∈ z :: y :: ys, w.va b + w.size b ≠ w.va c ∧ w.va c + w.size c ≠ w.va b := by
    intro c hc
    have hold := hwunused c hc fun hca => ha (hca ▸ hc)
    rw [hold.va, hold.size, hmerged.va, hmerged.size, Function.update_of_ne (Ne.symm hab)]
    exact ⟨hend, fun hzero => hstart hzero.symm⟩
  refine coalescePass_none_of (fun r hr fuel => ?_) fuel
  have hfirst : r = (a, true, w) := by
    cases steps with
    | zero => simp [coalesceNext] at hr
    | succ n =>
        rw [hnext, hround, hlast] at hr
        cases n with
        | zero => simp [coalesceNext] at hr
        | succ n => exact (Option.some.inj hr).symm
  subst hfirst
  rw [hwa]
  -- so the pass goes on with `b`, which is not adjacent to an unused node
  refine coalescePass_none_of (fun r hr fuel => ?_) fuel
  rw [hwb, coalesceNext_apart hwchain hwb', Option.ite_none_right_eq_some] at hr
  obtain rfl := Option.some.inj hr.2
  rw [hwb]
  -- and with the first unused node, which takes all the others and closes the circle
  refine coalescePass_none_of (fun r hr fuel => ?_) fuel
  have hclosed := coalesceNext_unused (S := {x | x = b ∨ x ∈ z :: y :: ys}) ⟨b, .inl rfl, hmerged.pool⟩
    (hwunused z List.mem_cons_self (Ne.symm haz))
    (fun x hx => ⟨.inr (List.mem_cons_of_mem _ hx), hwunused x (List.mem_cons_of_mem _ hx)
      fun hxa => ha (hxa ▸ List.mem_cons_of_mem _ hx)⟩) hzmem hzs' hwchain.2
    (fun x hx hxmem => ?_) hr
  · obtain ⟨hrz, hclosed⟩ := hclosed
    obtain ⟨n, hn, heq⟩ := hclosed.next r.1 (hrz ▸ .inr List.mem_cons_self)
    rw [heq]
    exact hclosed.coalescePass hn steps fuel r.2.1
  · rcases hx with rfl | hx
    · exact ⟨z, .inr List.mem_cons_self, hwb⟩
    · obtain rfl := (List.mem_cons.mp hx).resolve_right hxmem
      exact ⟨y, .inr (List.mem_cons_of_mem _ List.mem_cons_self), hwz⟩

theorem coalesceFreeList_none {a z : Nat} {zs : List Nat} (h : v.Lists [a, b] (z :: zs)) (hzs : zs ≠ [])
    (hadj : v.va a + v.size a = v.va b) (hstart : v.va b ≠ 0) (hend : v.va b + v.size b ≠ 0)
    (hunused : ∀ x ∈ z :: zs, v.Unused x) (steps : Nat) : v.coalesceFreeList steps = none := by
  have hlist : v.freeList = some a := h.list.1
  rw [coalesceFreeList, if_neg (by rw [hlist]; exact Option.some_ne_none a)]
  cases steps with
  | zero => rfl
  | succ steps =>
      rw [coalesceLoop, hlist, coalescePass_none h hzs hadj hstart hend hunused]
      rfl

/-- Two regions of one page, the upper one freed first: `coalesce_free_list` never returns. -/
theorem coalesce_never_returns :
    (twoBlocks 509 0).Lists [510, 511] (List.range 510).reverse ∧ (twoBlocks 509 0).Disjoint [510, 511] ∧
      ∀ steps, (twoBlocks 509 0).coalesceFreeList steps = none := by
  have hlists := lists_twoBlocks 509 0
  refine ⟨hlists, ⟨by decide, by decide⟩, fun steps => ?_⟩
  have hpool : (List.range 510).reverse = 509 :: (List.range 509).reverse := by
    rw [List.range_succ, List.reverse_append, List.reverse_singleton, List.singleton_append]
  rw [hpool] at hlists
  refine coalesceFreeList_none hlists ?_ (by decide) (by decide) (by decide) (fun x hx => ?_) steps
  · exact List.ne_nil_of_length_pos (by simp)
  · rw [← hpool, List.mem_reverse, List.mem_range] at hx
    have hlow : x ≠ 510 ∧ x ≠ 511 := by omega
    exact ⟨by simp [twoBlocks, hlow], by simp [twoBlocks, hlow], by simp [twoBlocks, hlow]⟩

end Vmalloc

end Arcline
