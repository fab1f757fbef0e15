import Arcline.Mm.VmallocSpace

set_option autoImplicit false

/-! # The bounds of the arena

Address space is handed out from `[VMALLOC_START, VMALLOC_END)`. The check of `find_free_space` against
the end of the arena is made on a sum that may wrap; as long as it does not, every span it hands out
lies in the arena.

The argument about the bounds is about the spans of the nodes alone. It holds whatever the links of the
lists are, and so for all that `coalesce_free_list` makes of them. That the search ends is about the
links: the last pass of `coalesce_free_list` changes nothing, and it has gone along the whole list.
-/

namespace Arcline

open Linked

namespace Vmalloc

/-- A node has never been used, or its span has been handed out before. -/
def NodeInside (v : Vmalloc) (b : Nat) : Prop :=
  (v.va b = 0 ∧ v.size b = 0) ∨
    vmallocStart.toNat ≤ (v.va b).toNat ∧
      (v.va b).toNat + (v.size b).toNat ≤ v.vmallocNext.toNat

/-- All nodes are inside the space handed out, which lies in the arena. -/
structure Inside (v : Vmalloc) : Prop where
  node : ∀ b, v.NodeInside b
  start : vmallocStart.toNat ≤ v.vmallocNext.toNat
  stop : v.vmallocNext.toNat ≤ vmallocEnd.toNat

theorem inside_boot : boot.Inside where
  node _ := .inl ⟨rfl, rfl⟩
  start := Nat.le_refl _
  stop := by decide

/-- `w` differs from `v` in its links only. -/
structure SameSpans (v w : Vmalloc) : Prop where
  va : w.va = v.va
  size : w.size = v.size
  vmallocNext : w.vmallocNext = v.vmallocNext

variable {v w : Vmalloc} {a b : Nat}

theorem SameSpans.refl (v : Vmalloc) : v.SameSpans v := ⟨rfl, rfl, rfl⟩

theorem SameSpans.trans {u : Vmalloc} (h : v.SameSpans w) (h' : w.SameSpans u) : v.SameSpans u :=
  ⟨h'.va.trans h.va, h'.size.trans h.size, h'.vmallocNext.trans h.vmallocNext⟩

theorem Inside.sameSpans (h : v.Inside) (hs : v.SameSpans w) : w.Inside where
  node b := by
    unfold NodeInside
    rw [hs.va, hs.size, hs.vmallocNext]
    exact h.node b
  start := hs.vmallocNext ▸ h.start
  stop := hs.vmallocNext ▸ h.stop

theorem sameSpans_unlink (v : Vmalloc) (b : Nat) : v.SameSpans (v.unlink b) := by
  unfold unlink
  dsimp only
  split <;> split <;> exact ⟨rfl, rfl, rfl⟩

theorem sameSpans_freeBlock (v : Vmalloc) (b : Nat) : v.SameSpans (v.freeBlock b) := ⟨rfl, rfl, rfl⟩

theorem sameSpans_initPoolLoop (v : Vmalloc) (n i : Nat) : v.SameSpans (v.initPoolLoop n i) := by
  induction n generalizing v i with
  | zero => exact .refl v
  | succ n ih =>
      exact SameSpans.trans (w := { v.setNext i v.freePoolList with freePoolList := some i })
        ⟨rfl, rfl, rfl⟩ (ih _ _)

theorem sameSpans_allocBlock (v : Vmalloc) : v.SameSpans v.allocBlock.2 := by
  have hpool : v.SameSpans (if v.initialized then v else { v.initPool with initialized := true }) := by
    split
    · exact .refl v
    · exact SameSpans.trans (v.sameSpans_initPoolLoop freePoolCap 0) ⟨rfl, rfl, rfl⟩
  unfold allocBlock
  split
  · exact ⟨rfl, rfl, rfl⟩
  · dsimp only
    split
    · exact hpool
    · exact hpool.trans ⟨rfl, rfl, rfl⟩

/-! ## Merging -/

theorem start_pos : 0 < vmallocStart.toNat := by decide

/-- The merged span of two adjacent nodes lies where these lie. -/
theorem Inside.merge (h : v.Inside) (hadj : v.va a + v.size a = v.va b) :
    (v.setSize a (v.size a + v.size b)).Inside := by
  have hstart := start_pos
  have hnext := v.vmallocNext.isLt
  refine ⟨fun c => ?_, h.start, h.stop⟩
  by_cases hc : c = a
  · subst hc
    unfold NodeInside
    simp only [setSize, Function.update_self]
    rw [BitVec.toNat_eq, BitVec.toNat_add] at hadj
    rcases h.node c with ⟨hva, hsize⟩ | ⟨hlo, hhi⟩ <;> rcases h.node b with ⟨hvb, hsb⟩ | ⟨hlo', hhi'⟩
    · exact .inl ⟨hva, by rw [hsize, hsb]; rfl⟩
    · -- a node that has not been used ends at 0
      rw [hva, hsize] at hadj
      simp only [BitVec.ofNat_eq_ofNat, BitVec.toNat_ofNat] at hadj
      omega
    · rw [hvb] at hadj
      simp only [BitVec.ofNat_eq_ofNat, BitVec.toNat_ofNat] at hadj
      omega
    · refine .inr ⟨hlo, ?_⟩
      rw [BitVec.toNat_add]
      omega
  · have hother := h.node c
    unfold NodeInside at hother ⊢
    simpa only [setSize, Function.update_of_ne hc] using hother

variable {fuel steps n : Nat} {changed : Bool} {size base : Word}

theorem Inside.coalesceNext (h : v.Inside) {cur : Nat} {next : Option Nat} {r : Nat × Bool × Vmalloc}
    (hr : coalesceNext fuel cur next changed v = some r) :
    r.2.2.Inside ∧ r.2.2.vmallocNext = v.vmallocNext := by
  -- what happens to the links after a merge does not matter
  have hlinks : ∀ (u : Vmalloc) (x y z : Nat),
      u.SameSpans (((u.unlink x).unlink y).freeBlock z) := fun u x y z =>
    ((u.sameSpans_unlink x).trans (sameSpans_unlink _ y)).trans (sameSpans_freeBlock _ z)
  induction fuel generalizing v cur next changed with
  | zero => simp [Vmalloc.coalesceNext] at hr
  | succ fuel ih =>
      cases next with
      | none =>
          obtain rfl := Option.some.inj hr
          exact ⟨h, rfl⟩
      | some next =>
          rw [Vmalloc.coalesceNext] at hr
          split at hr
          · rename_i hadj
            have hsame := hlinks (v.setSize cur (v.size cur + v.size next)) cur next next
            obtain ⟨hin, hnext⟩ := ih ((h.merge hadj).sameSpans hsame) hr
            exact ⟨hin, hnext.trans hsame.vmallocNext⟩
          · split at hr
            · rename_i hadj
              have hsame := hlinks (v.setSize next (v.size next + v.size cur)) next cur cur
              obtain ⟨hin, hnext⟩ := ih ((h.merge hadj).sameSpans hsame) hr
              exact ⟨hin, hnext.trans hsame.vmallocNext⟩
            · exact ih h hr

theorem Inside.coalescePass (h : v.Inside) {cur : Option Nat} {r : Bool × Vmalloc}
    (hr : coalescePass steps fuel cur changed v = some r) :
    r.2.Inside ∧ r.2.vmallocNext = v.vmallocNext := by
  induction fuel generalizing v cur changed with
  | zero => simp [Vmalloc.coalescePass] at hr
  | succ fuel ih =>
      cases cur with
      | none =>
          obtain rfl := Option.some.inj hr
          exact ⟨h, rfl⟩
      | some cur =>
          rw [Vmalloc.coalescePass, Option.bind_eq_some_iff] at hr
          obtain ⟨q, hq, hr⟩ := hr
          obtain ⟨hin, hnext⟩ := h.coalesceNext hq
          obtain ⟨hin', hnext'⟩ := ih hin hr
          exact ⟨hin', hnext'.trans hnext⟩

theorem Inside.coalesceLoop (h : v.Inside) (hw : coalesceLoop steps fuel v = some w) :
    w.Inside ∧ w.vmallocNext = v.vmallocNext := by
  induction fuel generalizing v with
  | zero => simp [Vmalloc.coalesceLoop] at hw
  | succ fuel ih =>
      rw [Vmalloc.coalesceLoop, Option.bind_eq_some_iff] at hw
      obtain ⟨q, hq, hw⟩ := hw
      obtain ⟨hin, hnext⟩ := h.coalescePass hq
      split at hw
      · obtain ⟨hin', hnext'⟩ := ih hin hw
        exact ⟨hin', hnext'.trans hnext⟩
      · obtain rfl := Option.some.inj hw
        exact ⟨hin, hnext⟩

theorem Inside.coalesceFreeList (h : v.Inside) (hw : v.coalesceFreeList steps = some w) :
    w.Inside ∧ w.vmallocNext = v.vmallocNext := by
  unfold Vmalloc.coalesceFreeList at hw
  split at hw
  · obtain rfl := Option.some.inj hw
    exact ⟨h, rfl⟩
  · exact h.coalesceLoop hw

/-- The span lies in the space handed out. -/
def SpanInside (v : Vmalloc) (va size : Word) : Prop :=
  vmallocStart.toNat ≤ va.toNat ∧ va.toNat + size.toNat ≤ v.vmallocNext.toNat

theorem Inside.addFreeSpace (h : v.Inside) {va : Word} (hspan : v.SpanInside va size)
    (hw : v.addFreeSpace steps va size = some w) : w.Inside ∧ w.vmallocNext = v.vmallocNext := by
  have hsame := v.sameSpans_allocBlock
  unfold Vmalloc.addFreeSpace at hw
  generalize v.allocBlock = r at hsame hw
  obtain ⟨_ | b, u⟩ := r
  · obtain rfl := Option.some.inj hw
    exact ⟨h.sameSpans hsame, hsame.vmallocNext⟩
  · have hu : u.Inside := h.sameSpans hsame
    have hpush : (u.pushBlock b va size).va = Function.update u.va b va ∧
        (u.pushBlock b va size).size = Function.update u.size b size ∧
        (u.pushBlock b va size).vmallocNext = u.vmallocNext := by
      unfold Vmalloc.pushBlock
      dsimp only
      split <;> exact ⟨rfl, rfl, rfl⟩
    have hinside : (u.pushBlock b va size).Inside := by
      refine ⟨fun c => ?_, hpush.2.2 ▸ hu.start, hpush.2.2 ▸ hu.stop⟩
      unfold NodeInside
      rw [hpush.1, hpush.2.1, hpush.2.2]
      by_cases hc : c = b
      · rw [hc, Function.update_self, Function.update_self, hsame.vmallocNext]
        exact .inr hspan
      · rw [Function.update_of_ne hc, Function.update_of_ne hc]
        exact hu.node c
    obtain ⟨hin, hnext⟩ := hinside.coalesceFreeList hw
    exact ⟨hin, hnext.trans (hpush.2.2.trans hsame.vmallocNext)⟩

/-! ## The list ends -/

/-- `free_list` ends, with fewer blocks than `steps`. -/
def Ends (v : Vmalloc) (steps : Nat) : Prop :=
  ∃ blocks, Chain v.next v.freeList blocks ∧ (blocks = [] ∨ blocks.length < steps)

theorem ends_boot (steps : Nat) : boot.Ends steps := ⟨[], rfl, .inl rfl⟩

/-- Where nothing has been merged, nothing has changed. -/
theorem coalesceNext_unchanged {cur : Nat} {next : Option Nat} {r : Nat × Bool × Vmalloc}
    (hr : coalesceNext fuel cur next changed v = some r) (hno : r.2.1 = false) :
    changed = false ∧ r = (cur, false, v) := by
  induction fuel generalizing v cur next changed with
  | zero => simp [coalesceNext] at hr
  | succ fuel ih =>
      cases next with
      | none =>
          obtain rfl := Option.some.inj hr
          obtain rfl : changed = false := hno
          exact ⟨rfl, rfl⟩
      | some next =>
          rw [coalesceNext] at hr
          split at hr
          · exact absurd (ih hr).1 (by decide)
          · split at hr
            · exact absurd (ih hr).1 (by decide)
            · exact ih hr

/-- A pass that changes nothing has gone along the list to its end. -/
theorem coalescePass_unchanged {cur : Option Nat} {r : Bool × Vmalloc}
    (hr : coalescePass steps fuel cur changed v = some r) (hno : r.1 = false) :
    changed = false ∧ r.2 = v ∧ ∃ blocks, Chain v.next cur blocks ∧ blocks.length < fuel := by
  induction fuel generalizing v cur changed with
  | zero => simp [coalescePass] at hr
  | succ fuel ih =>
      cases cur with
      | none =>
          obtain rfl := Option.some.inj hr
          exact ⟨hno, rfl, [], rfl, Nat.succ_pos fuel⟩
      | some cur =>
          rw [coalescePass, Option.bind_eq_some_iff] at hr
          obtain ⟨q, hq, hr⟩ := hr
          obtain ⟨hq', hsame, blocks, hc, hlen⟩ := ih hr
          obtain ⟨hchanged, rfl⟩ := coalesceNext_unchanged hq hq'
          exact ⟨hchanged, hsame, cur :: blocks, ⟨rfl, hc⟩, Nat.succ_lt_succ hlen⟩

theorem coalesceLoop_ends (hw : coalesceLoop steps fuel v = some w) : w.Ends steps := by
  induction fuel generalizing v with
  | zero => simp [coalesceLoop] at hw
  | succ fuel ih =>
      rw [coalesceLoop, Option.bind_eq_some_iff] at hw
      obtain ⟨q, hq, hw⟩ := hw
      split at hw
      · exact ih hw
      · rename_i hno
        obtain ⟨-, hsame, blocks, hc, hlen⟩ := coalescePass_unchanged hq (Bool.not_eq_true _ ▸ hno)
        rw [← Option.some.inj hw, hsame]
        exact ⟨blocks, hc, .inr hlen⟩

/-- Whatever the links were before, the list ends after `coalesce_free_list` has returned. -/
theorem coalesceFreeList_ends (hw : v.coalesceFreeList steps = some w) : w.Ends steps := by
  unfold coalesceFreeList at hw
  split at hw
  · rename_i hnone
    obtain rfl := Option.some.inj hw
    exact ⟨[], hnone, .inl rfl⟩
  · exact coalesceLoop_ends hw

/-- `alloc_block` sets up the pool once, with 512 nodes; if it has none to give it changes nothing. -/
theorem allocBlock_none (h : v.allocBlock = (none, w)) : w = v := by
  unfold allocBlock at h
  cases hpool : v.freePoolList with
  | some b => simp [hpool] at h
  | none =>
      cases hinit : v.initialized with
      | true =>
          simp only [hpool, hinit, if_true] at h
          exact (Prod.mk.inj h).2.symm
      | false =>
          obtain ⟨next, k, heq, -⟩ := initPool_spec hpool
          simp [hpool, hinit, heq] at h

theorem Ends.addFreeSpace (h : v.Ends steps) {va : Word} (hw : v.addFreeSpace steps va size = some w) :
    w.Ends steps := by
  unfold Vmalloc.addFreeSpace at hw
  split at hw
  · rename_i hnone
    rw [← Option.some.inj hw, allocBlock_none hnone]
    exact h
  · exact coalesceFreeList_ends hw

/-- A block that is used up leaves the list, and every other list stays as it is. -/
theorem Ends.findFreeSpace (h : v.Ends steps) (hf : v.findFreeSpace n size = some (base, w)) :
    w.Ends steps := by
  obtain ⟨blocks, hc, hlen⟩ := h
  obtain ⟨r, hends, hr⟩ := findFreeSpace_spec hc size
  rw [hends, Option.ite_none_right_eq_some] at hf
  obtain rfl := Option.some.inj hf.2
  rcases hr with ⟨p₁, b, p₂, rfl, -, htake⟩ | ⟨-, hr⟩
  · by_cases hsize : v.size b = size
    · obtain ⟨prev, heq⟩ := takeBest_exact p₁.getLast? hsize
      rw [heq] at htake
      obtain ⟨-, rfl⟩ := Prod.mk.inj htake
      have hb := (List.nodup_cons.mp (List.perm_middle.nodup_iff.mp hc.nodup)).1
      refine ⟨p₁ ++ p₂, (chain_setLink hc hc.nodup).update hb, .inr ?_⟩
      simp only [List.append_eq_nil_iff, reduceCtorEq, and_false, false_or, List.length_append,
        List.length_cons] at hlen ⊢
      omega
    · rw [takeBest, if_neg hsize] at htake
      obtain ⟨-, rfl⟩ := Prod.mk.inj htake
      exact ⟨_, hc, hlen⟩
  · split at hr
    · obtain ⟨-, rfl⟩ := Prod.mk.inj hr
      exact ⟨blocks, hc, hlen⟩
    · obtain ⟨-, rfl⟩ := Prod.mk.inj hr
      exact ⟨blocks, hc, hlen⟩

/-- The search over a list that ends is over after as many steps. -/
theorem Ends.exists_findFreeSpace (h : v.Ends steps) (size : Word) :
    ∃ base w, ∀ n, 0 < n → steps ≤ n → v.findFreeSpace n size = some (base, w) := by
  obtain ⟨blocks, hc, hlen⟩ := h
  obtain ⟨r, hends, -⟩ := findFreeSpace_spec hc size
  refine ⟨r.1, r.2, fun n hpos hn => ?_⟩
  have hlt : blocks.length < n := by
    rcases hlen with rfl | hlen
    · exact hpos
    · exact Nat.lt_of_lt_of_le hlen hn
  rw [hends, if_pos hlt]

/-! ## Searching -/

/-- A block on `free_list` has at least `size` bytes. -/
def Fits (v : Vmalloc) (size : Word) : Prop :=
  ∃ b, Meets v.next v.freeList b ∧ size ≤ v.size b

/-- Taking `size` bytes off a node that has as many. -/
theorem Inside.takeBest (h : v.Inside) {link : Option Nat} (hfit : size ≤ v.size b)
    (ht : v.takeBest size b link = (base, w)) :
    w.Inside ∧ w.vmallocNext = v.vmallocNext ∧ (base = 0 ∨ v.SpanInside base size) := by
  rw [BitVec.le_def] at hfit
  have hspan : v.va b = 0 ∨ v.SpanInside (v.va b) size := by
    rcases h.node b with ⟨hva, -⟩ | ⟨hlo, hhi⟩
    · exact .inl hva
    · exact .inr ⟨hlo, by omega⟩
  by_cases heq : v.size b = size
  · obtain ⟨prev, htake⟩ := takeBest_exact link heq
    rw [htake] at ht
    obtain ⟨rfl, rfl⟩ := Prod.mk.inj ht
    exact ⟨h.sameSpans ⟨rfl, rfl, rfl⟩, rfl, hspan⟩
  · rw [Vmalloc.takeBest, if_neg heq] at ht
    obtain ⟨rfl, rfl⟩ := Prod.mk.inj ht
    refine ⟨⟨fun c => ?_, h.start, h.stop⟩, rfl, hspan⟩
    by_cases hc : c = b
    · subst hc
      unfold NodeInside
      simp only [setVa, setSize, Function.update_self]
      rcases h.node c with ⟨-, hsize⟩ | ⟨hlo, hhi⟩
      · -- a node without bytes is taken as a whole
        refine absurd (BitVec.eq_of_toNat_eq ?_) heq
        rw [hsize] at hfit ⊢
        exact (Nat.le_zero.mp hfit).symm
      · have hnext := v.vmallocNext.isLt
        refine .inr ⟨?_, ?_⟩
        · rw [BitVec.toNat_add]
          omega
        · rw [BitVec.toNat_add, BitVec.toNat_sub]
          omega
    · have hother := h.node c
      unfold NodeInside at hother ⊢
      simpa only [setVa, setSize, Function.update_of_ne hc] using hother

/-- What a search of `find_free_space` comes to: a block that is large enough, or a look at the end of
the arena. -/
theorem Inside.findFreeSpace_cases (h : v.Inside) (hl : v.Ends n)
    (hf : v.findFreeSpace steps size = some (base, w)) :
    (v.Fits size ∧ w.Inside ∧ w.vmallocNext = v.vmallocNext ∧
        (base = 0 ∨ v.SpanInside base size)) ∨
      ¬ v.Fits size ∧
        ((vmallocEnd < v.vmallocNext + size ∧ base = 0 ∧ w = v) ∨
          ¬ vmallocEnd < v.vmallocNext + size ∧ base = v.vmallocNext ∧
            w = { v with vmallocNext := v.vmallocNext + size }) := by
  obtain ⟨blocks, hc, -⟩ := hl
  obtain ⟨r, hends, hr⟩ := findFreeSpace_spec hc size
  rw [hends, Option.ite_none_right_eq_some] at hf
  obtain rfl := Option.some.inj hf.2
  rcases hr with ⟨p₁, b, p₂, rfl, hbest, htake⟩ | ⟨hno, hr⟩
  · exact .inl ⟨⟨b, hc.meets_iff.mpr (by simp), hbest.fits⟩, h.takeBest hbest.fits htake.symm⟩
  · refine .inr ⟨fun ⟨b, hb, hfit⟩ => hno b (hc.meets_iff.mp hb) hfit, ?_⟩
    split at hr
    · rename_i hend
      obtain ⟨rfl, rfl⟩ := Prod.mk.inj hr
      exact .inl ⟨hend, rfl, rfl⟩
    · rename_i hend
      obtain ⟨rfl, rfl⟩ := Prod.mk.inj hr
      exact .inr ⟨hend, rfl, rfl⟩

/-- The condition under which the check against the end of the arena can be trusted. -/
def Unwrapped (v : Vmalloc) (size : Word) : Prop :=
  v.Fits size ∨ v.vmallocNext.toNat + size.toNat < 2 ^ 64

/-- `find_free_space`, without wrapping: a span of the space handed out then. -/
theorem Inside.findFreeSpace (h : v.Inside) (hl : v.Ends n) (hun : v.Unwrapped size)
    (hf : v.findFreeSpace steps size = some (base, w)) :
    w.Inside ∧ v.vmallocNext.toNat ≤ w.vmallocNext.toNat ∧ (base = 0 ∨ w.SpanInside base size) := by
  rcases h.findFreeSpace_cases hl hf with ⟨-, hw, hnext, hspan⟩ |
    ⟨hno, ⟨-, rfl, rfl⟩ | ⟨hend, rfl, rfl⟩⟩
  · refine ⟨hw, Nat.le_of_eq (by rw [hnext]), hspan.imp_right fun hs => ?_⟩
    exact ⟨hs.1, hnext ▸ hs.2⟩
  · exact ⟨h, Nat.le_refl _, .inl rfl⟩
  · have hadd : (v.vmallocNext + size).toNat = v.vmallocNext.toNat + size.toNat :=
      BitVec.toNat_add_of_lt (hun.resolve_left hno)
    have hstart := h.start
    rw [BitVec.not_lt, BitVec.le_def, hadd] at hend
    refine ⟨⟨fun c => ?_, ?_, ?_⟩, ?_, .inr ⟨hstart, ?_⟩⟩
    · rcases h.node c with hzero | ⟨hlo, hhi⟩
      · exact .inl hzero
      · refine .inr ⟨hlo, ?_⟩
        show (v.va c).toNat + (v.size c).toNat ≤ (v.vmallocNext + size).toNat
        omega
    · show vmallocStart.toNat ≤ (v.vmallocNext + size).toNat
      omega
    · show (v.vmallocNext + size).toNat ≤ vmallocEnd.toNat
      omega
    · show v.vmallocNext.toNat ≤ (v.vmallocNext + size).toNat
      omega
    · show v.vmallocNext.toNat + size.toNat ≤ (v.vmallocNext + size).toNat
      omega

/-- What `find_free_space` is to do: a span that it hands out lies in the arena, `vmalloc_next` stays in
the arena, and a request for which there is no room changes nothing. -/
structure Answers (v : Vmalloc) (size base : Word) (w : Vmalloc) : Prop where
  span : base ≠ 0 → vmallocStart.toNat ≤ base.toNat ∧ base.toNat + size.toNat ≤ vmallocEnd.toNat
  next : vmallocStart.toNat ≤ w.vmallocNext.toNat ∧ w.vmallocNext.toNat ≤ vmallocEnd.toNat
  full : ¬ v.Fits size → vmallocEnd.toNat < v.vmallocNext.toNat + size.toNat → base = 0 ∧ w = v

theorem Inside.answers_iff (h : v.Inside) (hl : v.Ends n)
    (hf : v.findFreeSpace steps size = some (base, w)) : v.Answers size base w ↔ v.Unwrapped size := by
  have hend := vmallocEnd.isLt
  constructor
  · intro hanswer
    by_contra hun
    obtain ⟨hno, hwrap⟩ := not_or.mp hun
    -- the request is one for which there is no room, but it is granted
    obtain ⟨hzero, -⟩ := hanswer.full hno (by omega)
    rcases h.findFreeSpace_cases hl hf with ⟨hfits, -⟩ | ⟨-, ⟨hlt, -, -⟩ | ⟨-, hbase, -⟩⟩
    · exact hno hfits
    · have hnext := v.vmallocNext.isLt
      have hstop := h.stop
      have hsize := size.isLt
      rw [BitVec.lt_def, BitVec.toNat_add] at hlt
      omega
    · have hstart := h.start
      have hpos := start_pos
      rw [← hbase, hzero] at hstart
      exact absurd (Nat.lt_of_lt_of_le hpos hstart) (Nat.lt_irrefl 0)
  · intro hun
    obtain ⟨hw, -, hspan⟩ := h.findFreeSpace hl hun hf
    refine ⟨fun hne => ?_, ⟨hw.start, hw.stop⟩, fun hno hfull => ?_⟩
    · obtain ⟨hlo, hhi⟩ := hspan.resolve_left hne
      exact ⟨hlo, Nat.le_trans hhi hw.stop⟩
    · rcases h.findFreeSpace_cases hl hf with ⟨hfits, -⟩ | ⟨-, ⟨-, hzero, hsame⟩ | ⟨hle, -, -⟩⟩
      · exact absurd hfits hno
      · exact ⟨hzero, hsame⟩
      · rw [BitVec.lt_def, BitVec.toNat_add_of_lt (hun.resolve_left hno)] at hle
        omega

end Vmalloc

/-! ## Runs -/

namespace VmallocSys

variable {steps : Nat} {s s' : VmallocSys}

/-- `vfree` is given a live allocation. -/
def Frees (s : VmallocSys) : VmallocOp → Prop
  | .vmalloc _ => True
  | .vfree ptr size => (ptr, size) ∈ s.live

/-- No sum that `find_free_space` compares with the end of the arena wraps. -/
def NoWrap (s : VmallocSys) : VmallocOp → Prop
  | .vmalloc size => size ≠ 0 → s.kmem.vm.Unwrapped (totalSize size)
  | .vfree _ _ => True

/-- The nodes and the live regions are inside the space handed out, and `free_list` ends. -/
structure Bounded (steps : Nat) (s : VmallocSys) : Prop where
  vm : s.kmem.vm.Inside
  ends : s.kmem.vm.Ends steps
  live : ∀ a ∈ s.live, s.kmem.vm.SpanInside (a.1 - guardSize) (totalSize a.2)

theorem Bounded.step (h : s.Bounded steps) {op : VmallocOp} (hfrees : s.Frees op) (hun : s.NoWrap op)
    (hs : s.step steps op = some s') : s'.Bounded steps := by
  cases op with
  | vmalloc size =>
      obtain ⟨⟨ptr, kmem⟩, hcall, rfl⟩ := Option.map_eq_some_iff.mp hs
      rcases Kmem.vmalloc_cases hcall with ⟨-, rfl, rfl⟩ | ⟨hsize, base, v, hfind, hcase⟩
      · exact ⟨h.vm, h.ends, h.live⟩
      obtain ⟨hv, hmono, hspan⟩ := h.vm.findFreeSpace h.ends (hun hsize) hfind
      have hends := h.ends.findFreeSpace hfind
      have hlive : ∀ a ∈ s.live, v.SpanInside (a.1 - guardSize) (totalSize a.2) := fun a ha =>
        ⟨(h.live a ha).1, Nat.le_trans (h.live a ha).2 hmono⟩
      rcases hcase with ⟨-, rfl, rfl⟩ | ⟨hne, ok, mm, -, ⟨-, rfl, rfl⟩ | ⟨-, rfl, vm, hadd, rfl⟩⟩
      · exact ⟨hv, hends, hlive⟩
      · refine ⟨hv, hends, fun a ha => ?_⟩
        dsimp only at ha
        split at ha
        · exact hlive a ha
        · rcases List.mem_cons.mp ha with rfl | ha
          · show v.SpanInside (base + guardSize - guardSize) (totalSize size)
            rw [BitVec.add_sub_cancel]
            exact hspan.resolve_left hne
          · exact hlive a ha
      · obtain ⟨hvm, hnext⟩ := hv.addFreeSpace (hspan.resolve_left hne) hadd
        exact ⟨hvm, hends.addFreeSpace hadd, fun a ha => ⟨(hlive a ha).1, hnext ▸ (hlive a ha).2⟩⟩
  | vfree ptr size =>
      obtain ⟨kmem, hcall, rfl⟩ := Option.map_eq_some_iff.mp hs
      have hrest : ∀ a ∈ s.live.erase (ptr, size), a ∈ s.live := fun a ha => List.mem_of_mem_erase ha
      by_cases hnull : ptr = 0 ∨ size = 0
      · rw [Kmem.vfree, if_pos hnull] at hcall
        obtain rfl := Option.some.inj hcall
        exact ⟨h.vm, h.ends, fun a ha => h.live a (hrest a ha)⟩
      · obtain ⟨hptr, hsize⟩ := not_or.mp hnull
        obtain ⟨-, -, -, -, -, hadd⟩ := Kmem.vfree_parts hptr hsize hcall
        obtain ⟨hvm, hnext⟩ := h.vm.addFreeSpace (h.live (ptr, size) hfrees) hadd
        refine ⟨hvm, h.ends.addFreeSpace hadd, fun a ha => ?_⟩
        exact ⟨(h.live a (hrest a ha)).1, hnext ▸ (h.live a (hrest a ha)).2⟩

theorem reach_bounded {mm : Mm}
    (h : Machine.Reach (step steps) (fun s op => s.Frees op ∧ s.NoWrap op) (boot mm) s) :
    s.Bounded steps := by
  refine h.invariant (P := Bounded steps)
    ⟨Vmalloc.inside_boot, Vmalloc.ends_boot steps, fun a ha => absurd ha List.not_mem_nil⟩ ?_
  rintro s op s' hs ⟨hfrees, hun⟩ hstep
  exact hs.step hfrees hun hstep

/-- **The bounds of the arena.** In every run in which no sum has wrapped so far, and for every size,
`find_free_space` returns, in at most as many steps as the loops of the run had, and does what it is to do
exactly when its own sum does not wrap, or is not needed because a block is large enough. -/
theorem find_free_space_inside_iff {mm : Mm}
    (h : Machine.Reach (step steps) (fun s op => s.Frees op ∧ s.NoWrap op) (boot mm) s) (size : Word) :
    ∃ base w, (∀ n, 0 < n → steps ≤ n → s.kmem.vm.findFreeSpace n size = some (base, w)) ∧
      (s.kmem.vm.Answers size base w ↔ s.kmem.vm.Unwrapped size) := by
  have hb := reach_bounded h
  obtain ⟨base, w, hf⟩ := hb.ends.exists_findFreeSpace size
  refine ⟨base, w, hf, ?_⟩
  exact hb.vm.answers_iff hb.ends (hf (steps + 1) (Nat.succ_pos steps) (Nat.le_succ steps))

theorem findFreeSpace_boot {size : Word} (h : ¬ vmallocEnd < vmallocStart + size) :
    Vmalloc.boot.findFreeSpace (steps + 1) size
      = some (vmallocStart, { Vmalloc.boot with vmallocNext := vmallocStart + size }) :=
  congrArg some (if_neg h)

/-- The first allocation, of one page. -/
theorem find_free_space_inside_first :
    ∃ mm w, sampleMm = some mm ∧
      (boot mm).kmem.vm.findFreeSpace 600 (totalSize 4096) = some (vmallocStart, w) ∧
      (boot mm).kmem.vm.Answers (totalSize 4096) vmallocStart w := by
  obtain ⟨mm, hmm⟩ := Option.isSome_iff_exists.mp (show sampleMm.isSome = true by decide +kernel)
  have hf : (boot mm).kmem.vm.findFreeSpace 600 (totalSize 4096)
      = some (vmallocStart, { Vmalloc.boot with vmallocNext := vmallocStart + totalSize 4096 }) :=
    findFreeSpace_boot (by decide)
  have hstart : Machine.Reach (step 600) (fun s op => s.Frees op ∧ s.NoWrap op) (boot mm) (boot mm) :=
    .start
  obtain ⟨base, w, hends, hiff⟩ := find_free_space_inside_iff hstart (totalSize 4096)
  obtain rfl : vmallocStart = base :=
    congrArg Prod.fst (Option.some.inj (hf.symm.trans (hends 600 (by decide) (Nat.le_refl 600))))
  have hsum : vmallocStart.toNat + (totalSize 4096).toNat < 2 ^ 64 := by decide
  exact ⟨mm, w, hmm, hends 600 (by decide) (Nat.le_refl 600), hiff.mpr (.inr hsum)⟩

/-- A first allocation of about 510 GiB gets the start of an arena of 1 GiB, and `vmalloc_next` wraps
around to the bottom of the address space. -/
theorem find_free_space_wraps :
    ∃ mm w, sampleMm = some mm ∧
      (boot mm).kmem.vm.findFreeSpace 600 (totalSize 0x7F7FFFF000) = some (vmallocStart, w) ∧
      w.vmallocNext = 0x1000 ∧
      ¬ (boot mm).kmem.vm.Answers (totalSize 0x7F7FFFF000) vmallocStart w := by
  obtain ⟨mm, hmm⟩ := Option.isSome_iff_exists.mp (show sampleMm.isSome = true by decide +kernel)
  have hsum : vmallocStart + totalSize 0x7F7FFFF000 = 0x1000 := by decide
  refine ⟨mm, { Vmalloc.boot with vmallocNext := vmallocStart + totalSize 0x7F7FFFF000 }, hmm,
    findFreeSpace_boot (by decide), hsum, fun hanswer => ?_⟩
  have hspan := (hanswer.span (by decide)).2
  exact absurd hspan (by decide)

end VmallocSys

end Arcline
