import Arcline.Mm.Coalesce

set_option autoImplicit false

/-! # Best fit

`find_free_space` takes the smallest block of `free_list` that is large enough, and the first one of
several. The loop carries the candidate together with the link field that leads to it, so that a block
that is used up can be taken out of the list.
-/

namespace Arcline

open Linked

namespace Vmalloc

variable {v : Vmalloc} {blocks free : List Nat} {size : Word}

/-! ## Taking the space -/

/-- The block that is used up leaves the list, from both sides, and goes to the pool. -/
theorem takeBest_whole {b : Nat} {link : Option Nat} (hlink : link ≠ some b) (hsize : v.size b = size) :
    v.takeBest size b link = (v.va b, { v with
      next := Function.update (v.setLink link (v.next b)).next b v.freePoolList
      prev := match v.next b with
        | some n => Function.update v.prev n (v.prev b)
        | none => v.prev
      freeList := (v.setLink link (v.next b)).freeList
      freePoolList := some b }) := by
  have hnext : (v.setLink link (v.next b)).next b = v.next b := by
    cases link with
    | none => rfl
    | some p =>
        have hne : b ≠ p := fun heq => hlink (congrArg some heq.symm)
        exact Function.update_of_ne hne _ _
  rw [takeBest, if_pos hsize]
  dsimp only
  rw [hnext]
  cases link with
  | none => cases v.next b <;> rfl
  | some p => cases v.next b <;> rfl

theorem Lists.takeWhole {p₁ p₂ : List Nat} {b : Nat} (h : v.Lists (p₁ ++ b :: p₂) free)
    (hsize : v.size b = size) :
    ∃ v', v.takeBest size b p₁.getLast? = (v.va b, v') ∧ v'.Lists (p₁ ++ p₂) (b :: free) ∧
      v'.va = v.va ∧ v'.size = v.size ∧ v'.vmallocNext = v.vmallocNext := by
  obtain ⟨hhead, hnextb, hprevb⟩ := h.list.around
  rw [Option.or_none] at hprevb
  have hnodup := List.nodup_append.mp h.nodup
  have hmid := List.nodup_cons.mp (List.perm_middle.nodup_iff.mp hnodup.1)
  have hbfree : b ∉ free := fun hb => hnodup.2.2 b (by simp) b hb rfl
  have hlink : p₁.getLast? ≠ some b := fun hlast =>
    hmid.1 (List.mem_append_left _ (List.mem_of_getLast? hlast))
  refine ⟨_, takeBest_whole hlink hsize, ⟨?_, ?_, ?_⟩, rfl, rfl, rfl⟩
  · refine h.list.remove hnodup.1 (by simp) ?_ (fun y hy => ?_) fun y hy => ?_
    · -- the head is the block itself if there is nothing before it
      cases hp : p₁ with
      | nil =>
          rw [hp] at hhead
          rw [hhead]
          exact (if_pos rfl).symm
      | cons z p₁' =>
          have hzb : v.freeList ≠ some b := by
            rw [hhead, hp]
            intro heq
            refine hmid.1 ?_
            rw [hp, ← Option.some.inj heq]
            simp
          rw [if_neg hzb, List.getLast?_cons]
          rfl
    · have hyb : y ≠ b := fun heq => hmid.1 (heq ▸ hy)
      show Function.update (v.setLink p₁.getLast? (v.next b)).next b v.freePoolList y = _
      rw [Function.update_of_ne hyb, hprevb]
      cases hp : p₁.getLast? with
      | none => rfl
      | some z =>
          show Function.update v.next z (v.next b) y = _
          rw [Function.update_apply]
          simp only [Option.some.injEq, eq_comm]
    · show (match v.next b with
        | some n => Function.update v.prev n (v.prev b)
        | none => v.prev) y = _
      cases v.next b with
      | none => rfl
      | some n =>
          show Function.update v.prev n (v.prev b) y = _
          rw [Function.update_apply]
          simp only [Option.some.injEq, eq_comm]
  · refine Chain.push (h.pool.congr fun x hx => ?_) hbfree
    exact setLink_next_of_pool fun hx' => hnodup.2.2 x hx' x hx rfl
  · have hperm : ((p₁ ++ p₂) ++ b :: free).Perm ((p₁ ++ b :: p₂) ++ free) :=
      List.perm_middle.trans (List.perm_middle.symm.append_right free)
    exact hperm.nodup_iff.mpr h.nodup

/-- A block that is larger than asked for stays where it is in the list and keeps its upper part. -/
theorem Lists.takePart {b : Nat} (h : v.Lists blocks free) (link : Option Nat)
    (hsize : v.size b ≠ size) :
    ∃ v', v.takeBest size b link = (v.va b, v') ∧ v'.Lists blocks free ∧
      v'.va = Function.update v.va b (v.va b + size) ∧
      v'.size = Function.update v.size b (v.size b - size) ∧ v'.vmallocNext = v.vmallocNext := by
  rw [takeBest, if_neg hsize]
  exact ⟨_, rfl, ⟨h.list, h.pool, h.nodup⟩, rfl, rfl, rfl⟩

/-! ## The call -/

/-- What `find_free_space` does with the block of best fit. -/
structure TakesFrom (v v' : Vmalloc) (size : Word) (p₁ : List Nat) (b : Nat) (p₂ free : List Nat) :
    Prop where
  best : v.BestFit size p₁ b p₂
  /-- nothing remains: the block goes to the pool -/
  whole : v.size b = size → v'.Lists (p₁ ++ p₂) (b :: free) ∧ v'.va = v.va ∧ v'.size = v.size
  /-- the upper part remains, where it was in the list -/
  part : v.size b ≠ size → v'.Lists (p₁ ++ b :: p₂) free ∧
    v'.va = Function.update v.va b (v.va b + size) ∧
    v'.size = Function.update v.size b (v.size b - size)
  next : v'.vmallocNext = v.vmallocNext

/-- **`find_free_space` takes the best fit.** If a block fits, the space comes from the smallest one, the
first of several, and nothing else changes but the links around it; otherwise it comes from
`vmalloc_next`, as far as that goes. -/
theorem find_free_space_best_fit (h : v.Lists blocks free) (size : Word)
    (hnext : v.vmallocNext.toNat + size.toNat < 2 ^ 64) {steps : Nat} (hsteps : blocks.length < steps) :
    ∃ va v', v.findFreeSpace steps size = some (va, v') ∧
      ((∃ p₁ b p₂, blocks = p₁ ++ b :: p₂ ∧ va = v.va b ∧ v.TakesFrom v' size p₁ b p₂ free) ∨
        (∀ c ∈ blocks, ¬ size ≤ v.size c) ∧
          if vmallocEnd.toNat < v.vmallocNext.toNat + size.toNat then va = 0 ∧ v' = v
          else va = v.vmallocNext ∧ v' = { v with vmallocNext := v.vmallocNext + size }) := by
  obtain ⟨r, hends, hr⟩ := findFreeSpace_spec h.list.chain size
  rw [hends, if_pos hsteps]
  rcases hr with ⟨p₁, b, p₂, rfl, hbest, rfl⟩ | ⟨hno, rfl⟩
  · by_cases hsize : v.size b = size
    · obtain ⟨v', heq, hlists, hva, hsizes, hnext'⟩ := h.takeWhole hsize
      rw [heq]
      exact ⟨_, v', rfl, .inl ⟨p₁, b, p₂, rfl, rfl, hbest, fun _ => ⟨hlists, hva, hsizes⟩,
        fun hne => absurd hsize hne, hnext'⟩⟩
    · obtain ⟨v', heq, hlists, hva, hsizes, hnext'⟩ := h.takePart p₁.getLast? hsize
      rw [heq]
      exact ⟨_, v', rfl, .inl ⟨p₁, b, p₂, rfl, rfl, hbest, fun heq => absurd heq hsize,
        fun _ => ⟨hlists, hva, hsizes⟩, hnext'⟩⟩
  · have hfull : vmallocEnd < v.vmallocNext + size ↔
        vmallocEnd.toNat < v.vmallocNext.toNat + size.toNat := by
      rw [BitVec.lt_def, BitVec.toNat_add_of_lt hnext]
    by_cases hlimit : vmallocEnd < v.vmallocNext + size
    · rw [if_pos hlimit]
      refine ⟨_, _, rfl, .inr ⟨hno, ?_⟩⟩
      rw [if_pos (hfull.mp hlimit)]
      exact ⟨rfl, rfl⟩
    · rw [if_neg hlimit]
      refine ⟨_, _, rfl, .inr ⟨hno, ?_⟩⟩
      rw [if_neg fun h' => hlimit (hfull.mpr h')]
      exact ⟨rfl, rfl⟩

/-- Two blocks of three pages, of which the first one is used up. -/
theorem find_free_space_best_fit_whole :
    ∃ va v', (twoBlocks 509 0x3000).findFreeSpace 3 0x3000 = some (va, v') ∧
      ((∃ p₁ b p₂, [510, 511] = p₁ ++ b :: p₂ ∧ va = (twoBlocks 509 0x3000).va b ∧
          (twoBlocks 509 0x3000).TakesFrom v' 0x3000 p₁ b p₂ (List.range 510).reverse) ∨
        (∀ c ∈ [510, 511], ¬ 0x3000 ≤ (twoBlocks 509 0x3000).size c) ∧
          if vmallocEnd.toNat < (twoBlocks 509 0x3000).vmallocNext.toNat + 0x3000
          then va = 0 ∧ v' = twoBlocks 509 0x3000
          else va = (twoBlocks 509 0x3000).vmallocNext ∧ v' = { twoBlocks 509 0x3000 with
            vmallocNext := (twoBlocks 509 0x3000).vmallocNext + 0x3000 }) :=
  find_free_space_best_fit (lists_twoBlocks 509 0x3000) 0x3000 (by decide) (by decide)

end Vmalloc

end Arcline
