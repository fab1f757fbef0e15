import Arcline.Chain
import Arcline.Mm.ReserveRange
import Arcline.Mm.VmaPool
import Arcline.Mm.Vmalloc
import Arcline.Tiling

set_option autoImplicit false

/-! # Where the address space goes

The space from `VMALLOC_START` up to `vmalloc_next` is tiled by the live regions and the blocks on the
free list, as long as no region is put back next to a free block: `coalesce_free_list` takes both
blocks of a pair that it merges off the list, so the merged space is lost.
-/

namespace Arcline

open Linked Tiling

namespace Vmalloc

/-- Start and length of a block. -/
def span (v : Vmalloc) (b : Nat) : Nat × Nat := ((v.va b).toNat, (v.size b).toNat)

/-- The blocks on `free_list`; there are 512 nodes at most. -/
def freeBlocks (v : Vmalloc) : List Nat := nodes v.next freePoolCap v.freeList

/-- The allocator between calls: `blocks` are on the free list, `free` in the pool, no two blocks are
adjacent, and together with the spans `held` elsewhere they tile the space handed out so far. -/
structure Inv (v : Vmalloc) (blocks free : List Nat) (held : List (Nat × Nat)) : Prop where
  chain : Chain v.next v.freeList blocks
  pool : Chain v.next v.freePoolList free
  nodup : (blocks ++ free).Nodup
  count : v.initialized = true → blocks.length + free.length = freePoolCap
  fresh : v.initialized = false → blocks = [] ∧ free = []
  pos : ∀ b ∈ blocks, 0 < (v.size b).toNat
  apart : ∀ b ∈ blocks, ∀ c ∈ blocks, v.va b + v.size b ≠ v.va c
  tiles : Tiles (held ++ blocks.map v.span) vmallocStart.toNat v.vmallocNext.toNat
  bound : vmallocStart.toNat ≤ v.vmallocNext.toNat

variable {v : Vmalloc} {blocks free : List Nat} {held : List (Nat × Nat)}

theorem Inv.length_le (h : v.Inv blocks free held) : blocks.length ≤ freePoolCap := by
  cases hinit : v.initialized with
  | true =>
      have := h.count hinit
      omega
  | false => simp [(h.fresh hinit).1]

theorem Inv.freeBlocks_eq (h : v.Inv blocks free held) : v.freeBlocks = blocks :=
  h.chain.nodes_eq h.length_le

variable {b steps : Nat} {rest p₁ p₂ : List Nat} {size va : Word} {v' : Vmalloc}

theorem Inv.block_bounds (h : v.Inv blocks free held) (hb : b ∈ blocks) :
    vmallocStart.toNat ≤ (v.va b).toNat ∧
      (v.va b).toNat + (v.size b).toNat ≤ v.vmallocNext.toNat :=
  h.tiles.mem_bounds (List.mem_append_right _ (List.mem_map_of_mem (f := v.span) hb)) (h.pos b hb)

/-- The end of a block does not wrap. -/
theorem Inv.block_end (h : v.Inv blocks free held) (hb : b ∈ blocks) :
    (v.va b + v.size b).toNat = (v.va b).toNat + (v.size b).toNat := by
  have hbounds := (h.block_bounds hb).2
  have hlt := v.vmallocNext.isLt
  exact BitVec.toNat_add_of_lt (by omega)

theorem Inv.block_disjoint (h : v.Inv blocks free held) {c : Nat} (hb : b ∈ blocks) (hc : c ∈ blocks)
    (hne : c ≠ b) :
    (v.va b).toNat + (v.size b).toNat ≤ (v.va c).toNat ∨
      (v.va c).toNat + (v.size c).toNat ≤ (v.va b).toNat := by
  have hperm : (held ++ blocks.map v.span).Perm
      (v.span b :: v.span c :: (held ++ ((blocks.erase b).erase c).map v.span)) := by
    have hc' : c ∈ blocks.erase b := (List.mem_erase_of_ne hne).mpr hc
    have h1 : (blocks.map v.span).Perm (v.span b :: v.span c ::
        ((blocks.erase b).erase c).map v.span) :=
      ((List.perm_cons_erase hb).trans ((List.perm_cons_erase hc').cons b)).map v.span
    refine (h1.append_left held).trans ?_
    exact List.perm_middle.trans (List.perm_middle.cons _)
  exact (h.tiles.perm hperm.symm).disjoint (h.pos b hb) (h.pos c hc)

theorem Inv.perm {held' : List (Nat × Nat)} (h : v.Inv blocks free held) (hp : held'.Perm held) :
    v.Inv blocks free held' :=
  { h with tiles := h.tiles.perm (hp.append_right _) }

/-! ## Coalescing blocks that are not adjacent

Without adjacent blocks the loops of `coalesce_free_list` change nothing, and they end exactly if they
have more steps than there are blocks. -/

theorem coalesceNext_apart {cur : Nat} {next : Option Nat} (hc : Chain v.next next rest)
    (hapart : ∀ c ∈ rest, v.va cur + v.size cur ≠ v.va c ∧ v.va c + v.size c ≠ v.va cur) (fuel : Nat)
    (changed : Bool) :
    coalesceNext fuel cur next changed v
      = if rest.length < fuel then some (cur, changed, v) else none := by
  induction rest generalizing fuel next with
  | nil =>
      obtain rfl := hc
      cases fuel <;> simp [coalesceNext]
  | cons x rest ih =>
      obtain ⟨rfl, hc⟩ := hc
      cases fuel with
      | zero => simp [coalesceNext]
      | succ fuel =>
          obtain ⟨h1, h2⟩ := hapart x List.mem_cons_self
          rw [coalesceNext, if_neg h1, if_neg h2, ih hc fun c hc => hapart c (List.mem_cons_of_mem _ hc)]
          simp only [List.length_cons, Nat.add_lt_add_iff_right]

theorem coalescePass_apart {cur : Option Nat} (hc : Chain v.next cur rest)
    (hapart : ∀ b ∈ rest, ∀ c ∈ rest, v.va b + v.size b ≠ v.va c) (steps fuel : Nat) (changed : Bool) :
    coalescePass steps fuel cur changed v
      = if rest.length < fuel ∧ rest.length ≤ steps then some (changed, v) else none := by
  induction rest generalizing fuel cur with
  | nil =>
      obtain rfl := hc
      cases fuel <;> simp [coalescePass]
  | cons x rest ih =>
      obtain ⟨rfl, hc⟩ := hc
      cases fuel with
      | zero => simp [coalescePass]
      | succ fuel =>
          have hinner := coalesceNext_apart hc (fun c hc =>
            ⟨hapart x List.mem_cons_self c (List.mem_cons_of_mem _ hc),
              hapart c (List.mem_cons_of_mem _ hc) x List.mem_cons_self⟩) steps changed
          have hrest := ih hc (fun b hb c hc =>
            hapart b (List.mem_cons_of_mem _ hb) c (List.mem_cons_of_mem _ hc)) fuel
          rw [coalescePass, hinner]
          simp only [List.length_cons, Nat.add_lt_add_iff_right, Nat.add_one_le_iff]
          by_cases hsteps : rest.length < steps
          · rw [if_pos hsteps, Option.bind_some, hrest]
            simp only [hsteps, Nat.le_of_lt hsteps, and_true]
          · rw [if_neg hsteps, Option.bind_none, if_neg fun h => hsteps h.2]

theorem coalesceFreeList_apart (hc : Chain v.next v.freeList blocks)
    (hapart : ∀ b ∈ blocks, ∀ c ∈ blocks, v.va b + v.size b ≠ v.va c) (steps : Nat) :
    v.coalesceFreeList steps = if blocks = [] ∨ blocks.length < steps then some v else none := by
  unfold coalesceFreeList
  cases blocks with
  | nil =>
      have hnone : v.freeList = none := hc
      rw [if_pos hnone, if_pos (.inl rfl)]
  | cons b blocks =>
      have hne : v.freeList ≠ none := by
        rw [hc.1]
        exact Option.some_ne_none b
      rw [if_neg hne]
      cases steps with
      | zero => simp [coalesceLoop]
      | succ steps =>
          rw [coalesceLoop, coalescePass_apart hc hapart]
          by_cases hsteps : (b :: blocks).length < steps + 1
          · rw [if_pos ⟨hsteps, Nat.le_of_lt hsteps⟩, if_pos (.inr hsteps)]
            rfl
          · rw [if_neg fun h => hsteps h.1, if_neg fun h => hsteps (h.resolve_left (List.cons_ne_nil _ _))]
            rfl

/-! ## Searching -/

/-- `b` is the smallest of the blocks `p₁ ++ b :: p₂` with at least `size` bytes, and the first such. -/
structure BestFit (v : Vmalloc) (size : Word) (p₁ : List Nat) (b : Nat) (p₂ : List Nat) : Prop where
  fits : size ≤ v.size b
  smallest : ∀ c ∈ p₁ ++ b :: p₂, size ≤ v.size c → v.size b ≤ v.size c
  first : ∀ c ∈ p₁, size ≤ v.size c → v.size b < v.size c

/-- The candidate after the blocks `l`: none if none fits, or the best one with the link to it. -/
def Candidate (v : Vmalloc) (size : Word) (l : List Nat) : Option (Nat × Option Nat) → Prop
  | none => ∀ c ∈ l, ¬ size ≤ v.size c
  | some (b, link) => ∃ p₁ p₂, l = p₁ ++ b :: p₂ ∧ link = p₁.getLast? ∧ v.BestFit size p₁ b p₂

/-- One step of the loop: the next block takes the place of the candidate, or does not. -/
theorem Candidate.step {l : List Nat} {best : Option (Nat × Option Nat)} (h : v.Candidate size l best)
    (x : Nat) : v.Candidate size (l ++ [x])
      (if size ≤ v.size x && v.better x best then some (x, l.getLast?) else best) := by
  split
  · rename_i hnew
    rw [Bool.and_eq_true, decide_eq_true_eq] at hnew
    obtain ⟨hfits, hbetter⟩ := hnew
    -- the block is smaller than every one before it that fits
    have hfirst : ∀ c ∈ l, size ≤ v.size c → v.size x < v.size c := by
      intro c hc hcfits
      cases best with
      | none => exact absurd hcfits (h c hc)
      | some q =>
          obtain ⟨p₁, p₂, rfl, -, hbest⟩ := h
          have hlt : v.size x < v.size q.1 := of_decide_eq_true hbetter
          exact Nat.lt_of_lt_of_le hlt (hbest.smallest c hc hcfits)
    refine ⟨l, [], rfl, rfl, hfits, fun c hc hcfits => ?_, hfirst⟩
    rcases List.mem_append.mp hc with hc | hc
    · exact BitVec.le_of_lt (hfirst c hc hcfits)
    · rw [List.mem_singleton.mp hc]
      exact BitVec.le_refl _
  · rename_i hold
    rw [Bool.and_eq_true, decide_eq_true_eq, not_and] at hold
    cases best with
    | none =>
        -- nothing is better than no candidate, so the block does not fit
        intro c hc hcfits
        rcases List.mem_append.mp hc with hc | hc
        · exact h c hc hcfits
        · rw [List.mem_singleton.mp hc] at hcfits
          exact hold hcfits rfl
    | some q =>
        obtain ⟨p₁, p₂, rfl, hlink, hbest⟩ := h
        refine ⟨p₁, p₂ ++ [x], by simp, hlink, hbest.fits, fun c hc hcfits => ?_, hbest.first⟩
        rw [← List.cons_append, ← List.append_assoc] at hc
        rcases List.mem_append.mp hc with hc | hc
        · exact hbest.smallest c hc hcfits
        · obtain rfl := List.mem_singleton.mp hc
          have hle : ¬ v.size c < v.size q.1 := fun hlt => hold hcfits (decide_eq_true hlt)
          exact BitVec.not_lt.mp hle

/-- **The search finds the best fit**, and ends exactly if it has a step for each block and one more. The
induction is on the blocks that are left; `pre` are those before them. -/
theorem findBest_spec {prev cur : Option Nat} {best : Option (Nat × Option Nat)} {pre : List Nat}
    (hc : Chain v.next cur rest) (hprev : prev = pre.getLast?) (hbest : v.Candidate size pre best) :
    ∃ r, v.Candidate size (pre ++ rest) r ∧
      ∀ fuel, v.findBest size fuel prev cur best = if rest.length < fuel then some r else none := by
  induction rest generalizing prev cur best pre with
  | nil =>
      obtain rfl := hc
      refine ⟨best, by rwa [List.append_nil], fun fuel => ?_⟩
      cases fuel <;> simp [findBest]
  | cons x rest ih =>
      obtain ⟨rfl, hc⟩ := hc
      obtain ⟨r, hr, hfuel⟩ := ih hc (show some x = (pre ++ [x]).getLast? by simp) (hbest.step x)
      refine ⟨r, by rwa [List.append_cons], fun fuel => ?_⟩
      cases fuel with
      | zero => simp [findBest]
      | succ fuel =>
          rw [findBest, hprev, hfuel]
          simp only [List.length_cons, Nat.add_lt_add_iff_right]

/-- `find_free_space` ends exactly if it has a step for each block and one more. It takes the best fit, or
the space at `vmalloc_next` if nothing fits. -/
theorem findFreeSpace_spec (hc : Chain v.next v.freeList blocks) (size : Word) :
    ∃ r, (∀ steps, v.findFreeSpace steps size = if blocks.length < steps then some r else none) ∧
      ((∃ p₁ b p₂, blocks = p₁ ++ b :: p₂ ∧ v.BestFit size p₁ b p₂ ∧
          r = v.takeBest size b p₁.getLast?) ∨
        (∀ c ∈ blocks, ¬ size ≤ v.size c) ∧
          r = if vmallocEnd < v.vmallocNext + size then (0, v)
            else (v.vmallocNext, { v with vmallocNext := v.vmallocNext + size })) := by
  have hstart : v.Candidate size [] none := fun c hc => absurd hc List.not_mem_nil
  obtain ⟨best, hbest, hsearch⟩ := findBest_spec hc (show none = ([] : List Nat).getLast? from rfl) hstart
  cases best with
  | none =>
      refine ⟨_, fun steps => ?_, .inr ⟨hbest, rfl⟩⟩
      rw [findFreeSpace, hsearch, apply_ite (Option.map _)]
      rfl
  | some q =>
      obtain ⟨p₁, p₂, hblocks, hlink, hfit⟩ := hbest
      refine ⟨_, fun steps => ?_, .inl ⟨p₁, q.1, p₂, hblocks, hfit, rfl⟩⟩
      rw [findFreeSpace, hsearch, apply_ite (Option.map _), ← hlink]
      rfl

/-! ## Taking space -/

/-- The pointers after the block `b` has gone from the list, where `link` leads to it, to the
pool. -/
theorem takeBest_exact (link : Option Nat) (h : v.size b = size) :
    ∃ prev, v.takeBest size b link = (v.va b, { v with
      next := Function.update (v.setLink link (v.next b)).next b v.freePoolList
      prev := prev
      freeList := (v.setLink link (v.next b)).freeList
      freePoolList := some b }) := by
  rw [takeBest, if_pos h]
  dsimp only
  cases link with
  | none =>
      split
      · exact ⟨_, rfl⟩
      · exact ⟨_, rfl⟩
  | some p =>
      split
      · exact ⟨_, rfl⟩
      · exact ⟨_, rfl⟩

theorem chain_setLink (hc : Chain v.next v.freeList (p₁ ++ b :: p₂)) (hnodup : (p₁ ++ b :: p₂).Nodup) :
    Chain (v.setLink p₁.getLast? (v.next b)).next (v.setLink p₁.getLast? (v.next b)).freeList
      (p₁ ++ p₂) := by
  obtain ⟨hnil, hlast⟩ := hc.remove hnodup
  cases hp : p₁.getLast? with
  | none =>
      obtain rfl := List.getLast?_eq_none_iff.mp hp
      exact hnil rfl
  | some y => exact hlast y hp

/-- A link of the free list is not a node of the pool list. -/
theorem setLink_next_of_pool {x : Nat} {o : Option Nat} (hx : x ∉ p₁ ++ b :: p₂) :
    (v.setLink p₁.getLast? o).next x = v.next x := by
  cases hp : p₁.getLast? with
  | none => rfl
  | some y =>
      have hne : x ≠ y := by
        rintro rfl
        exact hx (List.mem_append_left _ (List.mem_of_getLast? hp))
      simp [setLink, setNext, hne]

/-- A block taken as a whole goes back to the pool. -/
theorem Inv.takeWhole (h : v.Inv (p₁ ++ b :: p₂) free held) (hsize : v.size b = size) :
    (v.takeBest size b p₁.getLast?).2.Inv (p₁ ++ p₂) (b :: free)
      (((v.va b).toNat, size.toNat) :: held) := by
  obtain ⟨prev, heq⟩ := takeBest_exact p₁.getLast? hsize
  have hnodup := List.nodup_append.mp h.nodup
  have hsub : ∀ c, c ∈ p₁ ++ p₂ → c ∈ p₁ ++ b :: p₂ := by
    intro c hc
    simp only [List.mem_append, List.mem_cons] at hc ⊢
    tauto
  have hb : b ∉ p₁ ++ p₂ := (List.nodup_cons.mp (List.perm_middle.nodup_iff.mp hnodup.1)).1
  have hbfree : b ∉ free := fun hb' => hnodup.2.2 b (by simp) b hb' rfl
  have hperm : ((p₁ ++ p₂) ++ b :: free).Perm ((p₁ ++ b :: p₂) ++ free) :=
    List.perm_middle.trans (List.perm_middle.symm.append_right free)
  rw [heq]
  refine ⟨?_, ?_, hperm.nodup_iff.mpr h.nodup, fun hi => ?_, fun hi => ?_,
    fun c hc => h.pos c (hsub c hc), fun c hc d hd => h.apart c (hsub c hc) d (hsub d hd), ?_,
    h.bound⟩
  · exact (chain_setLink h.chain hnodup.1).update hb
  · refine Chain.push (h.pool.congr fun x hx => ?_) hbfree
    exact setLink_next_of_pool fun hx' => hnodup.2.2 x hx' x hx rfl
  · have := h.count hi
    simp only [List.length_append, List.length_cons] at this ⊢
    omega
  · exact absurd (h.fresh hi).1 (by simp)
  · refine h.tiles.perm ?_
    rw [← hsize, List.cons_append, List.map_append, List.map_append, List.map_cons]
    show (v.span b :: (held ++ (p₁.map v.span ++ p₂.map v.span))).Perm _
    rw [← List.append_assoc, ← List.append_assoc]
    exact List.perm_middle.symm

/-- A block that is larger than asked for keeps its upper part. -/
theorem Inv.takePart (link : Option Nat) (h : v.Inv (p₁ ++ b :: p₂) free held) (hpos : 0 < size.toNat)
    (hlt : size < v.size b) :
    (v.takeBest size b link).2.Inv (p₁ ++ b :: p₂) free
      (((v.va b).toNat, size.toNat) :: held) := by
  have hne : v.size b ≠ size := fun heq => by simp [heq] at hlt
  have hb : b ∈ p₁ ++ b :: p₂ := by simp
  have hblock := h.block_bounds hb
  have hnext := v.vmallocNext.isLt
  rw [BitVec.lt_def] at hlt
  have hva : (v.va b + size).toNat = (v.va b).toNat + size.toNat :=
    BitVec.toNat_add_of_lt (by omega)
  have hsize : (v.size b - size).toNat = (v.size b).toNat - size.toNat :=
    BitVec.toNat_sub_of_le (BitVec.le_def.mpr (Nat.le_of_lt hlt))
  rw [takeBest, if_neg hne]
  set w := (v.setVa b (v.va b + size)).setSize b (v.size b - size) with hw
  have hwva : ∀ c, w.va c = if c = b then v.va b + size else v.va c := fun c => by
    simp only [hw, setVa, setSize, Function.update_apply]
  have hwsize : ∀ c, w.size c = if c = b then v.size b - size else v.size c := fun c => by
    simp only [hw, setVa, setSize, Function.update_apply]
  -- the end of a block stays where it is
  have hend : ∀ c, w.va c + w.size c = v.va c + v.size c := by
    intro c
    rw [hwva, hwsize]
    by_cases hc : c = b
    · rw [if_pos hc, if_pos hc, hc]
      apply BitVec.eq_of_toNat_eq
      rw [BitVec.toNat_add, hva, hsize, BitVec.toNat_add]
      congr 1
      omega
    · rw [if_neg hc, if_neg hc]
  refine ⟨h.chain, h.pool, h.nodup, h.count, h.fresh, fun c hc => ?_, fun c hc d hd => ?_, ?_,
    h.bound⟩
  · rw [hwsize]
    split
    · omega
    · exact h.pos c hc
  · rw [hend, hwva]
    split
    · -- no block ends inside `b`
      intro heq
      have hcend := h.block_end hc
      rw [heq, hva] at hcend
      by_cases hcb : c = b
      · subst hcb
        omega
      · have hcpos := h.pos c hc
        rcases h.block_disjoint hb hc hcb with hd | hd <;> omega
    · exact h.apart c hc d hd
  · have hnodup := List.perm_middle.nodup_iff.mp (List.nodup_append.mp h.nodup).1
    have hspan : ∀ c ∈ p₁ ++ p₂, w.span c = v.span c := by
      intro c hc
      have hcb : c ≠ b := by
        rintro rfl
        exact (List.nodup_cons.mp hnodup).1 hc
      rw [span, span, hwva, hwsize, if_neg hcb, if_neg hcb]
    have hmap : (p₁ ++ b :: p₂).map w.span = p₁.map v.span ++ w.span b :: p₂.map v.span := by
      rw [List.map_append, List.map_cons,
        List.map_congr_left fun c hc => hspan c (List.mem_append_left _ hc),
        List.map_congr_left fun c hc => hspan c (List.mem_append_right _ hc)]
    have hbspan : w.span b = ((v.va b).toNat + size.toNat, (v.size b).toNat - size.toNat) := by
      rw [span, hwva, hwsize, if_pos rfl, if_pos rfl, hva, hsize]
    have htiles : Tiles (((v.va b).toNat, size.toNat + ((v.size b).toNat - size.toNat)) ::
        (held ++ p₁.map v.span ++ p₂.map v.span)) vmallocStart.toNat v.vmallocNext.toNat := by
      refine h.tiles.perm ?_
      rw [List.map_append, List.map_cons, ← List.append_assoc,
        show size.toNat + ((v.size b).toNat - size.toNat) = (v.size b).toNat by omega]
      exact List.perm_middle.symm
    refine htiles.split.perm ?_
    rw [hmap, hbspan, List.cons_append, ← List.append_assoc]
    exact List.perm_middle.cons _

/-- `find_free_space` fails and changes nothing, or hands out a span that was free. -/
theorem Inv.findFreeSpace (h : v.Inv blocks free held) (hpos : 0 < size.toNat)
    (hwrap : v.vmallocNext.toNat + size.toNat < 2 ^ 64) {base : Word}
    (hf : v.findFreeSpace steps size = some (base, v')) :
    (base = 0 ∧ v' = v) ∨
      base ≠ 0 ∧ ∃ blocks' free', v'.Inv blocks' free' ((base.toNat, size.toNat) :: held) := by
  have hstart : vmallocStart.toNat ≠ 0 := by decide
  obtain ⟨r, hsteps, hr⟩ := findFreeSpace_spec h.chain size
  rw [hsteps, Option.ite_none_right_eq_some] at hf
  obtain rfl := Option.some.inj hf.2
  rcases hr with ⟨p₁, b, p₂, rfl, hbest, htake⟩ | ⟨-, hr⟩
  · have hb : b ∈ p₁ ++ b :: p₂ := by simp
    have hbase : (v.takeBest size b p₁.getLast?).1 = v.va b := by
      rw [takeBest]
      split <;> rfl
    obtain ⟨rfl, rfl⟩ : v.va b = base ∧ (v.takeBest size b p₁.getLast?).2 = v' := by
      rw [← hbase, ← htake]
      exact ⟨rfl, rfl⟩
    refine .inr ⟨?_, ?_⟩
    · rw [ne_eq, BitVec.toNat_eq]
      have := (h.block_bounds hb).1
      show ¬ (v.va b).toNat = 0
      omega
    · by_cases heq : v.size b = size
      · exact ⟨_, _, h.takeWhole heq⟩
      · refine ⟨_, _, h.takePart p₁.getLast? hpos ?_⟩
        have hle := hbest.fits
        rw [BitVec.le_def] at hle
        rw [BitVec.toNat_eq] at heq
        rw [BitVec.lt_def]
        omega
  · split at hr
    · obtain ⟨rfl, rfl⟩ := Prod.mk.inj hr
      exact .inl ⟨rfl, rfl⟩
    · obtain ⟨rfl, rfl⟩ := Prod.mk.inj hr
      have hbound := h.bound
      refine .inr ⟨?_, blocks, free, h.chain, h.pool, h.nodup, h.count, h.fresh, h.pos, h.apart,
        ?_, ?_⟩
      · rw [ne_eq, BitVec.toNat_eq]
        show ¬ v.vmallocNext.toNat = 0
        omega
      · show Tiles _ _ (v.vmallocNext + size).toNat
        rw [BitVec.toNat_add_of_lt hwrap]
        exact h.tiles.extend h.bound size.toNat
      · show vmallocStart.toNat ≤ (v.vmallocNext + size).toNat
        rw [BitVec.toNat_add_of_lt hwrap]
        omega

/-! ## Putting space back -/

/-- Setting up the pool puts the nodes on the pool list, the last one in front. -/
theorem initPoolLoop_spec (v : Vmalloc) (n i : Nat) {l : List Nat}
    (hc : Chain v.next v.freePoolList l) (hl : ∀ x ∈ l, x < i) :
    ∃ next head, v.initPoolLoop n i = { v with next := next, freePoolList := head } ∧
      Chain next head ((List.range' i n).reverse ++ l) := by
  induction n generalizing v i l with
  | zero => exact ⟨v.next, v.freePoolList, rfl, by simpa using hc⟩
  | succ n ih =>
      have hi : i ∉ l := fun h => absurd (hl i h) (by omega)
      obtain ⟨next, head, heq, hchain⟩ := ih { v.setNext i v.freePoolList with freePoolList := some i }
        (i + 1) (hc.push hi) (by
          intro x hx
          rcases List.mem_cons.mp hx with rfl | hx
          · omega
          · have := hl x hx; omega)
      refine ⟨next, head, heq, ?_⟩
      rw [List.range'_succ, List.reverse_cons, List.append_assoc]
      exact hchain

theorem initPool_spec (hpool : v.freePoolList = none) :
    ∃ next k, v.initPool = { v with next := next, freePoolList := some k } ∧ freePoolCap = k + 1 ∧
      Chain next (some k) (k :: (List.range k).reverse) := by
  obtain ⟨next, head, heq, hchain⟩ := initPoolLoop_spec v freePoolCap 0 (l := []) hpool (by simp)
  obtain ⟨k, hk⟩ : ∃ k, freePoolCap = k + 1 := ⟨511, by simp [freePoolCap]⟩
  rw [List.append_nil, ← List.range_eq_range', hk, List.range_succ, List.reverse_append,
    List.reverse_singleton, List.singleton_append] at hchain
  obtain rfl : head = some k := hchain.1
  exact ⟨next, k, heq, hk, hchain⟩

/-- With fewer than 512 blocks on the list there is a node for one more. -/
theorem Inv.allocBlock (h : v.Inv blocks free held) (hroom : blocks.length < freePoolCap) :
    ∃ (b : Nat) (free' : List Nat) (w : Vmalloc), v.allocBlock = (some b, w.popBlock b) ∧
      w.Inv blocks (b :: free') held ∧
      w.va = v.va ∧ w.size = v.size ∧ w.vmallocNext = v.vmallocNext := by
  unfold Vmalloc.allocBlock
  cases hfree : free with
  | cons b free' =>
      have hpool : v.freePoolList = some b := by
        have := h.pool
        rw [hfree] at this
        exact this.1
      rw [hpool]
      exact ⟨b, free', v, rfl, hfree ▸ h, rfl, rfl, rfl⟩
  | nil =>
      have hpool : v.freePoolList = none := by
        have := h.pool
        rw [hfree] at this
        exact this
      have hinit : v.initialized = false := by
        cases hi : v.initialized with
        | false => rfl
        | true =>
            have := h.count hi
            rw [hfree, List.length_nil] at this
            omega
      obtain ⟨rfl, -⟩ := h.fresh hinit
      obtain ⟨next, k, heq, hk, hchain⟩ := initPool_spec hpool
      refine ⟨k, (List.range k).reverse, { v.initPool with initialized := true }, ?_, ?_, ?_, ?_,
        ?_⟩
      · simp only [hpool, hinit, Bool.false_eq_true, if_false]
        rw [heq]
      · rw [heq]
        exact ⟨h.chain, hchain, hchain.nodup, fun _ => by simp [hk],
          fun hi => absurd hi (by simp), h.pos, h.apart, h.tiles, h.bound⟩
      · rw [heq]
      · rw [heq]
      · rw [heq]

/-- With 512 blocks on the list there is no node, and nothing happens. -/
theorem Inv.allocBlock_full (h : v.Inv blocks free held) (hfull : freePoolCap ≤ blocks.length) :
    v.allocBlock = (none, v) := by
  have hinit : v.initialized = true := by
    cases hi : v.initialized with
    | true => rfl
    | false =>
        rw [(h.fresh hi).1] at hfull
        simp [freePoolCap] at hfull
  have hcount := h.count hinit
  have hfree : free = [] := List.eq_nil_of_length_eq_zero (by omega)
  have hpool := h.pool
  rw [hfree, chain_nil] at hpool
  simp only [Vmalloc.allocBlock, hpool, hinit, if_true]

/-- No block ends where the span starts, or starts where it ends. -/
def Apart (v : Vmalloc) (l : List Nat) (va size : Word) : Prop :=
  ∀ b ∈ l, v.va b + v.size b ≠ va ∧ va + size ≠ v.va b

/-- The fields after a node has gone from the pool to the front of the list. -/
theorem pushBlock_popBlock (v : Vmalloc) (b : Nat) (va size : Word) :
    ∃ prev, (v.popBlock b).pushBlock b va size = { v with
      va := Function.update v.va b va
      size := Function.update v.size b size
      next := Function.update v.next b v.freeList
      prev := prev
      freeList := some b
      freePoolList := v.next b } := by
  refine ⟨((v.popBlock b).pushBlock b va size).prev, ?_⟩
  simp only [pushBlock, popBlock, setVa, setSize, setNext, setPrev]
  split <;> simp only [Function.update_idem]

/-- A span held elsewhere becomes a block of the list. -/
theorem Inv.pushBlock (h : v.Inv blocks (b :: free) ((va.toNat, size.toNat) :: held))
    (hpos : 0 < size.toNat) (hapart : v.Apart blocks va size) :
    ((v.popBlock b).pushBlock b va size).Inv (b :: blocks) free held := by
  obtain ⟨prev, heq⟩ := v.pushBlock_popBlock b va size
  have hperm : (b :: blocks ++ free).Perm (blocks ++ b :: free) := List.perm_middle.symm
  have hnodup := hperm.nodup_iff.mpr h.nodup
  have hb : b ∉ blocks ++ free := (List.nodup_cons.mp hnodup).1
  have hbblocks : b ∉ blocks := fun hb' => hb (List.mem_append_left _ hb')
  have hbfree : b ∉ free := fun hb' => hb (List.mem_append_right _ hb')
  have hne : ∀ c ∈ blocks, c ≠ b := by
    rintro c hc rfl
    exact hbblocks hc
  have hself : va + size ≠ va := by
    intro hc
    have := va.isLt
    rw [BitVec.toNat_eq, BitVec.toNat_add] at hc
    have := size.isLt
    omega
  rw [heq]
  refine ⟨h.chain.push hbblocks, h.pool.2.update hbfree, hnodup, fun hi => ?_, fun hi => ?_,
    fun c hc => ?_, fun c hc d hd => ?_, ?_, h.bound⟩
  · have := h.count hi
    simp only [List.length_cons] at this ⊢
    omega
  · exact absurd (h.fresh hi).2 (by simp)
  · rcases List.mem_cons.mp hc with rfl | hc
    · simpa using hpos
    · simpa [hne c hc] using h.pos c hc
  · rcases List.mem_cons.mp hc with rfl | hc <;> rcases List.mem_cons.mp hd with rfl | hd
    · simpa using hself
    · simpa [hne d hd] using (hapart d hd).2
    · simpa [hne c ‹_›] using (hapart c ‹_›).1
    · simpa [hne c hc, hne d hd] using h.apart c hc d hd
  · have hmap : blocks.map (fun c => ((Function.update v.va b va c).toNat,
        (Function.update v.size b size c).toNat)) = blocks.map v.span :=
      List.map_congr_left fun c hc => by simp [span, hne c hc]
    refine h.tiles.perm ?_
    show (held ++ ((Function.update v.va b va b).toNat, (Function.update v.size b size b).toNat) ::
      blocks.map (fun c => ((Function.update v.va b va c).toNat,
        (Function.update v.size b size c).toNat))).Perm _
    rw [hmap, Function.update_self, Function.update_self]
    exact List.perm_middle

/-- `add_free_space`, with a node to spare and no block next to the span: it ends exactly if it has more
steps than there are blocks then. -/
theorem Inv.addFreeSpace_eq (h : v.Inv blocks free ((va.toNat, size.toNat) :: held))
    (hpos : 0 < size.toNat) (hroom : blocks.length < freePoolCap) (hapart : v.Apart blocks va size) :
    ∃ v', (∀ steps, v.addFreeSpace steps va size = if blocks.length + 1 < steps then some v' else none) ∧
      (∃ blocks' free', v'.Inv blocks' free' held) ∧ v'.vmallocNext = v.vmallocNext ∧
      ∃ b, v'.va = Function.update v.va b va ∧ v'.size = Function.update v.size b size := by
  obtain ⟨b, free', w, halloc, hw, hva, hsize, hnext⟩ := h.allocBlock hroom
  have hapart' : w.Apart blocks va size := by
    intro c hc
    rw [hva, hsize]
    exact hapart c hc
  have hpush := hw.pushBlock hpos hapart'
  obtain ⟨prev, heq⟩ := w.pushBlock_popBlock b va size
  refine ⟨(w.popBlock b).pushBlock b va size, fun steps => ?_, ⟨_, _, hpush⟩, ?_, b, ?_, ?_⟩
  · rw [Vmalloc.addFreeSpace, halloc]
    simp [coalesceFreeList_apart hpush.chain hpush.apart]
  · rw [heq, ← hnext]
  · rw [heq, ← hva]
  · rw [heq, ← hsize]

theorem Inv.addFreeSpace (h : v.Inv blocks free ((va.toNat, size.toNat) :: held))
    (hpos : 0 < size.toNat) (hroom : blocks.length < freePoolCap) (hapart : v.Apart blocks va size)
    (hadd : v.addFreeSpace steps va size = some v') :
    (∃ blocks' free', v'.Inv blocks' free' held) ∧ v'.vmallocNext = v.vmallocNext ∧
      ∃ b, v'.va = Function.update v.va b va ∧ v'.size = Function.update v.size b size := by
  obtain ⟨u, hsteps, hu⟩ := h.addFreeSpace_eq hpos hroom hapart
  rw [hsteps, Option.ite_none_right_eq_some] at hadd
  exact Option.some.inj hadd.2 ▸ hu

/-- `add_free_space` returns if no block is next to the span. -/
theorem Inv.addFreeSpace_ends (h : v.Inv blocks free ((va.toNat, size.toNat) :: held))
    (hpos : 0 < size.toNat) (hapart : v.Apart blocks va size) (hsteps : freePoolCap + 1 < steps) :
    ∃ v', v.addFreeSpace steps va size = some v' := by
  by_cases hroom : blocks.length < freePoolCap
  · obtain ⟨u, hu, -⟩ := h.addFreeSpace_eq hpos hroom hapart
    exact ⟨u, by rw [hu, if_pos (by omega)]⟩
  · exact ⟨v, by rw [Vmalloc.addFreeSpace, h.allocBlock_full (by omega)]⟩

/-- Two spans held elsewhere do not meet. -/
theorem Inv.held_disjoint {s t : Nat × Nat} (h : v.Inv blocks free (s :: held)) (ht : t ∈ held)
    (hs : 0 < s.2) (hpos : 0 < t.2) : s.1 + s.2 ≤ t.1 ∨ t.1 + t.2 ≤ s.1 := by
  have hperm : (s :: held).Perm (s :: t :: held.erase t) := (List.perm_cons_erase ht).cons s
  exact (h.perm hperm.symm).tiles.disjoint hs hpos

/-! ## Whole pages -/

/-- Starts and sizes are in whole pages, and the space handed out ends at `VMALLOC_END` at most. -/
structure Paged (v : Vmalloc) : Prop where
  next : v.vmallocNext.toNat % 4096 = 0
  va : ∀ b, (v.va b).toNat % 4096 = 0
  size : ∀ b, (v.size b).toNat % 4096 = 0
  top : v.vmallocNext.toNat ≤ vmallocEnd.toNat

theorem paged_update {f : Nat → Word} (hf : ∀ b, (f b).toNat % 4096 = 0) {x : Word}
    (hx : x.toNat % 4096 = 0) (b c : Nat) : (Function.update f b x c).toNat % 4096 = 0 := by
  rw [Function.update_apply]
  split
  · exact hx
  · exact hf c

theorem Paged.takeBest (h : v.Paged) (hsize : size.toNat % 4096 = 0) (b : Nat) (link : Option Nat) :
    (v.takeBest size b link).1.toNat % 4096 = 0 ∧
      (v.takeBest size b link).2.Paged := by
  by_cases heq : v.size b = size
  · obtain ⟨prev, htake⟩ := takeBest_exact link heq
    rw [htake]
    exact ⟨h.va b, h.next, h.va, h.size, h.top⟩
  · rw [Vmalloc.takeBest, if_neg heq]
    have hva := h.va b
    have hsz := h.size b
    refine ⟨hva, h.next, paged_update h.va ?_ b, paged_update h.size ?_ b, h.top⟩
    · rw [BitVec.toNat_add]
      omega
    · rw [BitVec.toNat_sub]
      omega

theorem Paged.findFreeSpace (h : v.Paged) {base : Word} (hsize : size.toNat % 4096 = 0)
    (hf : v.findFreeSpace steps size = some (base, v')) : base.toNat % 4096 = 0 ∧ v'.Paged := by
  unfold Vmalloc.findFreeSpace at hf
  rw [Option.map_eq_some_iff] at hf
  obtain ⟨best, -, hf⟩ := hf
  cases best with
  | some q =>
      have htake := h.takeBest hsize q.1 q.2
      rw [show v.takeBest size q.1 q.2 = (base, v') from hf] at htake
      exact htake
  | none =>
      dsimp only at hf
      split at hf
      · obtain ⟨rfl, rfl⟩ := Prod.mk.inj hf
        exact ⟨rfl, h⟩
      · rename_i hfit
        obtain ⟨rfl, rfl⟩ := Prod.mk.inj hf
        rw [BitVec.not_lt, BitVec.le_def] at hfit
        have hnext := h.next
        refine ⟨hnext, ?_, h.va, h.size, hfit⟩
        show (v.vmallocNext + size).toNat % 4096 = 0
        rw [BitVec.toNat_add]
        omega

/-- `add_free_space` for a span that no block touches. If there is no node for it, the span stays out
of reach. -/
theorem Inv.putBack (h : v.Inv blocks free ((va.toNat, size.toNat) :: held)) (hpaged : v.Paged)
    (hva : va.toNat % 4096 = 0) (hsize : size.toNat % 4096 = 0) (hpos : 0 < size.toNat)
    (hapart : v.Apart blocks va size) (hadd : v.addFreeSpace steps va size = some v') :
    (∃ lost blocks' free', v'.Inv blocks' free' (lost ++ held)) ∧ v'.Paged := by
  by_cases hroom : blocks.length < freePoolCap
  · obtain ⟨⟨blocks', free', hinv⟩, hnext, b, hva', hsize'⟩ :=
      h.addFreeSpace hpos hroom hapart hadd
    refine ⟨⟨[], blocks', free', hinv⟩, hnext ▸ hpaged.next, ?_, ?_, hnext ▸ hpaged.top⟩
    · rw [hva']
      exact paged_update hpaged.va hva b
    · rw [hsize']
      exact paged_update hpaged.size hsize b
  · rw [Vmalloc.addFreeSpace, h.allocBlock_full (by omega)] at hadd
    obtain rfl := Option.some.inj hadd
    exact ⟨⟨[(va.toNat, size.toNat)], blocks, free, h⟩, hpaged⟩

/-- The zeroed statics of the allocator. -/
def boot : Vmalloc where
  va := fun _ => 0
  size := fun _ => 0
  next := fun _ => none
  prev := fun _ => none
  freeList := none
  vmallocNext := vmallocStart
  freePoolList := none
  initialized := false

theorem inv_boot : boot.Inv [] [] [] where
  chain := rfl
  pool := rfl
  nodup := List.nodup_nil
  count h := absurd h (by simp [boot])
  fresh _ := ⟨rfl, rfl⟩
  pos _ hb := absurd hb List.not_mem_nil
  apart _ hb := absurd hb List.not_mem_nil
  tiles := tiles_nil _
  bound := Nat.le_refl _

theorem paged_boot : boot.Paged where
  next := by decide
  va _ := rfl
  size _ := rfl
  top := by decide

end Vmalloc

namespace Kmem

variable {steps : Nat} {k k' : Kmem} {ptr size : Word}

/-- How a call of `vmalloc` can go: nothing is asked for, there is no space, the region is backed by
physical pages, or these run out and the region is put back. -/
theorem vmalloc_cases (h : k.vmalloc steps size = some (ptr, k')) :
    (size = 0 ∧ ptr = 0 ∧ k' = k) ∨
      size ≠ 0 ∧ ∃ base v, k.vm.findFreeSpace steps (totalSize size) = some (base, v) ∧
        ((base = 0 ∧ ptr = 0 ∧ k' = ⟨k.mm, v⟩) ∨
          base ≠ 0 ∧ ∃ ok mm, k.mm.populate base (dataPages size) = some (ok, mm) ∧
            ((ok = true ∧ ptr = base + guardSize ∧ k' = ⟨mm, v⟩) ∨
              ok = false ∧ ptr = 0 ∧
                ∃ vm, v.addFreeSpace steps base (totalSize size) = some vm ∧ k' = ⟨mm, vm⟩)) := by
  unfold Kmem.vmalloc at h
  split at h
  · rename_i hsize
    obtain ⟨rfl, rfl⟩ := Prod.mk.inj (Option.some.inj h)
    exact .inl ⟨hsize, rfl, rfl⟩
  rename_i hsize
  rw [Option.bind_eq_some_iff] at h
  obtain ⟨⟨base, v⟩, hfind, h⟩ := h
  refine .inr ⟨hsize, base, v, hfind, ?_⟩
  dsimp only at h
  split at h
  · rename_i hbase
    obtain ⟨rfl, rfl⟩ := Prod.mk.inj (Option.some.inj h)
    exact .inl ⟨hbase, rfl, rfl⟩
  rename_i hbase
  rw [Option.bind_eq_some_iff] at h
  obtain ⟨⟨ok, mm⟩, hpop, h⟩ := h
  refine .inr ⟨hbase, ok, mm, hpop, ?_⟩
  cases ok with
  | true =>
      obtain ⟨rfl, rfl⟩ := Prod.mk.inj (Option.some.inj h)
      exact .inl ⟨rfl, rfl, rfl⟩
  | false =>
      obtain ⟨vm, hadd, h⟩ := Option.map_eq_some_iff.mp h
      obtain ⟨rfl, rfl⟩ := Prod.mk.inj h
      exact .inr ⟨rfl, rfl, vm, hadd, rfl⟩

/-- The parts of a call of `vfree`. -/
theorem vfree_parts (hptr : ptr ≠ 0) (hsize : size ≠ 0) (h : k.vfree steps ptr size = some k') :
    ∃ mm₁ mm₂, Mm.releasePages ptr (dataPages size).toNat 0 k.mm = some mm₁ ∧
      mm₁.releasePage (ptr - guardSize) = some mm₂ ∧
      mm₂.releasePage (ptr + dataPages size * 4096) = some k'.mm ∧
      k.vm.addFreeSpace steps (ptr - guardSize) (totalSize size) = some k'.vm := by
  unfold Kmem.vfree at h
  rw [if_neg (fun hc => hc.elim hptr hsize)] at h
  simp only [Option.bind_eq_some_iff, Option.map_eq_some_iff] at h
  obtain ⟨mm₁, hdata, mm₂, hguard, mm₃, hguard', vm, hadd, rfl⟩ := h
  exact ⟨mm₁, mm₂, hdata, hguard, hguard', hadd⟩

end Kmem

/-! ## Runs -/

/-- The bytes of a region: the data in whole pages, and two guard pages. -/
def regionSize (size : Word) : Nat := (size.toNat + 4095) / 4096 * 4096 + 8192

/-- The region of an allocation, given by its pointer and size. -/
def region (a : Word × Word) : Nat × Nat := (a.1.toNat - 4096, regionSize a.2)

theorem dataPages_toNat {size : Word} (h : regionSize size < 2 ^ 64) :
    (dataPages size).toNat = (size.toNat + 4095) / 4096 := by
  unfold regionSize at h
  rw [dataPages, BitVec.toNat_udiv, BitVec.toNat_add, show (4095 : Word).toNat = 4095 from rfl,
    show (4096 : Word).toNat = 4096 from rfl, Nat.mod_eq_of_lt (by omega)]

theorem totalSize_toNat {size : Word} (h : regionSize size < 2 ^ 64) :
    (totalSize size).toNat = regionSize size := by
  have hpages := dataPages_toNat h
  unfold regionSize at h ⊢
  rw [totalSize, BitVec.toNat_add, BitVec.toNat_mul, hpages,
    show (4096 : Word).toNat = 4096 from rfl, show (2 * guardSize : Word).toNat = 8192 from rfl]
  omega

theorem regionSize_pos (size : Word) : 0 < regionSize size := by
  unfold regionSize
  omega

/-- The allocator at work, with the pointers and sizes of its live allocations. -/
structure VmallocSys where
  kmem : Kmem
  live : List (Word × Word)

inductive VmallocOp
  | vmalloc (size : Word)
  | vfree (ptr size : Word)

namespace VmallocSys

def step (steps : Nat) (s : VmallocSys) : VmallocOp → Option VmallocSys
  | .vmalloc size => (s.kmem.vmalloc steps size).map fun r =>
      ⟨r.2, if r.1 = 0 then s.live else (r.1, size) :: s.live⟩
  | .vfree ptr size => (s.kmem.vfree steps ptr size).map fun kmem => ⟨kmem, s.live.erase (ptr, size)⟩

/-- Boot, on top of memory managers in any state. -/
def boot (mm : Mm) : VmallocSys := ⟨⟨mm, Vmalloc.boot⟩, []⟩

/-- A `vmalloc` of `size` bytes has its region at `base` and leaves the allocator as `v`, but physical
pages run out, so that the region is put back. -/
def PutsBack (steps : Nat) (s : VmallocSys) (size base : Word) (v : Vmalloc) : Prop :=
  s.kmem.vm.findFreeSpace steps (totalSize size) = some (base, v) ∧ base ≠ 0 ∧
    ∃ mm, s.kmem.mm.populate base (dataPages size) = some (false, mm)

/-- What callers promise: `vfree` is given a live allocation, and there are never more than 512 free
blocks. -/
def Valid (steps : Nat) (s : VmallocSys) : VmallocOp → Prop
  | .vmalloc size => ∀ base v, s.PutsBack steps size base v → v.freeBlocks.length < freePoolCap
  | .vfree ptr size => (ptr, size) ∈ s.live ∧ s.kmem.vm.freeBlocks.length < freePoolCap

/-- No size makes the end of the space wrap, and no region is put back next to a free block. -/
def Safe (steps : Nat) (s : VmallocSys) : VmallocOp → Prop
  | .vmalloc size => s.kmem.vm.vmallocNext.toNat + regionSize size < 2 ^ 64 ∧
      ∀ base v, s.PutsBack steps size base v → v.Apart v.freeBlocks base (totalSize size)
  | .vfree ptr size =>
      s.kmem.vm.Apart s.kmem.vm.freeBlocks (ptr - guardSize) (totalSize size)

/-- The space handed out so far is the disjoint union of the live regions and the free blocks. -/
def Partitioned (s : VmallocSys) : Prop :=
  Tiles (s.live.map region ++ s.kmem.vm.freeBlocks.map s.kmem.vm.span) vmallocStart.toNat
    s.kmem.vm.vmallocNext.toNat

/-- The invariant of runs. -/
def Inv (s : VmallocSys) : Prop :=
  (∃ blocks free, s.kmem.vm.Inv blocks free (s.live.map region)) ∧ ∀ a ∈ s.live, a.2 ≠ 0

theorem Inv.partitioned {s : VmallocSys} (h : s.Inv) : s.Partitioned := by
  obtain ⟨⟨blocks, free, hinv⟩, -⟩ := h
  rw [Partitioned, hinv.freeBlocks_eq]
  exact hinv.tiles

variable {steps : Nat} {s s' : VmallocSys}

/-- What the region taken for an allocation looks like in terms of its pointer. -/
theorem region_eq {v : Vmalloc} {blocks free : List Nat} {held : List (Nat × Nat)} {base size : Word}
    (hv : v.Inv blocks free ((base.toNat, (totalSize size).toNat) :: held))
    (hsize : regionSize size < 2 ^ 64) :
    (base + guardSize).toNat = base.toNat + 4096 ∧
      region (base + guardSize, size) = (base.toNat, (totalSize size).toNat) := by
  have htotal := totalSize_toNat hsize
  have hpos : 0 < (totalSize size).toNat := by
    rw [htotal]
    exact regionSize_pos size
  -- the region lies below `vmalloc_next`, so its pointer does not wrap
  have hbound := hv.tiles.mem_bounds (List.mem_append_left _ List.mem_cons_self) hpos
  have hnext := v.vmallocNext.isLt
  have hsz : 8192 ≤ (totalSize size).toNat := by
    rw [htotal, regionSize]
    omega
  have hptr : (base + guardSize).toNat = base.toNat + 4096 :=
    BitVec.toNat_add_of_lt (show base.toNat + 4096 < 2 ^ 64 by simp only at hbound; omega)
  refine ⟨hptr, ?_⟩
  rw [htotal]
  show ((base + guardSize).toNat - 4096, regionSize size) = (base.toNat, regionSize size)
  rw [hptr, Nat.add_sub_cancel]

theorem Inv.vmalloc (h : s.Inv) {size : Word} (hvalid : s.Valid steps (.vmalloc size))
    (hsafe : s.Safe steps (.vmalloc size)) (hs : s.step steps (.vmalloc size) = some s') : s'.Inv := by
  obtain ⟨⟨blocks, free, hinv⟩, hlive⟩ := h
  obtain ⟨⟨ptr, kmem⟩, hcall, rfl⟩ := Option.map_eq_some_iff.mp hs
  rcases Kmem.vmalloc_cases hcall with ⟨-, rfl, rfl⟩ | ⟨hsize, base, v, hfind, hcase⟩
  · exact ⟨⟨blocks, free, hinv⟩, hlive⟩
  have hregion : regionSize size < 2 ^ 64 := Nat.lt_of_le_of_lt (Nat.le_add_left _ _) hsafe.1
  have htotal := totalSize_toNat hregion
  have hpos : 0 < (totalSize size).toNat := by
    rw [htotal]
    exact regionSize_pos size
  have hwrap : s.kmem.vm.vmallocNext.toNat + (totalSize size).toNat < 2 ^ 64 := by
    rw [htotal]
    exact hsafe.1
  rcases hinv.findFreeSpace hpos hwrap hfind with ⟨rfl, rfl⟩ | ⟨hne, blocks', free', hv⟩
  · rcases hcase with ⟨-, rfl, rfl⟩ | ⟨hc, -⟩
    · exact ⟨⟨blocks, free, hinv⟩, hlive⟩
    · exact absurd rfl hc
  rcases hcase with ⟨hc, -⟩ | ⟨-, ok, mm, hpop, ⟨rfl, rfl, rfl⟩ | ⟨rfl, rfl, vm, hadd, rfl⟩⟩
  · exact absurd hc hne
  · obtain ⟨hptr, heq⟩ := region_eq hv hregion
    have hptrne : base + guardSize ≠ 0 := by
      rw [ne_eq, BitVec.toNat_eq, hptr]
      show ¬ base.toNat + 4096 = 0
      omega
    rw [if_neg hptrne]
    refine ⟨⟨blocks', free', ?_⟩, fun a ha => ?_⟩
    · rw [List.map_cons, heq]
      exact hv
    · rcases List.mem_cons.mp ha with rfl | ha
      · exact hsize
      · exact hlive a ha
  · have hback : s.PutsBack steps size base v := ⟨hfind, hne, mm, hpop⟩
    have hroom := hvalid base v hback
    have hapart := hsafe.2 base v hback
    rw [hv.freeBlocks_eq] at hroom hapart
    exact ⟨(hv.addFreeSpace hpos hroom hapart hadd).1, hlive⟩

/-- A live region, in the terms `vfree` computes it in. -/
theorem region_live {v : Vmalloc} {blocks free : List Nat} {held : List (Nat × Nat)}
    {ptr size : Word} (hv : v.Inv blocks free (region (ptr, size) :: held)) :
    regionSize size < 2 ^ 64 ∧ ptr ≠ 0 ∧ (ptr - guardSize).toNat = ptr.toNat - 4096 ∧
      v.Inv blocks free (((ptr - guardSize).toNat, (totalSize size).toNat) :: held) := by
  have hbound : vmallocStart.toNat ≤ ptr.toNat - 4096 ∧
      ptr.toNat - 4096 + regionSize size ≤ v.vmallocNext.toNat :=
    hv.tiles.mem_bounds (s := region (ptr, size))
      (List.mem_append_left _ List.mem_cons_self) (regionSize_pos size)
  have hstart : (4096 : Nat) ≤ vmallocStart.toNat := by decide
  have hnext := v.vmallocNext.isLt
  have hregion : regionSize size < 2 ^ 64 := by omega
  have hbase : (ptr - guardSize).toNat = ptr.toNat - 4096 :=
    BitVec.toNat_sub_of_le (BitVec.le_def.mpr (show 4096 ≤ ptr.toNat by omega))
  refine ⟨hregion, ?_, hbase, ?_⟩
  · rw [ne_eq, BitVec.toNat_eq]
    show ¬ ptr.toNat = 0
    omega
  · rw [hbase, totalSize_toNat hregion]
    exact hv

theorem Inv.vfree (h : s.Inv) {ptr size : Word} (hvalid : s.Valid steps (.vfree ptr size))
    (hsafe : s.Safe steps (.vfree ptr size)) (hs : s.step steps (.vfree ptr size) = some s') :
    s'.Inv := by
  obtain ⟨⟨blocks, free, hinv⟩, hlive⟩ := h
  obtain ⟨hmem, hroom⟩ := hvalid
  obtain ⟨kmem, hcall, rfl⟩ := Option.map_eq_some_iff.mp hs
  have hperm : (region (ptr, size) :: (s.live.erase (ptr, size)).map region).Perm
      (s.live.map region) := ((List.perm_cons_erase hmem).map region).symm
  obtain ⟨hregion, hptr, -, hheld⟩ := region_live (hinv.perm hperm)
  have hpos : 0 < (totalSize size).toNat := by
    rw [totalSize_toNat hregion]
    exact regionSize_pos size
  obtain ⟨mm₁, mm₂, -, -, -, hadd⟩ := Kmem.vfree_parts hptr (hlive _ hmem) hcall
  have hsafe' := hsafe
  rw [Safe, hinv.freeBlocks_eq] at hsafe'
  rw [hinv.freeBlocks_eq] at hroom
  exact ⟨(hheld.addFreeSpace hpos hroom hsafe' hadd).1,
    fun a ha => hlive a (List.mem_of_mem_erase ha)⟩

/-- **No address is lost and none is in two places**, in every run in which sizes do not wrap and no
region is put back next to a free block. -/
theorem vmalloc_space_partitioned {mm : Mm}
    (h : Machine.Reach (step steps) (fun s op => s.Valid steps op ∧ s.Safe steps op) (boot mm) s) :
    s.Partitioned := by
  refine Inv.partitioned (h.invariant (P := Inv) ?_ ?_)
  · exact ⟨⟨[], [], Vmalloc.inv_boot⟩, fun a ha => absurd ha List.not_mem_nil⟩
  · rintro s op s' hinv ⟨hvalid, hsafe⟩ hs
    cases op with
    | vmalloc size => exact hinv.vmalloc hvalid hsafe hs
    | vfree ptr size => exact hinv.vfree hvalid hsafe hs

/-! ## Two pages, freed one after the other -/

/-- A check that implies `Valid`: a `vmalloc` gets its physical pages. -/
def supplied (steps : Nat) (s : VmallocSys) : VmallocOp → Bool
  | .vmalloc size => (s.kmem.vm.findFreeSpace steps (totalSize size)).all fun r =>
      (s.kmem.mm.populate r.1 (dataPages size)).all fun q => q.1
  | .vfree ptr size =>
      decide ((ptr, size) ∈ s.live ∧ s.kmem.vm.freeBlocks.length < freePoolCap)

theorem not_putsBack {size : Word} (h : s.supplied steps (.vmalloc size) = true) (base : Word)
    (v : Vmalloc) : ¬ s.PutsBack steps size base v := by
  rintro ⟨hfind, -, mm, hpop⟩
  simp [supplied, hfind, hpop] at h

theorem valid_of_supplied {op : VmallocOp} (h : s.supplied steps op = true) : s.Valid steps op := by
  cases op with
  | vmalloc size => exact fun base v hback => absurd hback (not_putsBack h base v)
  | vfree ptr size => simpa only [supplied, Valid, decide_eq_true_eq] using h

/-- A check that implies `Valid` and `Safe`. -/
def calm (steps : Nat) (s : VmallocSys) (op : VmallocOp) : Bool :=
  s.supplied steps op &&
    match op with
    | .vmalloc size => decide (s.kmem.vm.vmallocNext.toNat + regionSize size < 2 ^ 64)
    | .vfree ptr size => s.kmem.vm.freeBlocks.all fun b =>
        decide (s.kmem.vm.va b + s.kmem.vm.size b ≠ ptr - guardSize ∧
          ptr - guardSize + totalSize size ≠ s.kmem.vm.va b)

theorem safe_of_calm {op : VmallocOp} (h : s.calm steps op = true) :
    s.Valid steps op ∧ s.Safe steps op := by
  unfold calm at h
  rw [Bool.and_eq_true] at h
  refine ⟨valid_of_supplied h.1, ?_⟩
  cases op with
  | vmalloc size =>
      exact ⟨of_decide_eq_true h.2, fun base v hback => absurd hback (not_putsBack h.1 base v)⟩
  | vfree ptr size => exact fun b hb => of_decide_eq_true (List.all_eq_true.mp h.2 b hb)

/-- Memory managers after `pmm_init_from_dtb` on 4 MiB of RAM and `vmm_init`. -/
def sampleMm : Option Mm :=
  ((oneBank 0x40000000 0x400000).pmmInitFromDtb 20).map fun p =>
    Mm.booted ⟨p, fun _ => 0, 0, 0, 0, 0, []⟩

theorem sampleMm_eq :
    sampleMm = some (Mm.booted ⟨oneBankPmm 0x400000 1024, fun _ => 0, 0, 0, 0, 0, []⟩) := by
  rw [sampleMm, BootEnv.init_oneBank 0x400000 1024 (by decide +kernel) (fun _ => rfl) (by decide)
    (by decide) (by decide), Option.map_some]

/-- Two allocations of a page, of which the first is freed and made again. -/
theorem vmalloc_space_partitioned_sample :
    ∃ mm s, sampleMm = some mm ∧
      Machine.Reach (step 600) (fun s op => s.Valid 600 op ∧ s.Safe 600 op) (boot mm) s ∧
      s.live = [(0xFFFFFF8080001000, 4096), (0xFFFFFF8080004000, 4096)] ∧ s.Partitioned := by
  have hrun : (sampleMm.bind fun mm => (Machine.runWhile (step 600) (calm 600) (boot mm)
      [.vmalloc 4096, .vmalloc 4096, .vfree 0xFFFFFF8080001000 4096, .vmalloc 4096]).map
        fun s => s.live) = some [(0xFFFFFF8080001000, 4096), (0xFFFFFF8080004000, 4096)] := by
    rw [sampleMm_eq]
    decide +kernel
  obtain ⟨mm, hmm, hrun⟩ := Option.bind_eq_some_iff.mp hrun
  obtain ⟨s, hs, hlive⟩ := Option.map_eq_some_iff.mp hrun
  have hreach := Machine.reach_of_runWhile (fun s op h => safe_of_calm h) hs
  exact ⟨mm, s, hmm, hreach, hlive, vmalloc_space_partitioned hreach⟩

/-- Two adjacent pages are allocated and freed, in the order of their addresses: nothing is live
then, and no block is on the free list. -/
theorem vmalloc_loses_space :
    ∃ mm s, sampleMm = some mm ∧ Machine.Reach (step 600) (fun s op => s.Valid 600 op) (boot mm) s ∧
      s.live = [] ∧ s.kmem.vm.freeBlocks = [] ∧ ¬ s.Partitioned := by
  have hrun : (sampleMm.bind fun mm => (Machine.runWhile (step 600) (supplied 600) (boot mm)
      [.vmalloc 4096, .vmalloc 4096, .vfree 0xFFFFFF8080001000 4096,
        .vfree 0xFFFFFF8080004000 4096]).map
        fun s => (s.live, s.kmem.vm.freeBlocks, s.kmem.vm.vmallocNext))
      = some ([], [], 0xFFFFFF8080006000) := by
    rw [sampleMm_eq]
    decide +kernel
  obtain ⟨mm, hmm, hrun⟩ := Option.bind_eq_some_iff.mp hrun
  obtain ⟨s, hs, hend⟩ := Option.map_eq_some_iff.mp hrun
  simp only [Prod.mk.injEq] at hend
  obtain ⟨hlive, hblocks, hnext⟩ := hend
  refine ⟨mm, s, hmm, Machine.reach_of_runWhile (fun s op h => valid_of_supplied h) hs, hlive,
    hblocks, fun hpart => ?_⟩
  have hstart := hpart vmallocStart.toNat
  rw [hlive, hblocks, hnext, List.map_nil, List.map_nil, List.append_nil, List.countP_nil] at hstart
  exact absurd hstart (by decide)

end VmallocSys

end Arcline
