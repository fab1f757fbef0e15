import Mathlib.Data.Fintype.Pigeonhole
import Mathlib.Logic.Relation
import Mathlib.Order.WellFounded

set_option autoImplicit false

/-! # Loops with a bound on their steps

A loop that may not come to an end is a function of a bound on its steps, `none` where the bound is too
small. `Returns` says that the loop does come to an end. A loop that goes from one place to the next does
so if no place is reached again from itself; where the places are finitely many nothing else is needed,
and otherwise the loop is `Endless`. `loop` is the loop of a given turn, with one rule for each of the
three: what it leaves behind, that it returns, and that it does not.
-/

namespace Fuel

variable {α β : Type*} {f g : Nat → Option α}

/-- With enough steps the result is `r`. -/
def ReturnsAs (f : Nat → Option α) (r : α) : Prop := ∃ steps, ∀ fuel, steps ≤ fuel → f fuel = some r

def Returns (f : Nat → Option α) : Prop := ∃ r, ReturnsAs f r

theorem ReturnsAs.pure (r : α) : ReturnsAs (fun _ => some r) r := ⟨0, fun _ _ => rfl⟩

theorem Returns.pure (r : α) : Returns fun _ => some r := ⟨r, .pure r⟩

/-- One step more. -/
theorem Returns.step (heq : ∀ fuel, f (fuel + 1) = g fuel) (h : Returns g) : Returns f := by
  obtain ⟨r, steps, h⟩ := h
  refine ⟨r, steps + 1, fun fuel hfuel => ?_⟩
  rcases fuel with _ | fuel
  · omega
  exact (heq fuel).trans (h fuel (by omega))

/-- A test that does not depend on the bound. -/
theorem Returns.ite {c : Prop} [Decidable c] (hf : c → Returns f) (hg : ¬ c → Returns g) :
    Returns fun fuel => if c then f fuel else g fuel := by
  by_cases hc : c
  · simpa only [if_pos hc] using hf hc
  · simpa only [if_neg hc] using hg hc

theorem ReturnsAs.bind {r : α} {k : α → Nat → Option β} (h : ReturnsAs f r) {r' : β}
    (hk : ReturnsAs (k r) r') : ReturnsAs (fun fuel => (f fuel).bind fun a => k a fuel) r' := by
  obtain ⟨steps, h⟩ := h
  obtain ⟨steps', hk⟩ := hk
  refine ⟨steps + steps', fun fuel hfuel => ?_⟩
  simpa only [h fuel (by omega), Option.bind_some] using hk fuel (by omega)

theorem Returns.bind {r : α} {k : α → Nat → Option β} (h : ReturnsAs f r) (hk : Returns (k r)) :
    Returns fun fuel => (f fuel).bind fun a => k a fuel := by
  obtain ⟨r', hk⟩ := hk
  exact ⟨r', h.bind hk⟩

theorem ReturnsAs.map {r : α} (h : ReturnsAs f r) (φ : α → β) :
    ReturnsAs (fun fuel => (f fuel).map φ) (φ r) := by
  obtain ⟨steps, h⟩ := h
  exact ⟨steps, fun fuel hfuel => by simp only [h fuel hfuel, Option.map_some]⟩

/-- A loop that never has a result does not come to an end. -/
theorem not_returns (h : ∀ fuel, f fuel = none) : ¬ Returns f := by
  rintro ⟨r, steps, hr⟩
  have := (h steps).symm.trans (hr steps (Nat.le_refl steps))
  contradiction

/-! ## Places -/

open Relation

variable {next : α → α → Prop} {p : α}

/-- From `p` on a place is reached that is reached again from itself. -/
def Endless (next : α → α → Prop) (p : α) : Prop := ∃ q, ReflTransGen next p q ∧ TransGen next q q

/-- It goes on to a place from which the loop is endless too. -/
theorem Endless.exists_next (h : Endless next p) : ∃ q, next p q ∧ Endless next q := by
  obtain ⟨q, hpq, hq⟩ := h
  rcases hpq.cases_head with rfl | ⟨p', hp, hp'⟩
  · obtain ⟨q', hnext, hback⟩ := TransGen.head'_iff.mp hq
    exact ⟨q', hnext, p, hback, hq⟩
  · exact ⟨p', hp, q, hp', hq⟩

/-- A loop through finitely many places ends if it is not endless. -/
theorem acc_of_not_endless [Finite α] (h : ¬ Endless next p) : Acc (fun q p => next p q) p := by
  by_contra hacc
  obtain ⟨f, rfl, hf⟩ := not_acc_iff_exists_descending_chain.mp hacc
  have hreach : ∀ i k, ReflTransGen next (f i) (f (i + k)) := by
    intro i k
    induction k with
    | zero => exact .refl
    | succ k ih => exact ih.tail (hf (i + k))
  -- two of the places of an infinite run are the same
  have hback : ∀ i j, i < j → f i = f j → False := by
    intro i j hij heq
    have hloop : TransGen next (f i) (f (i + 1 + (j - i - 1))) := .head' (hf i) (hreach (i + 1) _)
    rw [show i + 1 + (j - i - 1) = j by omega, ← heq] at hloop
    exact h ⟨f i, by simpa using hreach 0 i, hloop⟩
  obtain ⟨i, j, hne, heq⟩ := Finite.exists_ne_map_eq_of_infinite f
  rcases Nat.lt_or_gt_of_ne hne with hij | hij
  · exact hback i j hij heq
  · exact hback j i hij heq.symm

/-! ## The loop of a turn -/

/-- A turn ends the loop with a result, or leads to the next state. It is given the steps that are left,
for loops of its own. -/
def loop {σ ρ : Type*} (turn : Nat → σ → Option (Except ρ σ)) : Nat → σ → Option ρ
  | 0, _ => none
  | fuel + 1, s =>
      (turn fuel s).bind fun next =>
        match next with
        | .error r => some r
        | .ok s => loop turn fuel s

section Loop

variable {σ ρ : Type*} {turn : Nat → σ → Option (Except ρ σ)} {place : σ → α} {s : σ}

theorem loop_of_error {fuel : Nat} {r : ρ} (h : turn fuel s = some (.error r)) :
    loop turn (fuel + 1) s = some r := by
  rw [loop, h, Option.bind_some]

theorem loop_of_ok {fuel : Nat} {s' : σ} (h : turn fuel s = some (.ok s')) :
    loop turn (fuel + 1) s = loop turn fuel s' := by
  rw [loop, h, Option.bind_some]

/-- `Inv` holds of the next state, or `Res` of the result. -/
def After (Inv : σ → Prop) (Res : ρ → Prop) : Except ρ σ → Prop
  | .ok s => Inv s
  | .error r => Res r

/-- The invariant rule. -/
theorem loop_invariant {Inv : σ → Prop} {Res : ρ → Prop}
    (hturn : ∀ fuel s next, Inv s → turn fuel s = some next → After Inv Res next) {fuel : Nat} {r : ρ}
    (hs : Inv s) (h : loop turn fuel s = some r) : Res r := by
  induction fuel generalizing s with
  | zero => exact absurd h (by simp [loop])
  | succ fuel ih =>
      rw [loop, Option.bind_eq_some_iff] at h
      obtain ⟨next, hnext, h⟩ := h
      have hafter := hturn fuel s next hs hnext
      cases next with
      | error r' => exact Option.some.inj h ▸ hafter
      | ok s' => exact ih hafter h

/-- A turn that returns, and then ends the loop or leads to a state from which it returns. -/
theorem Returns.loop {next : Except ρ σ} (hturn : ReturnsAs (fun fuel => turn fuel s) next)
    (h : ∀ s', next = .ok s' → Returns fun fuel => loop turn fuel s') :
    Returns fun fuel => Fuel.loop turn fuel s := by
  obtain ⟨steps, hturn⟩ := hturn
  cases next with
  | error r =>
      refine ⟨r, steps + 1, fun fuel hfuel => ?_⟩
      rcases fuel with _ | fuel
      · omega
      exact loop_of_error (hturn fuel (by omega))
  | ok s' =>
      obtain ⟨r, steps', h⟩ := h s' rfl
      refine ⟨r, steps + steps' + 1, fun fuel hfuel => ?_⟩
      rcases fuel with _ | fuel
      · omega
      exact (loop_of_ok (hturn fuel (by omega))).trans (h fuel (by omega))

/-- The loop returns if every turn does and leads to a next place. -/
theorem loop_returns (hturn : ∀ s, ∃ r, ReturnsAs (fun fuel => turn fuel s) r ∧
      ∀ s', r = .ok s' → next (place s) (place s'))
    (hacc : Acc (fun q p => next p q) (place s)) : Returns fun fuel => loop turn fuel s := by
  generalize hp : place s = p at hacc
  induction hacc generalizing s with
  | intro p _ ih =>
      subst hp
      obtain ⟨r, hr, hnext⟩ := hturn s
      exact .loop hr fun s' hs' => ih _ (hnext s' hs') rfl

/-- It does not if every turn leads to the next place, and this goes on for ever. -/
theorem loop_endless (hturn : ∀ fuel s q, next (place s) q →
      turn fuel s = none ∨ ∃ s', turn fuel s = some (.ok s') ∧ place s' = q)
    (fuel : Nat) (h : Endless next (place s)) : loop turn fuel s = none := by
  induction fuel generalizing s with
  | zero => rfl
  | succ fuel ih =>
      obtain ⟨q, hnext, hq⟩ := h.exists_next
      rcases hturn fuel s q hnext with hnone | ⟨s', hs', rfl⟩
      · rw [loop, hnone, Option.bind_none]
      · rw [loop_of_ok hs', ih hq]

end Loop

/-- In a ring not every step goes up. -/
theorem Endless.exists_step_le (μ : α → Nat) (h : Endless next p) :
    ∃ q q', ReflTransGen next p q ∧ TransGen next q q ∧ next q q' ∧ μ q' ≤ μ q := by
  obtain ⟨start, hstart, hring⟩ := h
  by_contra hnone
  have hlt : ∀ q q', ReflTransGen next p q → TransGen next q q → next q q' → μ q < μ q' := by
    intro q q' hq hback hstep
    by_contra hle
    exact hnone ⟨q, q', hq, hback, hstep, Nat.le_of_not_lt hle⟩
  -- once round, from `start` to any place of the ring
  have hup : ∀ q, TransGen next start q → ReflTransGen next q start → μ start < μ q := by
    intro q hq
    induction hq with
    | single hstep =>
        intro _
        exact hlt _ _ hstart hring hstep
    | tail hreach hstep ih =>
        intro hback
        have hback' := ReflTransGen.head hstep hback
        have hround := TransGen.trans_right hback' hreach
        exact (ih hback').trans (hlt _ _ (hstart.trans hreach.to_reflTransGen) hround hstep)
  exact absurd (hup start hring .refl) (Nat.lt_irrefl _)

end Fuel
