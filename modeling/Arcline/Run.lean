import Mathlib.Tactic.Common

set_option autoImplicit false

/-! # Runs of a machine

A machine is a partial step function: `step s a` is the state after the action `a`, or `none` where
the action has no result. `ok s a` restricts the actions that may be taken in a state.
-/

namespace Machine

variable {σ ω : Type*} (step : σ → ω → Option σ) (ok : σ → ω → Prop)

/-- The states reached from `s₀` by actions that are all allowed where they are taken. -/
inductive Reach (s₀ : σ) : σ → Prop
  | start : Reach s₀ s₀
  | next {s s' : σ} (a : ω) : Reach s₀ s → ok s a → step s a = some s' → Reach s₀ s'

variable {step ok} {s₀ s s' : σ}

/-- What holds at the start and is kept by every allowed action holds in every state reached. -/
theorem Reach.invariant {P : σ → Prop} (hstart : P s₀)
    (hstep : ∀ s a s', P s → ok s a → step s a = some s' → P s')
    (h : Reach step ok s₀ s) : P s := by
  induction h with
  | start => exact hstart
  | next a _ hok hs ih => exact hstep _ a _ ih hok hs

/-- Runs compose. -/
theorem Reach.trans (h : Reach step ok s₀ s) (h' : Reach step ok s s') : Reach step ok s₀ s' := by
  induction h' with
  | start => exact h
  | next a _ hok hs ih => exact .next a ih hok hs

theorem Reach.mono {ok' : σ → ω → Prop} (hok : ∀ s a, ok s a → ok' s a)
    (h : Reach step ok s₀ s) : Reach step ok' s₀ s := by
  induction h with
  | start => exact .start
  | next a _ ha hs ih => exact .next a ih (hok _ a ha) hs

/-- Run a list of actions, each of which has to pass a check where it is taken. -/
def runWhile (step : σ → ω → Option σ) (check : σ → ω → Bool) : σ → List ω → Option σ
  | s, [] => some s
  | s, a :: as => if check s a then (step s a).bind fun s' => runWhile step check s' as else none

/-- Checked runs reach their last state. -/
theorem reach_of_runWhile {check : σ → ω → Bool} (hcheck : ∀ s a, check s a = true → ok s a)
    {as : List ω} (h : runWhile step check s as = some s') : Reach step ok s s' := by
  induction as generalizing s with
  | nil => exact Option.some.inj h ▸ .start
  | cons a as ih =>
      rw [runWhile] at h
      split at h
      · rename_i ha
        obtain ⟨s₁, hs₁, h⟩ := Option.bind_eq_some_iff.mp h
        exact (Reach.next a .start (hcheck s a ha) hs₁).trans (ih h)
      · exact absurd h (by simp)

/-- A checked run reaches a state with a property that can be tested. -/
theorem exists_of_runWhile {check : σ → ω → Bool} {Q : σ → Bool} {as : List ω}
    (h : (runWhile step check s as).any Q = true) (hcheck : ∀ s a, check s a = true → ok s a) :
    ∃ s', Reach step ok s s' ∧ Q s' = true := by
  obtain ⟨s', hs', hQ⟩ := (Option.any_eq_true ..).mp h
  exact ⟨s', reach_of_runWhile hcheck hs', hQ⟩

/-! ## Simulation

An abstract machine answers every action; the concrete one may have no answer. Where one step of the
concrete machine gives the abstract answer and keeps the states related, so do whole runs.
-/

variable {τ ρ : Type*}

/-- The answers of a run, and the state it ends in. -/
def run (step : τ → ω → ρ × τ) : τ → List ω → List ρ × τ
  | t, [] => ([], t)
  | t, a :: as =>
      let q := step t a
      let r := run step q.2 as
      (q.1 :: r.1, r.2)

def runOption (step : σ → ω → Option (ρ × σ)) : σ → List ω → Option (List ρ × σ)
  | s, [] => some ([], s)
  | s, a :: as =>
      (step s a).bind fun q => (runOption step q.2 as).map fun r => (q.1 :: r.1, r.2)

/-- Every action of the run is allowed where it is taken. -/
def Allowed (step : τ → ω → ρ × τ) (ok : τ → ω → Prop) : τ → List ω → Prop
  | _, [] => True
  | t, a :: as => ok t a ∧ Allowed step ok (step t a).2 as

/-- **Forward simulation.** -/
theorem runOption_of_simulates {cstep : σ → ω → Option (ρ × σ)} {astep : τ → ω → ρ × τ}
    {ok : τ → ω → Prop} {R : σ → τ → Prop}
    (hstep : ∀ s t a, R s t → ok t a →
      ∃ s', cstep s a = some ((astep t a).1, s') ∧ R s' (astep t a).2)
    {s : σ} {t : τ} (hR : R s t) {as : List ω} (hok : Allowed astep ok t as) :
    ∃ s', runOption cstep s as = some ((run astep t as).1, s') ∧ R s' (run astep t as).2 := by
  induction as generalizing s t with
  | nil => exact ⟨s, rfl, hR⟩
  | cons a as ih =>
      obtain ⟨s₁, hs₁, hR₁⟩ := hstep s t a hR hok.1
      obtain ⟨s₂, hs₂, hR₂⟩ := ih hR₁ hok.2
      refine ⟨s₂, ?_, hR₂⟩
      simp only [runOption, hs₁, Option.bind_some, hs₂, Option.map_some, run]

end Machine
