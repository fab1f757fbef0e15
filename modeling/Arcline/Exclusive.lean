import Mathlib.Logic.Function.Basic
import Mathlib.Tactic.Common

set_option autoImplicit false

/-! # Exclusive accesses and serial histories

A cell of memory that threads access with load-exclusive and store-exclusive instructions, and the
programs they run while they hold a lock: single accesses to shared data, in which the next access may
depend on what the last one found. Programs run one after the other leave a serial history; it is one of
a more abstract machine as well, if each program does there what it does here.
-/

namespace Exclusive

/-! ## Cells -/

/-- A word, and a monitor for each thread. A load-exclusive sets the monitor of its thread, and every
store to the word clears all of them. -/
structure Cell (ι : Type*) where
  word : BitVec 32
  monitor : ι → Bool

namespace Cell

variable {ι : Type*} [DecidableEq ι] (c : Cell ι) (t : ι)

/-- What a load-exclusive leaves; it reads `word`. -/
def loadExclusive : Cell ι := { c with monitor := Function.update c.monitor t true }

/-- What any store to the word leaves. -/
def stored (v : BitVec 32) : Cell ι := ⟨v, fun _ => false⟩

/-- The monitor of a thread is cleared for another reason, as an exception return does. -/
def lose : Cell ι := { c with monitor := Function.update c.monitor t false }

/-- The status a store-exclusive returns, which is 0 if it has stored, and what it leaves. -/
def storeExclusive (v : BitVec 32) : BitVec 32 × Cell ι :=
  if c.monitor t then (0, stored v) else (1, c.lose t)

@[simp] theorem loadExclusive_word : (c.loadExclusive t).word = c.word := rfl
@[simp] theorem lose_word : (c.lose t).word = c.word := rfl

omit [DecidableEq ι] in
@[simp] theorem stored_word (v : BitVec 32) : (stored v : Cell ι).word = v := rfl

omit [DecidableEq ι] in
@[simp] theorem stored_monitor (v : BitVec 32) (u : ι) : (stored v : Cell ι).monitor u = false := rfl

theorem loadExclusive_monitor {u : ι} (h : (c.loadExclusive t).monitor u = true) :
    u = t ∨ c.monitor u = true := by
  by_cases hu : u = t
  · exact .inl hu
  · exact .inr (by simpa [loadExclusive, hu] using h)

/-- A monitor that is set after a loss was set before. -/
theorem lose_monitor {u : ι} (h : (c.lose t).monitor u = true) : u ≠ t ∧ c.monitor u = true := by
  by_cases hu : u = t
  · simp [lose, hu] at h
  · exact ⟨hu, by simpa [lose, hu] using h⟩

end Cell

/-! ## Programs of accesses -/

/-- A program of accesses to data of type `σ`: each one changes the data by `write`, and goes on as
`next` says for the data it has found. -/
inductive Prog (σ ρ : Type*)
  | ret (r : ρ)
  | access (write : σ → σ) (next : σ → Prog σ ρ)

namespace Prog

variable {σ ρ : Type*}

/-- Run a program without interruption. -/
def run : Prog σ ρ → σ → σ × ρ
  | ret r, d => (d, r)
  | access write next, d => (next d).run (write d)

/-- An access that only reads. -/
def load (next : σ → Prog σ ρ) : Prog σ ρ := access id next

/-- An access that only writes. -/
def store (write : σ → σ) (rest : Prog σ ρ) : Prog σ ρ := access write fun _ => rest

@[simp] theorem run_ret (r : ρ) (d : σ) : (ret r).run d = (d, r) := rfl
@[simp] theorem run_load (next : σ → Prog σ ρ) (d : σ) : (load next).run d = (next d).run d := rfl
@[simp] theorem run_store (write : σ → σ) (rest : Prog σ ρ) (d : σ) :
    (store write rest).run d = rest.run (write d) := rfl

end Prog

/-! ## Serial histories -/

/-- A completed call: who called, what, and with what result. -/
structure Done (ι ω ρ : Type*) where
  thread : ι
  op : ω
  result : ρ

section Serial

variable {ι ω ρ σ τ : Type*}

/-- The calls of `log`, the last first, run one after the other from `d₀`, end in the state given. -/
inductive Serial (step : ω → σ → σ × ρ) (d₀ : σ) : List (Done ι ω ρ) → σ → Prop
  | nil : Serial step d₀ [] d₀
  | cons {log : List (Done ι ω ρ)} {d d' : σ} {r : ρ} (t : ι) (o : ω) :
      Serial step d₀ log d → step o d = (d', r) → Serial step d₀ (⟨t, o, r⟩ :: log) d'

/-- What holds at the start and is kept by every call holds at the end. -/
theorem Serial.invariant {step : ω → σ → σ × ρ} {d₀ : σ} {P : List (Done ι ω ρ) → σ → Prop}
    (hstart : P [] d₀)
    (hstep : ∀ log d d' r t o, P log d → step o d = (d', r) → P (⟨t, o, r⟩ :: log) d')
    {log : List (Done ι ω ρ)} {d : σ} (h : Serial step d₀ log d) : P log d := by
  induction h with
  | nil => exact hstart
  | cons t o _ hrun ih => exact hstep _ _ _ _ t o ih hrun

/-- **Refinement of histories.** A history of `step` is one of `spec` on the abstractions of the states
if each operation is. -/
theorem Serial.map {step : ω → σ → σ × ρ} {spec : ω → τ → τ × ρ} {abs : σ → τ}
    (hspec : ∀ o d, spec o (abs d) = (abs (step o d).1, (step o d).2)) {d₀ : σ}
    {log : List (Done ι ω ρ)} {d : σ} (h : Serial step d₀ log d) : Serial spec (abs d₀) log (abs d) := by
  induction h with
  | nil => exact .nil
  | cons t o _ hrun ih =>
      apply Serial.cons t o ih
      rw [hspec, hrun]

end Serial

end Exclusive
