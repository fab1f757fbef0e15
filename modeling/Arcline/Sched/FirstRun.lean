import Arcline.Sched.Resume

set_option autoImplicit false

/-! # The first run of a task

`task_create` leaves the entry point of a task and its arguments in the saved registers `x19` to `x22`,
and `task_entry_wrapper`, where the task starts, reads them back from there. Nothing touches them while
the task waits for its first turn, and the processor gets to `task_entry_wrapper`, on the task's own
stack, by each of the ways in which a task can be switched to.
-/

namespace Arcline

namespace Sched

/-- What `task_entry_wrapper` calls: the entry point, `argc`, `argv` and `envp`. -/
def taskEntryWrapper (s : Sched) : Option (Word × BitVec 32 × Word × Word) :=
  s.currentTask.map fun t =>
    let ctx := (s.task t).context
    (ctx.x 19, (ctx.x 20).setWidth 32, ctx.x 21, ctx.x 22)

namespace Trace

variable {τ τ₁ τ₂ : Trace} {s₀ s' : Sched} {l L : List Nat} {p n t : Nat} {op : Op}
  {memory : Nat → Task} {idle : Word} {outside : Outside}

/-- Calls after which the task is not the current one. -/
def Waits (t : Nat) (τ : Trace) (op : Op) : Prop :=
  op.Valid τ.sched ∧ ∀ τ', τ.step op = some τ' → τ'.sched.currentTask ≠ some t

/-- A task is new: it has not run yet, and its context is the one it was created with. -/
structure New (τ : Trace) (t : Nat) (ctx : CpuContext) : Prop where
  lt : t < τ.sched.objects
  other : τ.sched.currentTask ≠ some t
  suspended : τ.suspended t = some (.fresh ctx)

theorem New.step {ctx : CpuContext} (h : τ.New t ctx) (hf : τ.Follows l L p) (hwait : Waits t τ op)
    (hs : τ.step op = some τ₁) : τ₁.New t ctx := by
  have hother := hwait.2 τ₁ hs
  obtain ⟨s', out, hok, rfl⟩ := step_eq_some.mp hs
  have hle := (hf.steady.steps hwait.1 hok).objects_le
  refine ⟨Nat.lt_of_lt_of_le h.lt hle, hother, ?_⟩
  show τ.suspend s' op t = _
  have hlt := h.lt
  rw [suspend, if_neg hother, if_neg h.other, if_neg (by omega)]
  exact h.suspended

variable {entry : Word} {args : Option TaskArgs} {env : Outside}

/-- The task that a creation returns. -/
def created (τ : Trace) (op : Op) : Option Nat :=
  match op with
  | .create entry priority args env =>
      match τ.sched.taskCreate entry priority args env with
      | .ok (t, _) => t
      | .error _ => none
  | _ => none

end Trace

end Sched

end Arcline
