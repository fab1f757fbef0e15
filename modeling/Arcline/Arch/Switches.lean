import Arcline.Arch.Context
import Arcline.Run

set_option autoImplicit false

/-! # Tasks that switch to each other

Any number of tasks, each with its context in memory, that take turns by `switch_to`. Between two switches
the running task does what it likes, but for the contexts of the others; of these, `schedule` writes `x23`,
the time at which the task is switched in, before it calls `switch_to`.
-/

namespace Arcline

open Arm (Cpu)

/-- The task that runs, the processor, and for each other task the state in which it last called
`switch_to`, with the time that has been written to its context since then. -/
structure Turns (ι : Type) where
  current : ι
  cpu : Cpu
  called : ι → Option Cpu
  started : ι → Option Word

namespace Turns

variable {ι : Type}

/-- The task computes up to another state, or writes the time to the context of another one, or calls
`switch_to`. -/
inductive Act (ι : Type)
  | work (cpu : Cpu)
  | start (next : ι) (now : Word)
  | switch (next : ι)

/-- The contexts are at `addr`. -/
def step [DecidableEq ι] (addr : ι → Word) (label : Word) (s : Turns ι) : Act ι → Option (Turns ι)
  | .work cpu => some { s with cpu := cpu }
  | .start next now =>
      some { s with
        cpu := s.cpu.store (addr next + CpuContext.xOffset 23) now
        started := Function.update s.started next (some now) }
  | .switch next =>
      some ⟨next, s.cpu.run (switchTo label), Function.update s.called s.current (some s.cpu),
        Function.update s.started s.current none⟩

/-- A computation leaves the contexts of tasks that do not run alone, and `switch_to` is called with the
contexts of this task and another one. -/
def Allowed (addr : ι → Word) (s : Turns ι) : Act ι → Prop
  | .work cpu => ∀ t, t ≠ s.current → CpuContext.load cpu.mem (addr t) = CpuContext.load s.cpu.mem (addr t)
  | .start next _ => next ≠ s.current
  | .switch next => next ≠ s.current ∧ s.cpu.x 0 = addr s.current ∧ s.cpu.x 1 = addr next

/-- The context of a task that does not run is the one it had when it called `switch_to`, up to `x23`. -/
def Kept (addr : ι → Word) (label : Word) (s : Turns ι) : Prop :=
  ∀ t c, t ≠ s.current → s.called t = some c →
    ∃ ctx, CpuContext.load s.cpu.mem (addr t) =
      (CpuContext.saveCallee ctx (cpuContext c) label).setX 23 ((s.started t).getD (c.x 23))

variable {addr : ι → Word} {label : Word} {s s' : Turns ι} [DecidableEq ι]

section

variable (haddr : ∀ t u, t ≠ u → CpuContext.Apart (addr t) (addr u))

include haddr

theorem Kept.switch (h : s.Kept addr label) {next : ι} (hok : s.Allowed addr (.switch next))
    (hs : s.step addr label (.switch next) = some s') : s'.Kept addr label := by
  obtain ⟨hne, h0, h1⟩ := hok
  obtain rfl := Option.some.inj hs
  have hapart : CpuContext.Apart (s.cpu.x 0) (s.cpu.x 1) := by
    rw [h0, h1]
    exact haddr _ _ (Ne.symm hne)
  obtain ⟨-, hsaved, hframe⟩ := run_switchTo label s.cpu hapart
  intro t c ht hc
  by_cases htc : t = s.current
  · -- the task that has just called
    subst htc
    obtain rfl : s.cpu = c := by simpa using hc
    refine ⟨CpuContext.load s.cpu.mem (addr s.current), ?_⟩
    dsimp only
    rw [← h0, hsaved, Function.update_self, Option.getD_none]
    exact (CpuContext.setX_self _ 23).symm
  · have hcalled : s.called t = some c := by simpa [htc] using hc
    obtain ⟨ctx, hctx⟩ := h t c htc hcalled
    refine ⟨ctx, ?_⟩
    dsimp only
    rw [Function.update_of_ne htc, ← hctx]
    refine CpuContext.load_congr fun k => hframe _ fun j => ?_
    rw [h0]
    exact haddr _ _ (Ne.symm htc) j k

theorem Kept.start (h : s.Kept addr label) {next : ι} {now : Word}
    (hs : s.step addr label (.start next now) = some s') : s'.Kept addr label := by
  obtain rfl := Option.some.inj hs
  intro t c ht hc
  obtain ⟨ctx, hctx⟩ := h t c ht hc
  refine ⟨ctx, ?_⟩
  dsimp only
  by_cases htn : t = next
  · subst htn
    rw [Function.update_self, Option.getD_some]
    refine (CpuContext.load_update _ _ _ _).trans ?_
    rw [hctx, CpuContext.setX_setX]
  · rw [Function.update_of_ne htn, ← hctx]
    exact CpuContext.load_congr fun k => Function.update_of_ne (haddr t next htn k 23) _ _

theorem Kept.step (h : s.Kept addr label) {a : Act ι} (hok : s.Allowed addr a)
    (hs : s.step addr label a = some s') : s'.Kept addr label := by
  cases a with
  | switch next => exact h.switch haddr hok hs
  | start next now => exact h.start haddr hs
  | work cpu =>
      obtain rfl := Option.some.inj hs
      intro t c ht hc
      obtain ⟨ctx, hctx⟩ := h t c ht hc
      exact ⟨ctx, (hok t ht).trans hctx⟩

/-- **A task goes on where it left off.** Whatever switches there have been between any number of tasks
whose contexts lie apart: if a task that has called `switch_to` is switched to, the processor is at the end
of `switch_to` with the registers `x19` to `x30` and the stack pointer of that call, where `x23` is the time
that `schedule` has written since then, if it has; and no memory has changed by the switch but the context
of the task that was running. -/
theorem switch_resumes {t₀ : ι} {c₀ : Cpu}
    (h : Machine.Reach (step addr label) (Allowed addr) ⟨t₀, c₀, fun _ => none, fun _ => none⟩ s)
    {next : ι} (hok : s.Allowed addr (.switch next)) (hs : s.step addr label (.switch next) = some s')
    {c : Cpu} (hc : s.called next = some c) :
    s'.cpu.pc = label ∧ s'.cpu.sp = c.sp ∧
      (∀ i : Fin 31, 19 ≤ i → i ≠ 23 → s'.cpu.x i = c.x i) ∧
      s'.cpu.x 23 = (s.started next).getD (c.x 23) ∧
      ∀ a, (∀ k : Fin 34, addr s.current + BitVec.ofNat 64 (8 * k.val) ≠ a) →
        s'.cpu.mem a = s.cpu.mem a := by
  have hkept : s.Kept addr label := by
    refine h.invariant ?_ fun _ _ _ hk hok hstep => hk.step haddr hok hstep
    exact fun _ _ _ hnone => absurd hnone (by simp)
  obtain ⟨hne, h0, h1⟩ := hok
  have hcpu : s.cpu.run (switchTo label) = s'.cpu := congrArg Turns.cpu (Option.some.inj hs)
  obtain ⟨ctx, hctx⟩ := hkept next c hne hc
  have hapart : CpuContext.Apart (s.cpu.x 0) (s.cpu.x 1) := by
    rw [h0, h1]
    exact haddr _ _ (Ne.symm hne)
  obtain ⟨hin, -, hframe⟩ := run_switchTo label s.cpu hapart
  rw [hcpu, h1, hctx] at hin
  rw [hcpu, h0] at hframe
  have hx := fun i => congrFun (congrArg CpuContext.x hin) i
  refine ⟨congrArg CpuContext.pc hin, congrArg CpuContext.sp hin, fun i hi h23 => ?_, ?_, hframe⟩
  · simpa [CpuContext.switchIn, CpuContext.saveCallee, CpuContext.setX, hi, h23, cpuContext] using hx i
  · simpa [CpuContext.switchIn, CpuContext.setX, cpuContext] using hx 23

end

/-- Two contexts, and a task that calls `switch_to` with them. -/
def sampleAddr (t : Bool) : Word := if t then 0x1000 else 0x2000

def callingCpu : Cpu where
  x := Function.update (Function.update (fun i => BitVec.ofNat 64 i.val) 0 0x1000) 1 0x2000
  sp := 0x8000
  pc := 0
  pstate := 0
  elr := 0
  spsr := 0
  mem := fun _ => 0

/-- The other task has got the processor, and is about to switch back at 7 ns. -/
def between : Turns Bool where
  current := false
  cpu := (((callingCpu.run (switchTo 0x5000)).setX 0 0x2000).setX 1 0x1000).store 0x10b8 7
  called := Function.update (fun _ => none) true (some callingCpu)
  started := Function.update (Function.update (fun _ => none) true none) true (some 7)

/-- Back in the first task, all is as it was when it called, but for the time in `x23`. -/
theorem switch_resumes_back :
    Machine.Reach (step sampleAddr 0x5000) (Allowed sampleAddr)
        ⟨true, callingCpu, fun _ => none, fun _ => none⟩ between ∧
      ∃ s', between.step sampleAddr 0x5000 (.switch true) = some s' ∧ s'.cpu.pc = 0x5000 ∧
        s'.cpu.sp = 0x8000 ∧ s'.cpu.x 23 = 7 ∧ s'.cpu.x 30 = 30 := by
  have haddr : ∀ t u : Bool, t ≠ u → CpuContext.Apart (sampleAddr t) (sampleAddr u) := by
    unfold CpuContext.Apart
    decide +kernel
  -- no instruction has to be executed to see that the memory is the same
  have hmem : ∀ c : Cpu, ((c.setX 0 0x2000).setX 1 0x1000).mem = c.mem := fun _ => rfl
  have hreach : Machine.Reach (step sampleAddr 0x5000) (Allowed sampleAddr)
      ⟨true, callingCpu, fun _ => none, fun _ => none⟩ between := by
    refine .next (.start true 7) (.next (.work _) (.next (.switch false) .start ?_ rfl) ?_ rfl) ?_ rfl
    · exact ⟨by decide, rfl, rfl⟩
    · exact fun t _ => congrArg (fun m => CpuContext.load m (sampleAddr t)) (hmem _)
    · exact fun h => absurd h (by decide)
  obtain ⟨s', hs⟩ : ∃ s', between.step sampleAddr 0x5000 (.switch true) = some s' := ⟨_, rfl⟩
  have hcall : between.Allowed sampleAddr (.switch true) := ⟨by decide, rfl, rfl⟩
  have hcalled : between.called true = some callingCpu := rfl
  obtain ⟨hpc, hsp, hx, h23, -⟩ := switch_resumes haddr hreach hcall hs hcalled
  exact ⟨hreach, s', hs, hpc, hsp, h23, hx 30 (by decide) (by decide)⟩

end Turns

end Arcline
