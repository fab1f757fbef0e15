import Arcline.Arch.Context

set_option autoImplicit false

/-! # The interrupt entry and exit path

`irq_handler_spx` saves the interrupted registers in a `cpu_context_t` on the stack, hands the frame
to `handle_irq`, and restores the registers from the frame, which a task switch may have replaced.
-/

namespace Arcline

open Arm (Cpu Instr)

/-! ## The code -/

/-- `irq_handler_spx` up to the call. -/
def irqSave : List Instr :=
  [.subSp 272,
   .stp 0 1 .sp 0,
   .stp 2 3 .sp 16,
   .stp 4 5 .sp 32,
   .stp 6 7 .sp 48,
   .stp 8 9 .sp 64,
   .stp 10 11 .sp 80,
   .stp 12 13 .sp 96,
   .stp 14 15 .sp 112,
   .stp 16 17 .sp 128,
   .stp 18 19 .sp 144,
   .stp 20 21 .sp 160,
   .stp 22 23 .sp 176,
   .stp 24 25 .sp 192,
   .stp 26 27 .sp 208,
   .stp 28 29 .sp 224,
   .str 30 .sp 240,
   .movFromSp 9,
   .add 9 9 272,
   .str 9 .sp 248,
   .mrs 9 .elrEl1,
   .str 9 .sp 256,
   .mrs 9 .spsrEl1,
   .str 9 .sp 264,
   .movFromSp 0]

/-- `irq_handler_spx` after the call. -/
def irqRestore : List Instr :=
  [.ldr 9 .sp 256,
   .msr .elrEl1 9,
   .ldr 9 .sp 264,
   .msr .spsrEl1 9,
   .ldp 0 1 .sp 0,
   .ldp 2 3 .sp 16,
   .ldp 4 5 .sp 32,
   .ldp 6 7 .sp 48,
   .ldp 8 9 .sp 64,
   .ldp 10 11 .sp 80,
   .ldp 12 13 .sp 96,
   .ldp 14 15 .sp 112,
   .ldp 16 17 .sp 128,
   .ldp 18 19 .sp 144,
   .ldp 20 21 .sp 160,
   .ldp 22 23 .sp 176,
   .ldp 24 25 .sp 192,
   .ldp 26 27 .sp 208,
   .ldp 28 29 .sp 224,
   .ldr 30 .sp 240,
   .ldr 9 .sp 248,
   .addSp 272,
   .movToSp 9,
   .eret]

/-- `irq_handler_spx`. The interrupt controller, the dispatch and the handlers it calls are the
parameter `handleIrq`: a state at the call to the state at the return. -/
def irqHandlerSpx (handleIrq : Cpu → Cpu) : List Instr :=
  irqSave ++ .bl handleIrq :: irqRestore

/-- The registers with which the exit path continues in a frame: everything is taken from it, but
`x9` has been overwritten with its stack pointer. -/
def CpuContext.irqReturn (frame : CpuContext) : CpuContext := frame.setX 9 frame.sp

theorem CpuContext.irqReturn_eq_iff {frame : CpuContext} :
    frame.irqReturn = frame ↔ frame.x 9 = frame.sp := by
  rw [CpuContext.ext_iff]
  simp only [irqReturn, setX, Function.update_eq_self_iff, and_self, and_true]
  exact eq_comm

/-! ## Saving and restoring a frame -/

/-- The register pairs that both halves move, with their offsets in the frame. -/
def framePairs : List (Fin 31 × Fin 31 × Word) :=
  [(0, 1, 0), (2, 3, 16), (4, 5, 32), (6, 7, 48), (8, 9, 64), (10, 11, 80), (12, 13, 96),
   (14, 15, 112), (16, 17, 128), (18, 19, 144), (20, 21, 160), (22, 23, 176), (24, 25, 192),
   (26, 27, 208), (28, 29, 224)]

theorem irqSave_eq : irqSave = .subSp 272 :: (Arm.stps .sp framePairs ++
    [.str 30 .sp 240, .movFromSp 9, .add 9 9 272, .str 9 .sp 248, .mrs 9 .elrEl1, .str 9 .sp 256,
      .mrs 9 .spsrEl1, .str 9 .sp 264, .movFromSp 0]) := rfl

theorem irqRestore_eq : irqRestore =
    [.ldr 9 .sp 256, .msr .elrEl1 9, .ldr 9 .sp 264, .msr .spsrEl1 9] ++
      (Arm.ldps .sp framePairs ++ [.ldr 30 .sp 240, .ldr 9 .sp 248, .addSp 272, .movToSp 9, .eret]) :=
  rfl

/-- Every register but `x30` has its slot, at the offset the structure gives it. -/
theorem mem_framePairs (i : Fin 31) :
    i ≠ 30 → (i, CpuContext.xOffset i) ∈ Arm.slots framePairs := by
  revert i
  decide

theorem framePairs_offsets : ((Arm.slots framePairs).map Prod.snd).Nodup := by decide

theorem framePairs_regs : ((Arm.slots framePairs).map Prod.fst).Nodup := by decide

/-- What the first half leaves for the call: the frame lies at the stack pointer, its address is
the argument, and it holds the registers, the stack pointer of the interrupted program and the
place and processor state of the exception. -/
theorem run_irqSave (c : Cpu) :
    (c.run irqSave).sp = c.sp - 272 ∧ (c.run irqSave).x 0 = c.sp - 272 ∧
      CpuContext.load (c.run irqSave).mem (c.sp - 272) =
        { x := c.x, sp := c.sp, pc := c.elr, pstate := c.spsr } := by
  obtain ⟨m, hrun, hm, -⟩ := Arm.stps_spec (c.exec (.subSp 272)) .sp framePairs_offsets
  -- the stores after the pairs go to offsets that no pair has
  have hother : ∀ i : Fin 31, i ≠ 30 →
      CpuContext.xOffset i ≠ 240#64 ∧ CpuContext.xOffset i ≠ 248#64 ∧
        CpuContext.xOffset i ≠ 256#64 ∧ CpuContext.xOffset i ≠ 264#64 := by decide
  rw [irqSave_eq, Arm.Cpu.run_cons, Arm.Cpu.run_append, hrun]
  refine ⟨rfl, rfl, CpuContext.ext (funext fun i => ?_) ?_ ?_ ?_⟩
  · by_cases h30 : i = 30
    · subst h30
      simp [CpuContext.load, CpuContext.xOffset, Cpu.exec, Cpu.store, Cpu.setX, Cpu.base]
    · have hpair : m (c.sp - 272 + CpuContext.xOffset i) = c.x i := hm _ (mem_framePairs i h30)
      obtain ⟨h240, h248, h256, h264⟩ := hother i h30
      simpa [CpuContext.load, Cpu.exec, Cpu.store, Cpu.setX, Cpu.base, Cpu.sys,
        Function.update_apply, h240, h248, h256, h264] using hpair
  · refine Eq.trans ?_ (BitVec.sub_add_cancel c.sp 272)
    simp [CpuContext.load, Cpu.exec, Cpu.store, Cpu.setX, Cpu.base]
  · simp [CpuContext.load, Cpu.exec, Cpu.store, Cpu.setX, Cpu.base, Cpu.sys]
  · simp [CpuContext.load, Cpu.exec, Cpu.store, Cpu.setX, Cpu.base, Cpu.sys]

/-- What the second half does with the frame at the stack pointer. -/
theorem run_irqRestore (c : Cpu) :
    cpuContext (c.run irqRestore) = (CpuContext.load c.mem c.sp).irqReturn := by
  rw [irqRestore_eq, Arm.Cpu.run_append, Arm.Cpu.run_append]
  have hbase : ∀ n, Arm.Base.sp = .reg n → n ∉ (Arm.slots framePairs).map Prod.fst := by
    intro n hn
    cases hn
  obtain ⟨x, hrun, hx, -⟩ := Arm.ldps_spec
    (c.run [.ldr 9 .sp 256, .msr .elrEl1 9, .ldr 9 .sp 264, .msr .spsrEl1 9]) framePairs_regs hbase
  rw [hrun]
  refine CpuContext.ext (funext fun i => ?_) ?_ ?_ ?_
  · by_cases h9 : i = 9
    · subst h9
      simp [cpuContext, CpuContext.irqReturn, CpuContext.setX, CpuContext.load, Cpu.exec,
        Cpu.setX, Cpu.base, Cpu.setSys]
    by_cases h30 : i = 30
    · subst h30
      simp [cpuContext, CpuContext.irqReturn, CpuContext.setX, CpuContext.load, CpuContext.xOffset,
        Cpu.exec, Cpu.setX, Cpu.base, Cpu.setSys]
    · have hpair : x i = c.mem (c.sp + CpuContext.xOffset i) := hx _ (mem_framePairs i h30)
      simp [cpuContext, CpuContext.irqReturn, CpuContext.setX, CpuContext.load, Cpu.exec,
        Cpu.setX, Cpu.base, h9, h30, hpair]
  all_goals
    simp [cpuContext, CpuContext.irqReturn, CpuContext.setX, CpuContext.load, Cpu.exec,
      Cpu.setX, Cpu.base, Cpu.setSys]

/-! ## What an interrupted program gets back -/

section Interrupt

variable (handleIrq : Cpu → Cpu) (c : Cpu) (vector pstate : Word)

/-- The state in which `handle_irq` is called when an interrupt is taken in the state `c`. -/
def irqCall : Cpu := (c.takeException vector pstate).run irqSave

/-- The frame `handle_irq` is called with. -/
def savedFrame : CpuContext :=
  .load (irqCall c vector pstate).mem ((irqCall c vector pstate).x 0)

/-- The frame at the same place when `handle_irq` returns: the saved one, or the context of another
task. -/
def returnedFrame : CpuContext :=
  .load (handleIrq (irqCall c vector pstate)).mem ((irqCall c vector pstate).x 0)

/-- The registers after the `eret`. -/
def resumedContext : CpuContext :=
  cpuContext ((c.takeException vector pstate).run (irqHandlerSpx handleIrq))

/-- The registers after the `eret` are the interrupted ones if `handle_irq` left the frame alone,
and those of the new frame if it replaced it. -/
def IrqTransparent : Prop :=
  (returnedFrame handleIrq c vector pstate = savedFrame c vector pstate →
    resumedContext handleIrq c vector pstate = cpuContext c) ∧
  (returnedFrame handleIrq c vector pstate ≠ savedFrame c vector pstate →
    resumedContext handleIrq c vector pstate = returnedFrame handleIrq c vector pstate)

/-- The saved frame is the interrupted program's context. -/
theorem savedFrame_eq : savedFrame c vector pstate = cpuContext c := by
  obtain ⟨-, hx0, hframe⟩ := run_irqSave (c.takeException vector pstate)
  rw [savedFrame, irqCall, hx0, hframe]
  rfl

/-- After a callee that gives the stack pointer back, the program resumes from the frame the callee
returns. -/
theorem resumedContext_eq
    (hsp : (handleIrq (irqCall c vector pstate)).sp = (irqCall c vector pstate).sp) :
    resumedContext handleIrq c vector pstate =
      (returnedFrame handleIrq c vector pstate).irqReturn := by
  obtain ⟨hcall, hx0, -⟩ := run_irqSave (c.takeException vector pstate)
  have hframe : (handleIrq (irqCall c vector pstate)).sp = (irqCall c vector pstate).x 0 := by
    rw [hsp, irqCall, hcall, hx0]
  rw [resumedContext, irqHandlerSpx, Arm.Cpu.run_append, Arm.Cpu.run_cons, returnedFrame, ← hframe]
  exact run_irqRestore (handleIrq (irqCall c vector pstate))

/-- **The interrupt path is transparent exactly for frames whose `x9` is their stack pointer.**
`handle_irq` is any function that returns with the stack pointer it was called with. The exit path
reloads `x9` and then needs it once more to reload the stack pointer: an interrupted program, or the
task switched to, gets its own `x9` back only where it already held the stack pointer. -/
theorem irq_transparent_iff
    (hsp : (handleIrq (irqCall c vector pstate)).sp = (irqCall c vector pstate).sp) :
    IrqTransparent handleIrq c vector pstate ↔
      (returnedFrame handleIrq c vector pstate).x 9 =
        (returnedFrame handleIrq c vector pstate).sp := by
  have hresumed : resumedContext handleIrq c vector pstate = returnedFrame handleIrq c vector pstate ↔
      (returnedFrame handleIrq c vector pstate).x 9 =
        (returnedFrame handleIrq c vector pstate).sp := by
    rw [resumedContext_eq handleIrq c vector pstate hsp, CpuContext.irqReturn_eq_iff]
  rw [← hresumed, IrqTransparent, ← savedFrame_eq c vector pstate]
  by_cases hsame : returnedFrame handleIrq c vector pstate = savedFrame c vector pstate
  · simp [hsame]
  · simp [hsame]

end Interrupt

/-- A program interrupted with `x9` zero and its stack at 1 GiB. -/
def sampleCpu : Cpu where
  x _ := 0
  sp := 0x40000000
  pc := 0x80000
  pstate := 0x345
  elr := 0
  spsr := 0
  mem _ := 0

/-- A program with its stack pointer in `x9`, and other values in the other registers. -/
def steadyCpu : Cpu :=
  { sampleCpu with x := fun i => if i = 9 then 0x40000000 else BitVec.ofNat 64 (i + 1) }

/-- A handler that puts 42 into `x0` of the frame. -/
def answering (c : Cpu) : Cpu := c.store (c.x 0 + CpuContext.xOffset 0) 42

theorem returnedFrame_id (c : Cpu) (vector pstate : Word) :
    returnedFrame id c vector pstate = cpuContext c := by
  rw [← savedFrame_eq c vector pstate, returnedFrame, savedFrame, id]

theorem returnedFrame_answering (c : Cpu) (vector pstate : Word) :
    returnedFrame answering c vector pstate = (cpuContext c).setX 0 42 := by
  rw [← savedFrame_eq c vector pstate]
  exact CpuContext.load_update _ _ 0 42

/-- With a handler that does nothing, and with one that changes the frame. -/
theorem irq_transparent_steady : IrqTransparent id steadyCpu 0x280 0x3c5 ∧
    IrqTransparent answering steadyCpu 0x280 0x3c5 := by
  constructor
  · refine (irq_transparent_iff id steadyCpu 0x280 0x3c5 ?_).mpr ?_
    · rw [id]
    · rw [returnedFrame_id]
      rfl
  · refine (irq_transparent_iff answering steadyCpu 0x280 0x3c5 ?_).mpr ?_
    · rw [answering, Cpu.store]
    · rw [returnedFrame_answering]
      rfl

/-- A handler that does nothing: the interrupted program finds its stack pointer in `x9`. -/
theorem irq_clobbers_x9 : ¬ IrqTransparent id sampleCpu 0x280 0x3c5 := by
  have hframe := returnedFrame_id sampleCpu 0x280 0x3c5
  have hsp : (id (irqCall sampleCpu 0x280 0x3c5)).sp = (irqCall sampleCpu 0x280 0x3c5).sp := by
    rw [id]
  intro h
  have hresumed := h.1 (hframe.trans (savedFrame_eq sampleCpu 0x280 0x3c5).symm)
  rw [resumedContext_eq id sampleCpu 0x280 0x3c5 hsp, hframe] at hresumed
  have hx9 : (0x40000000 : Word) = 0 := congrArg (fun f => CpuContext.x f 9) hresumed
  exact absurd hx9 (by decide)

end Arcline
