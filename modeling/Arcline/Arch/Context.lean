import Arcline.Arch.Arm
import Arcline.Word
import Mathlib.Data.Fintype.Basic

set_option autoImplicit false

/-! # Saved contexts and the voluntary switch

A task that does not run keeps its registers in a `cpu_context_t`. `switch_to` saves the registers
that a called function has to preserve, and continues in another context; the jump at the end of
`schedule` continues in another context without saving anything.
-/

namespace Arcline

open Arm (Cpu Instr)

/-- `cpu_context_t`. -/
@[ext]
structure CpuContext where
  /-- `x0` to `x30` -/
  x : Fin 31 → Word
  sp : Word
  pc : Word
  pstate : Word

namespace CpuContext

/-- The structure after `memset(ctx, 0, sizeof(cpu_context_t))`. -/
def zero : CpuContext where
  x _ := 0
  sp := 0
  pc := 0
  pstate := 0

def setX (c : CpuContext) (i : Fin 31) (v : Word) : CpuContext :=
  { c with x := Function.update c.x i v }

theorem setX_self (c : CpuContext) (i : Fin 31) : c.setX i (c.x i) = c :=
  CpuContext.ext (Function.update_eq_self i c.x) rfl rfl rfl

theorem setX_setX (c : CpuContext) (i : Fin 31) (v w : Word) : (c.setX i v).setX i w = c.setX i w :=
  CpuContext.ext (by simp [setX]) rfl rfl rfl

/-- The offset of a general register in the structure. -/
def xOffset (i : Fin 31) : Word := BitVec.ofNat 64 (8 * i.val)

/-- The structure that lies at an address. -/
def load (mem : Word → Word) (addr : Word) : CpuContext where
  x i := mem (addr + xOffset i)
  sp := mem (addr + 248)
  pc := mem (addr + 256)
  pstate := mem (addr + 264)

/-- The members of the structure lie at different offsets. -/
theorem xOffset_ne : ∀ i : Fin 31, xOffset i ≠ 248#64 ∧ xOffset i ≠ 256#64 ∧ xOffset i ≠ 264#64 ∧
    ∀ j, xOffset i = xOffset j → i = j := by decide

/-- Writing one register of the structure. -/
theorem load_update (mem : Word → Word) (addr : Word) (i : Fin 31) (v : Word) :
    load (Function.update mem (addr + xOffset i) v) addr = (load mem addr).setX i v := by
  obtain ⟨hsp, hpc, hpstate, hinj⟩ := xOffset_ne i
  have hne : ∀ {offset : Word}, xOffset i ≠ offset → addr + offset ≠ addr + xOffset i :=
    fun h heq => h ((BitVec.add_right_inj addr).mp heq).symm
  refine CpuContext.ext (funext fun j => ?_) (Function.update_of_ne (hne hsp) _ _)
    (Function.update_of_ne (hne hpc) _ _) (Function.update_of_ne (hne hpstate) _ _)
  by_cases hj : j = i
  · subst hj
    simp [load, setX]
  · have hoffset : xOffset i ≠ xOffset j := fun heq => hj (hinj j heq).symm
    simp [load, setX, hj, Function.update_of_ne (hne hoffset)]

/-! ## What a switch saves and restores -/

/-- What `switch_to` leaves in the context of the task that gives up the processor: its `x19` to
`x30` and its stack pointer, and as program counter the label behind the switch. -/
def saveCallee (ctx cpu : CpuContext) (label : Word) : CpuContext :=
  { ctx with x := fun i => if 19 ≤ i then cpu.x i else ctx.x i, sp := cpu.sp, pc := label }

/-- The registers with which `switch_to` continues in the context `next`: of the general registers
those from `x19` on are loaded, and `x9` holds the address that is branched to. -/
def switchIn (cpu next : CpuContext) : CpuContext :=
  { cpu with
    x := fun i => if 19 ≤ i then next.x i else if i = 9 then next.pc else cpu.x i
    sp := next.sp
    pc := next.pc }

/-- The registers with which the jump of `schedule` continues in the context `next`. -/
def jumpIn (cpu next : CpuContext) : CpuContext :=
  { cpu with
    x := fun i => if 29 ≤ i then next.x i else cpu.x i
    sp := next.sp
    pc := next.pc }

end CpuContext

/-- The registers a running program sees. -/
def cpuContext (c : Cpu) : CpuContext where
  x := c.x
  sp := c.sp
  pc := c.pc
  pstate := c.pstate

/-! ## `switch_to` -/

/-- `switch_to`, called with the context to save in `x0` and the one to continue in `x1`; `label` is
the address of its last instruction, the `ret` at `1:`. -/
def switchTo (label : Word) : List Instr :=
  [.stp 19 20 (.reg 0) 152,
   .stp 21 22 (.reg 0) 168,
   .stp 23 24 (.reg 0) 184,
   .stp 25 26 (.reg 0) 200,
   .stp 27 28 (.reg 0) 216,
   .stp 29 30 (.reg 0) 232,
   .movFromSp 9,
   .str 9 (.reg 0) 248,
   .adr 9 label,
   .str 9 (.reg 0) 256,
   .ldp 19 20 (.reg 1) 152,
   .ldp 21 22 (.reg 1) 168,
   .ldp 23 24 (.reg 1) 184,
   .ldp 25 26 (.reg 1) 200,
   .ldp 27 28 (.reg 1) 216,
   .ldp 29 30 (.reg 1) 232,
   .ldr 9 (.reg 1) 248,
   .movToSp 9,
   .ldr 9 (.reg 1) 256,
   .br 9]

/-- The register pairs that both halves move, with their offsets in the structure. -/
def calleePairs : List (Fin 31 × Fin 31 × Word) :=
  [(19, 20, 152), (21, 22, 168), (23, 24, 184), (25, 26, 200), (27, 28, 216), (29, 30, 232)]

theorem switchTo_eq (label : Word) : switchTo label =
    Arm.stps (.reg 0) calleePairs ++
      ([.movFromSp 9, .str 9 (.reg 0) 248, .adr 9 label, .str 9 (.reg 0) 256] ++
        (Arm.ldps (.reg 1) calleePairs ++
          [.ldr 9 (.reg 1) 248, .movToSp 9, .ldr 9 (.reg 1) 256, .br 9])) := rfl

theorem calleePairs_offsets : ((Arm.slots calleePairs).map Prod.snd).Nodup := by decide

theorem calleePairs_regs : ((Arm.slots calleePairs).map Prod.fst).Nodup := by decide

/-- The table has the registers from `x19` on, at the offsets the structure gives them. -/
theorem mem_calleePairs (i : Fin 31) :
    19 ≤ i → (i, CpuContext.xOffset i) ∈ Arm.slots calleePairs := by
  revert i
  decide

theorem of_mem_calleePairs :
    ∀ s ∈ Arm.slots calleePairs, 19 ≤ s.1 ∧ s.2 = CpuContext.xOffset s.1 := by
  -- over the list: the words themselves are too many to go through
  have hall : (Arm.slots calleePairs).all
      (fun s => decide (19 ≤ s.1 ∧ s.2 = CpuContext.xOffset s.1)) = true := by decide
  intro s hs
  exact of_decide_eq_true (List.all_eq_true.mp hall s hs)

/-- The double words of the structures at two addresses are all different. -/
def CpuContext.Apart (a b : Word) : Prop :=
  ∀ i j : Fin 34, a + BitVec.ofNat 64 (8 * i.val) ≠ b + BitVec.ofNat 64 (8 * j.val)

theorem CpuContext.load_congr {mem mem' : Word → Word} {addr : Word}
    (h : ∀ k : Fin 34, mem (addr + BitVec.ofNat 64 (8 * k.val)) =
      mem' (addr + BitVec.ofNat 64 (8 * k.val))) :
    load mem addr = load mem' addr :=
  CpuContext.ext (funext fun i => h ⟨i.val, by omega⟩) (h 31) (h 32) (h 33)

/-- The memory after the saving half, in the context and elsewhere. -/
theorem switchTo_saved (label : Word) (c : Cpu) :
    ∃ m, c.run (Arm.stps (.reg 0) calleePairs ++
          [.movFromSp 9, .str 9 (.reg 0) 248, .adr 9 label, .str 9 (.reg 0) 256]) =
        { c with x := Function.update c.x 9 label, mem := m } ∧
      CpuContext.load m (c.x 0) = (CpuContext.load c.mem (c.x 0)).saveCallee (cpuContext c) label ∧
      ∀ a, (∀ k : Fin 34, c.x 0 + BitVec.ofNat 64 (8 * k.val) ≠ a) → m a = c.mem a := by
  obtain ⟨m, hrun, hm, hm'⟩ := Arm.stps_spec c (.reg 0) calleePairs_offsets
  refine ⟨Function.update (Function.update m (c.x 0 + 248) c.sp) (c.x 0 + 256) label, ?_,
    CpuContext.ext (funext fun i => ?_) ?_ ?_ ?_, fun a ha => ?_⟩
  · rw [Arm.Cpu.run_append, hrun]
    simp [Cpu.exec, Cpu.setX, Cpu.store, Cpu.base]
  · obtain ⟨h248, h256, -, hinj⟩ := CpuContext.xOffset_ne i
    have hx : m (c.x 0 + CpuContext.xOffset i) =
        if 19 ≤ i then c.x i else c.mem (c.x 0 + CpuContext.xOffset i) := by
      split
      · exact hm _ (mem_calleePairs i ‹_›)
      · refine hm' _ fun s hs heq => ?_
        obtain ⟨h19, hs⟩ := of_mem_calleePairs s hs
        rw [hs] at heq
        have := hinj s.1 ((BitVec.add_right_inj _).mp heq).symm
        exact absurd (this ▸ h19) ‹_›
    simpa [CpuContext.load, CpuContext.saveCallee, cpuContext, Function.update_apply, h248, h256]
      using hx
  · simp [CpuContext.load, CpuContext.saveCallee, cpuContext, Function.update_apply]
  · simp [CpuContext.load, CpuContext.saveCallee]
  · have hpstate : m (c.x 0 + 264) = c.mem (c.x 0 + 264) := by
      refine hm' _ fun s hs heq => ?_
      rw [(of_mem_calleePairs s hs).2] at heq
      exact (CpuContext.xOffset_ne s.1).2.2.1 ((BitVec.add_right_inj _).mp heq)
    simpa [CpuContext.load, CpuContext.saveCallee, Function.update_apply] using hpstate
  · have hsp : a ≠ c.x 0 + 248 := (ha 31).symm
    have hpc : a ≠ c.x 0 + 256 := (ha 32).symm
    rw [Function.update_of_ne hpc, Function.update_of_ne hsp]
    refine hm' _ fun s hs => ?_
    rw [(of_mem_calleePairs s hs).2]
    exact ha ⟨s.1.val, by omega⟩

/-- **`switch_to`.** The context in `x0` receives what `saveCallee` says, the processor continues in
the context in `x1`, and all other memory stays as it was. -/
theorem run_switchTo (label : Word) (c : Cpu) (hapart : CpuContext.Apart (c.x 0) (c.x 1)) :
    cpuContext (c.run (switchTo label)) =
        (cpuContext c).switchIn (CpuContext.load c.mem (c.x 1)) ∧
      CpuContext.load (c.run (switchTo label)).mem (c.x 0) =
        (CpuContext.load c.mem (c.x 0)).saveCallee (cpuContext c) label ∧
      ∀ a, (∀ k : Fin 34, c.x 0 + BitVec.ofNat 64 (8 * k.val) ≠ a) →
        (c.run (switchTo label)).mem a = c.mem a := by
  obtain ⟨m, hsave, hprev, hframe⟩ := switchTo_saved label c
  have hnext : CpuContext.load m (c.x 1) = CpuContext.load c.mem (c.x 1) :=
    CpuContext.load_congr fun k => hframe _ fun j => hapart j k
  have hbase : ∀ n, Arm.Base.reg 1 = .reg n → n ∉ (Arm.slots calleePairs).map Prod.fst := by
    intro n hn
    cases hn
    decide
  obtain ⟨x, hload, hx, hx'⟩ := Arm.ldps_spec
    { c with x := Function.update c.x 9 label, mem := m } calleePairs_regs hbase
  have hx1 : x 1 = c.x 1 := by
    rw [hx' 1 (by decide)]
    rfl
  rw [switchTo_eq, ← List.append_assoc, Arm.Cpu.run_append, hsave, Arm.Cpu.run_append, hload]
  refine ⟨?_, hprev, hframe⟩
  rw [← hnext]
  refine CpuContext.ext (funext fun i => ?_) ?_ ?_ rfl
  · by_cases h19 : 19 ≤ i
    · have h9 : i ≠ 9 := by
        rintro rfl
        exact absurd h19 (by decide)
      have hxi : x i = m (c.x 1 + CpuContext.xOffset i) := hx _ (mem_calleePairs i h19)
      simp [cpuContext, CpuContext.switchIn, CpuContext.load, Cpu.exec, Cpu.setX, Cpu.base, h19, h9,
        hxi]
    · have hxi : x i = Function.update c.x 9 label i := by
        refine hx' i fun hmem => h19 ?_
        obtain ⟨s, hs, rfl⟩ := List.mem_map.mp hmem
        exact (of_mem_calleePairs s hs).1
      by_cases h9 : i = 9
      · subst h9
        simp [cpuContext, CpuContext.switchIn, CpuContext.load, Cpu.exec, Cpu.setX, Cpu.base, hx1]
      · simp [cpuContext, CpuContext.switchIn, Cpu.exec, Cpu.setX, h19, h9, hxi]
  · simp [cpuContext, CpuContext.switchIn, CpuContext.load, Cpu.exec, Cpu.setX, Cpu.base, hx1]
  · simp [cpuContext, CpuContext.switchIn, CpuContext.load, Cpu.exec, Cpu.setX, Cpu.base, hx1]

/-! ## The jump of `schedule` -/

/-- The jump of `schedule` to the next task when there is no previous one; the operands are in
registers that the compiler chooses. -/
def jumpTo (sp x29 x30 pc : Fin 31) : List Instr :=
  [.movToSp sp, .mov 29 x29, .mov 30 x30, .br pc]

/-- The jump continues in the context whose fields the operands hold, as long as no operand lies in
a register that the jump has overwritten by then. -/
theorem run_jumpTo {sp x29 x30 pc : Fin 31} (c : Cpu) {next : CpuContext}
    (hx30 : x30 ≠ 29) (hpc : pc ≠ 29 ∧ pc ≠ 30) (hsp : c.x sp = next.sp) (h29 : c.x x29 = next.x 29)
    (h30 : c.x x30 = next.x 30) (hnext : c.x pc = next.pc) :
    cpuContext (c.run (jumpTo sp x29 x30 pc)) = (cpuContext c).jumpIn next := by
  have hlast : ∀ i : Fin 31, 29 ≤ i ↔ i = 30 ∨ i = 29 := by decide
  refine CpuContext.ext (funext fun i => ?_) hsp ?_ rfl
  · simp only [cpuContext, CpuContext.jumpIn, jumpTo, Arm.Cpu.run_cons, Arm.Cpu.run_nil, Cpu.exec,
      Cpu.setX, Function.update_apply, if_neg hx30, h29, h30, hlast]
    by_cases hi : i = 30
    · simp [hi]
    · by_cases hi' : i = 29 <;> simp [hi, hi']
  · simp [cpuContext, CpuContext.jumpIn, jumpTo, Cpu.exec, Cpu.setX, hpc, hnext]

end Arcline
