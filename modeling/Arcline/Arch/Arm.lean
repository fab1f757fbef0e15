import Mathlib.Tactic.Common
import Mathlib.Logic.Function.Basic
import Mathlib.Data.Fin.Basic
import Mathlib.Algebra.GroupWithZero.Nat
import Mathlib.Data.List.Nodup

set_option autoImplicit false

/-! # A part of the AArch64 instruction set

The instructions that context-saving assembly is written with: loads and stores of registers and of
register pairs at an immediate offset, moves from and to the stack pointer, the exception registers
of EL1, and the branches that leave a sequence. Memory is read and written a double word at a time
and is indexed by the address of the double word.
-/

namespace Arm

abbrev Word := BitVec 64

/-- The general registers `x0` to `x30`. -/
abbrev Reg := Fin 31

/-- A number is a register by this. -/
instance Reg.neZero : NeZero 31 := ⟨by decide⟩

/-- The processor state that the instructions read and write. -/
structure Cpu where
  x : Reg → Word
  sp : Word
  pc : Word
  pstate : Word
  elr : Word
  spsr : Word
  mem : Word → Word

/-- The base register of a load or store. -/
inductive Base
  | sp
  | reg (n : Reg)
  deriving DecidableEq

inductive SysReg
  | elrEl1
  | spsrEl1
  deriving DecidableEq

/-- The instructions, each with its operands in the order of the assembler. -/
inductive Instr
  /-- `stp xa, xb, [base, #off]` -/
  | stp (a b : Reg) (base : Base) (off : Word)
  /-- `ldp xa, xb, [base, #off]` -/
  | ldp (a b : Reg) (base : Base) (off : Word)
  /-- `str xa, [base, #off]` -/
  | str (a : Reg) (base : Base) (off : Word)
  /-- `ldr xa, [base, #off]` -/
  | ldr (a : Reg) (base : Base) (off : Word)
  /-- `sub sp, sp, #imm` -/
  | subSp (imm : Word)
  /-- `add sp, sp, #imm` -/
  | addSp (imm : Word)
  /-- `add xd, xn, #imm` -/
  | add (d n : Reg) (imm : Word)
  /-- `mov xd, xn` -/
  | mov (d n : Reg)
  /-- `mov xd, sp` -/
  | movFromSp (d : Reg)
  /-- `mov sp, xn` -/
  | movToSp (n : Reg)
  /-- `adr xd, label`, with the address the label has -/
  | adr (d : Reg) (label : Word)
  /-- `mrs xd, s` -/
  | mrs (d : Reg) (s : SysReg)
  /-- `msr s, xn` -/
  | msr (s : SysReg) (n : Reg)
  /-- `bl f`: the state in which `f` returns, as a function of the state in which it is called -/
  | bl (f : Cpu → Cpu)
  /-- `br xn` -/
  | br (n : Reg)
  /-- `ret` -/
  | ret
  /-- `eret` -/
  | eret

namespace Cpu

def setX (c : Cpu) (d : Reg) (v : Word) : Cpu := { c with x := Function.update c.x d v }

def store (c : Cpu) (addr v : Word) : Cpu := { c with mem := Function.update c.mem addr v }

/-- The value of a base register. -/
def base (c : Cpu) : Base → Word
  | .sp => c.sp
  | .reg n => c.x n

def sys (c : Cpu) : SysReg → Word
  | .elrEl1 => c.elr
  | .spsrEl1 => c.spsr

def setSys (c : Cpu) (s : SysReg) (v : Word) : Cpu :=
  match s with
  | .elrEl1 => { c with elr := v }
  | .spsrEl1 => { c with spsr := v }

/-- The effect of one instruction. The program counter is the one a branch leaves: within a
sequence nothing reads it. -/
def exec (c : Cpu) : Instr → Cpu
  | .stp a b base off => (c.store (c.base base + off) (c.x a)).store (c.base base + off + 8) (c.x b)
  | .ldp a b base off =>
      (c.setX a (c.mem (c.base base + off))).setX b (c.mem (c.base base + off + 8))
  | .str a base off => c.store (c.base base + off) (c.x a)
  | .ldr a base off => c.setX a (c.mem (c.base base + off))
  | .subSp imm => { c with sp := c.sp - imm }
  | .addSp imm => { c with sp := c.sp + imm }
  | .add d n imm => c.setX d (c.x n + imm)
  | .mov d n => c.setX d (c.x n)
  | .movFromSp d => c.setX d c.sp
  | .movToSp n => { c with sp := c.x n }
  | .adr d label => c.setX d label
  | .mrs d s => c.setX d (c.sys s)
  | .msr s n => c.setSys s (c.x n)
  | .bl f => f c
  | .br n => { c with pc := c.x n }
  | .ret => { c with pc := c.x 30 }
  | .eret => { c with pc := c.elr, pstate := c.spsr }

/-- Execute a sequence of instructions. -/
def run (c : Cpu) (code : List Instr) : Cpu := code.foldl exec c

@[simp] theorem run_nil (c : Cpu) : c.run [] = c := rfl

@[simp] theorem run_cons (c : Cpu) (i : Instr) (code : List Instr) :
    c.run (i :: code) = (c.exec i).run code := rfl

theorem run_append (c : Cpu) (code code' : List Instr) :
    c.run (code ++ code') = (c.run code).run code' := List.foldl_append

/-- Taking an exception: the hardware records where it interrupts and in which processor state, and
starts the handler at its vector in the processor state of an exception. -/
def takeException (c : Cpu) (vector pstate : Word) : Cpu :=
  { c with elr := c.pc, spsr := c.pstate, pc := vector, pstate := pstate }

end Cpu

/-! ## Writing many places

A sequence of stores writes memory, a sequence of loads the registers: both are a fold of single
updates over a list that gives for each place its value. -/

section Writes

variable {κ ν ι : Type*} [DecidableEq κ]

/-- Update `f` at `key i` to `val i` for each `i` of the list, in its order. -/
def writes (key : ι → κ) (val : ι → ν) (l : List ι) (f : κ → ν) : κ → ν :=
  l.foldl (fun f i => Function.update f (key i) (val i)) f

variable {key : ι → κ} {val : ι → ν} {l : List ι} {f : κ → ν}

theorem writes_of_notMem {k : κ} (h : k ∉ l.map key) : writes key val l f k = f k := by
  induction l generalizing f with
  | nil => rfl
  | cons i l ih =>
      rw [List.map_cons, List.mem_cons, not_or] at h
      show writes key val l (Function.update f (key i) (val i)) k = f k
      rw [ih h.2, Function.update_of_ne h.1]

/-- Where no place is written twice, each holds the value it was given. -/
theorem writes_of_mem (hnd : (l.map key).Nodup) {i : ι} (h : i ∈ l) :
    writes key val l f (key i) = val i := by
  induction l generalizing f with
  | nil => exact absurd h List.not_mem_nil
  | cons j l ih =>
      rw [List.map_cons, List.nodup_cons] at hnd
      show writes key val l (Function.update f (key j) (val j)) (key i) = val i
      rcases List.mem_cons.mp h with rfl | h
      · rw [writes_of_notMem hnd.1, Function.update_self]
      · exact ih hnd.2 h

end Writes

/-! ## Sequences of pair stores and loads -/

/-- The pair stores of a table of register pairs with their offsets, in its order. -/
def stps (base : Base) (l : List (Reg × Reg × Word)) : List Instr :=
  l.map fun p => .stp p.1 p.2.1 base p.2.2

/-- The pair loads of a table, in its order. -/
def ldps (base : Base) (l : List (Reg × Reg × Word)) : List Instr :=
  l.map fun p => .ldp p.1 p.2.1 base p.2.2

/-- Every register of a table with its offset: the second of a pair lies 8 bytes further. -/
def slots (l : List (Reg × Reg × Word)) : List (Reg × Word) :=
  l.flatMap fun p => [(p.1, p.2.2), (p.2.1, p.2.2 + 8)]

/-- What a sequence of pair stores does: every register of the table is written to its slot. -/
theorem run_stps (c : Cpu) (base : Base) (l : List (Reg × Reg × Word)) :
    c.run (stps base l) =
      { c with mem := writes (fun s => c.base base + s.2) (fun s => c.x s.1) (slots l) c.mem } := by
  induction l generalizing c with
  | nil => rfl
  | cons p l ih =>
      have hbase : (c.exec (.stp p.1 p.2.1 base p.2.2)).base base = c.base base := by
        cases base <;> rfl
      show ((c.exec (.stp p.1 p.2.1 base p.2.2)).run (stps base l)) = _
      rw [ih, hbase]
      simp only [Cpu.exec, Cpu.store, slots, List.flatMap_cons, writes, List.foldl_append,
        List.foldl_cons, List.foldl_nil, BitVec.add_assoc]

variable {l : List (Reg × Reg × Word)}

/-- What a sequence of pair loads does, as long as it does not load its own base register: every
register of the table is read from its slot. -/
theorem run_ldps (c : Cpu) {base : Base} (hbase : ∀ n, base = .reg n → n ∉ (slots l).map Prod.fst) :
    c.run (ldps base l) =
      { c with x := writes Prod.fst (fun s => c.mem (c.base base + s.2)) (slots l) c.x } := by
  induction l generalizing c with
  | nil => rfl
  | cons p l ih =>
      have hkeep : (c.exec (.ldp p.1 p.2.1 base p.2.2)).base base = c.base base := by
        cases base with
        | sp => rfl
        | reg n =>
            have hn := hbase n rfl
            simp only [slots, List.flatMap_cons, List.map_append, List.map_cons, List.map_nil,
              List.mem_append, List.mem_cons, List.not_mem_nil, or_false, not_or] at hn
            simp only [Cpu.exec, Cpu.setX, Cpu.base]
            rw [Function.update_of_ne hn.1.2, Function.update_of_ne hn.1.1]
      have hrest : ∀ n, base = .reg n → n ∉ (slots l).map Prod.fst := by
        intro n hn hmem
        refine hbase n hn ?_
        rw [slots, List.flatMap_cons, List.map_append]
        exact List.mem_append_right _ hmem
      show ((c.exec (.ldp p.1 p.2.1 base p.2.2)).run (ldps base l)) = _
      rw [ih _ hrest, hkeep]
      simp only [Cpu.exec, Cpu.setX, slots, List.flatMap_cons, writes, List.foldl_append,
        List.foldl_cons, List.foldl_nil, BitVec.add_assoc]

/-- Where no offset of the table occurs twice, its pair stores leave each register in its slot. They
change nothing else. -/
theorem stps_spec (c : Cpu) (base : Base) (hnd : ((slots l).map Prod.snd).Nodup) :
    ∃ m, c.run (stps base l) = { c with mem := m } ∧
      (∀ s ∈ slots l, m (c.base base + s.2) = c.x s.1) ∧
      ∀ a, (∀ s ∈ slots l, c.base base + s.2 ≠ a) → m a = c.mem a := by
  have haddr : ((slots l).map fun s => c.base base + s.2).Nodup := by
    have hmap : ((slots l).map fun s => c.base base + s.2) =
        ((slots l).map Prod.snd).map (c.base base + ·) := by
      rw [List.map_map]
      rfl
    rw [hmap]
    exact List.Nodup.map (fun a b hab => (BitVec.add_right_inj _).mp hab) hnd
  refine ⟨_, run_stps c base l, fun _ hs => writes_of_mem haddr hs, fun a ha => ?_⟩
  refine writes_of_notMem fun hmem => ?_
  obtain ⟨s, hs, rfl⟩ := List.mem_map.mp hmem
  exact ha s hs rfl

/-- Where no register of the table occurs twice, nor is its base, its pair loads leave in each
register what its slot holds. They change no other register and nothing else. -/
theorem ldps_spec (c : Cpu) {base : Base} (hnd : ((slots l).map Prod.fst).Nodup)
    (hbase : ∀ n, base = .reg n → n ∉ (slots l).map Prod.fst) :
    ∃ x, c.run (ldps base l) = { c with x := x } ∧
      (∀ s ∈ slots l, x s.1 = c.mem (c.base base + s.2)) ∧
      ∀ r, r ∉ (slots l).map Prod.fst → x r = c.x r :=
  ⟨_, run_ldps c hbase, fun _ hs => writes_of_mem hnd hs, fun _ hr => writes_of_notMem hr⟩

end Arm
