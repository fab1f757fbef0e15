import Arcline.Arch.Irq
import Arcline.Kernel.Printk
import Arcline.Sched.Pids

set_option autoImplicit false

/-! # System calls

An `svc` instruction gets to `svc_handler`, which saves the registers of the caller in a frame, lets
`handle_svc` put the result of `do_syscall` in the frame, and restores the registers from it; if the
current task is a zombie by then it first lets `schedule_preempt` replace the frame. Interrupts are masked
throughout, so a system call is one step of a run.
-/

namespace Arcline

open Arm (Cpu)

/-! ## `do_syscall` and `handle_svc` -/

/-- What system calls work on: the scheduler, the log, and the buffer of `printk`. -/
structure Kern where
  sched : Sched
  log : Klog
  buf : PrintkBuf

/-- What a system call gets from outside: the time, the processor's registers where `schedule` is called
and the address of the label in `switch_to`; the bytes from an address to the end of the memory that may
be read; and what the upper half of `x0` holds when a function has returned an `int`. -/
structure SysEnv where
  now : Word
  cpu : CpuContext
  label : Word
  bytesAt : Word → List Byte
  upper : BitVec 32

/-- A call returns a value, or its caller has ended and the processor goes on in another task. -/
inductive SysEnd (α : Type)
  | returned (value : α)
  | gone (cpu : CpuContext)

/-- Go on with the value where the call returns. -/
def SysEnd.map {α β : Type} (f : α → β) : SysEnd α → SysEnd β
  | .returned value => .returned (f value)
  | .gone cpu => .gone cpu

/-- The entries of `syscall_table`. -/
inductive Syscall
  | kill
  | exit
  | write
deriving DecidableEq

/-- The number of entries in `syscall_table`, of which `SYS_KILL` is the last. -/
def syscallCount : Nat := 130

/-- `syscall_table`: `SYS_WRITE`, `SYS_EXIT` and `SYS_KILL`, and else NULL. -/
def syscallTable : Nat → Option Syscall
  | 1 => some .write
  | 60 => some .exit
  | 129 => some .kill
  | _ => none

namespace Kern

/-- Take over what a call of `printk` leaves. -/
def printed (k : Kern) : Option PrintkResult → Except Fault (BitVec 32 × Kern)
  | none => .error .stuck
  | some r => .ok (r.ret, { k with log := r.log, buf := r.buf })

/-- `printk` with a literal format. -/
def printk (k : Kern) (fmt : String) (args : List VaArg) : Except Fault (BitVec 32 × Kern) :=
  k.printed (vfprintk k.log k.buf stdoutFd (some (fmt.toList.map ascii ++ [0])) args)

/-- `do_syscall` with its first three arguments; no entry of the table takes more. The `int` that an entry
returns is taken for 64 bits. -/
def doSyscall (k : Kern) (num arg0 arg1 arg2 : Word) (env : SysEnv) :
    Except Fault (SysEnd Word × Kern) :=
  if syscallCount ≤ num.toNat then do
    let (_, k) ← k.printk "Invalid syscall number: %d\n" [.int (num.setWidth 32)]
    return (.returned (-1), k)
  else
    match syscallTable num.toNat with
    | none => do
        let (_, k) ← k.printk "Unimplemented syscall: %d\n" [.int (num.setWidth 32)]
        return (.returned (-1), k)
    | some .write => do
        let buf := if arg1 = 0 then none else some (env.bytesAt arg1)
        let (r, k) ← k.printed (sysWrite k.log k.buf (arg0.setWidth 32) buf (arg2.setWidth 32))
        return (.returned (env.upper ++ r), k)
    | some .exit =>
        match k.sched.currentTask with
        | none => .ok (.returned (env.upper ++ 0#32), k)
        | some _ => do
            let (s, cpu) ← k.sched.taskExit env.now env.cpu env.label
            return (.gone cpu, { k with sched := s })
    | some .kill => do
        let (r, s, cpu) ← k.sched.sysKill (arg0.setWidth 32).toInt env.now env.cpu env.label
        -- `schedule` does not come back to a caller that has killed itself
        let ends := if s.currentTask = k.sched.currentTask then
          .returned (env.upper ++ BitVec.ofInt 32 r) else .gone cpu
        return (ends, { k with sched := s })

/-- `handle_svc`, with the frame it leaves. -/
def handleSvc (k : Kern) (ctx : CpuContext) (env : SysEnv) :
    Except Fault (SysEnd CpuContext × Kern) := do
  let (ends, k) ← k.doSyscall (ctx.x 8) (ctx.x 0) (ctx.x 1) (ctx.x 2) env
  return (ends.map fun ret => ctx.setX 0 ret, k)

end Kern

/-- `should_reschedule`. -/
def shouldReschedule (s : Sched) : BitVec 32 :=
  match s.currentTask with
  | none => 0
  | some t => if (s.task t).state = .zombie then 1 else 0

/-! ## `svc_handler` -/

/-- The compiled functions that `svc_handler` calls, each from the state of the processor at the call to
the state at the return. -/
structure SvcCode where
  handleSvc : Cpu → Cpu
  shouldReschedule : Cpu → Cpu
  schedulePreempt : Cpu → Cpu

/-- `svc_handler`. The code before and after the calls is that of `irq_handler_spx`. -/
def svcHandler (code : SvcCode) (c : Cpu) : Cpu :=
  let c := code.shouldReschedule (code.handleSvc (c.run irqSave))
  let c := if c.x 0 = 0 then c else code.schedulePreempt (c.exec (.movFromSp 0))
  c.run irqRestore

/-- `sync_handler_spx`, with the syndrome of the exception. There is no state after an exception that is
not an `svc`: `handle_sync_exception` panics. -/
def syncHandlerSpx (code : SvcCode) (esr : Word) (c : Cpu) : Option Cpu :=
  let c := c.setX 9 (esr >>> 26)
  if c.x 9 = 0x15 then some (svcHandler code c) else none

/-- The frame in which `handle_svc` finds the caller: its registers, but the class of the exception in
`x9`. -/
def svcFrame (c : Cpu) : CpuContext := (cpuContext c).setX 9 0x15

/-- The state in which `handle_svc` is called by a caller in the state `c`. -/
def svcCall (c : Cpu) (vector pstate : Word) : Cpu :=
  ((c.takeException vector pstate).setX 9 0x15).run irqSave

/-- The compiled code does at a call what `handle_svc` and `should_reschedule` are to do: it leaves the
frame at the stack pointer, and the flag in `x0`. -/
structure SvcCode.Leaves (code : SvcCode) (call : Cpu) (frame : CpuContext) (flag : BitVec 32) : Prop where
  handle_sp : (code.handleSvc call).sp = call.sp
  handle_frame : CpuContext.load (code.handleSvc call).mem call.sp = frame
  check_sp : (code.shouldReschedule (code.handleSvc call)).sp = (code.handleSvc call).sp
  check_frame : CpuContext.load (code.shouldReschedule (code.handleSvc call)).mem call.sp =
    CpuContext.load (code.handleSvc call).mem call.sp
  check_flag : (code.shouldReschedule (code.handleSvc call)).x 0 = flag.setWidth 64

theorem svcCall_frame (c : Cpu) (vector pstate : Word) :
    CpuContext.load (svcCall c vector pstate).mem (svcCall c vector pstate).sp = svcFrame c := by
  obtain ⟨hsp, -, hframe⟩ := run_irqSave ((c.takeException vector pstate).setX 9 0x15)
  rw [svcCall, hsp, hframe]
  rfl

/-- Without a task to switch away from, the caller goes on with the frame that `handle_svc` left. -/
theorem syncHandlerSpx_returns {code : SvcCode} {c : Cpu} {vector pstate esr : Word} {frame : CpuContext}
    (hesr : esr >>> 26 = 0x15) (hcode : code.Leaves (svcCall c vector pstate) frame 0) :
    (syncHandlerSpx code esr (c.takeException vector pstate)).map cpuContext = some frame.irqReturn := by
  have hx0 : (code.shouldReschedule (code.handleSvc (svcCall c vector pstate))).x 0 = 0 :=
    hcode.check_flag
  have hentry : (c.takeException vector pstate).setX 9 (esr >>> 26) =
      (c.takeException vector pstate).setX 9 0x15 := by rw [hesr]
  have hclass : ((c.takeException vector pstate).setX 9 0x15).x 9 = 0x15 := by
    simp [Cpu.setX]
  unfold syncHandlerSpx
  dsimp only
  rw [hentry, if_pos hclass, Option.map_some, svcHandler]
  rw [← svcCall, if_pos hx0, run_irqRestore, hcode.check_sp, hcode.handle_sp, hcode.check_frame,
    hcode.handle_frame]

/-! ## Runs with system calls -/

namespace Kern

variable {k k' : Kern} {ctx : CpuContext} {env : SysEnv} {l L : List Nat} {p : Nat}

/-- A call of the scheduler, or an `svc` of the current task with these registers. -/
inductive Act
  | sched (op : Sched.Op)
  | svc (ctx : CpuContext) (env : SysEnv)

def step (k : Kern) : Act → Option Kern
  | .sched op => (k.sched.next op).map fun s => { k with sched := s }
  | .svc ctx env => (k.handleSvc ctx env).toOption.map Prod.snd

def Act.Valid (k : Kern) : Act → Prop
  | .sched op => op.Valid k.sched
  | .svc _ _ => True

/-- What `do_syscall` can do to the scheduler, and how it then ends: nothing, or one call that either leaves
the current task as it is or ends it. -/
inductive Svc (k k' : Kern) : SysEnd Word → Prop
  | answered {ret : Word} : k'.sched = k.sched → Svc k k' (.returned ret)
  | spared {ret : Word} (op : Sched.Op) {out : Option CpuContext} :
      op.Valid k.sched → k.sched.step op = .ok (k'.sched, out) →
      k'.sched.currentTask = k.sched.currentTask → Svc k k' (.returned ret)
  | ended {cpu : CpuContext} (op : Sched.Op) {out : Option CpuContext} {p : Nat} :
      op.Valid k.sched → k.sched.step op = .ok (k'.sched, out) →
      k.sched.currentTask = some p → op.Ends k.sched p → Svc k k' (.gone cpu)

theorem printed_sched {r : Option PrintkResult} {v : BitVec 32} (h : k.printed r = .ok (v, k')) :
    k'.sched = k.sched := by
  cases r with
  | none => exact absurd h (by simp [printed])
  | some r =>
      obtain ⟨-, rfl⟩ := Prod.mk.inj (Except.ok.inj h)
      rfl

/-- A computation that has a result got to it through a result of its first part. -/
theorem exists_of_bind {α β : Type} {x : Except Fault α} {f : α → Except Fault β} {b : β}
    (h : x >>= f = .ok b) : ∃ a, x = .ok a ∧ f a = .ok b := by
  cases x with
  | error e => exact absurd h (by simp [bind, Except.bind])
  | ok a => exact ⟨a, rfl, h⟩

variable {ends : SysEnd Word} {s s₁ : Sched} {cpu : CpuContext}

theorem svc_of_printed {r : Option PrintkResult} {f : BitVec 32 → Word}
    (h : (do let (v, k) ← k.printed r return (.returned (f v), k) : Except Fault _) = .ok (ends, k')) :
    k.Svc k' ends := by
  obtain ⟨q, hq, h⟩ := exists_of_bind h
  obtain ⟨rfl, rfl⟩ := Prod.mk.inj (Except.ok.inj h)
  exact .answered (printed_sched hq)

/-- `sys_kill` is a call of `task_kill`, or finds no task. -/
theorem sysKill_cases {s' : Sched} (h : s.Steady l L p) {pid : Int} {now label : Word}
    {cpu' : CpuContext} {r : Int} (hkill : s.sysKill pid now cpu label = .ok (r, s', cpu')) :
    s' = s ∨ ∃ t, t < s.objects ∧ s.step (.kill (some t) now cpu label) = .ok (s', some cpu') := by
  rw [Sched.sysKill, h.base.taskFindByPid, Fault.ok_bind] at hkill
  cases hfind : L.find? fun t => (s.task t).pid = pid with
  | none =>
      rw [hfind] at hkill
      exact .inl (Prod.mk.inj (Prod.mk.inj (Except.ok.inj hkill)).2).1.symm
  | some t =>
      rw [hfind] at hkill
      have hmem : t ∈ L := List.mem_of_find?_eq_some hfind
      refine .inr ⟨t, h.base.listed t hmem, ?_⟩
      have hkill' : s.taskKill (some t) now cpu label = .ok (r, s', cpu') := hkill
      rw [Sched.step, hkill']
      rfl

/-- Killing no task or another one leaves the current task. -/
theorem eq_of_kill {s' : Sched} (h : s.Steady l L p) {t : Nat} {now label : Word}
    {out : Option CpuContext} (hs : Sched.Steps s l L p (.kill (some t) now cpu label) s' out)
    (hcur : s'.currentTask ≠ s.currentTask) : t = p := by
  cases hs with
  | spared => exact absurd rfl hcur
  | killed _ _ _ _ _ _ hsame => exact absurd (hsame.trans h.current.symm) hcur
  | killedCurrent => rfl

theorem svc_of_doSyscall (h : k.sched.Steady l L p) {num arg0 arg1 arg2 : Word}
    (hsys : k.doSyscall num arg0 arg1 arg2 env = .ok (ends, k')) : k.Svc k' ends := by
  rw [doSyscall] at hsys
  split at hsys
  · exact svc_of_printed (f := fun _ => -1) hsys
  cases htable : syscallTable num.toNat with
  | none =>
      rw [htable] at hsys
      exact svc_of_printed (f := fun _ => -1) hsys
  | some call =>
      rw [htable] at hsys
      cases call with
      | write => exact svc_of_printed hsys
      | exit =>
          dsimp only at hsys
          rw [h.current] at hsys
          obtain ⟨⟨s, cpu⟩, hexit, hsys⟩ := exists_of_bind hsys
          obtain ⟨rfl, rfl⟩ := Prod.mk.inj (Except.ok.inj hsys)
          have hstep : k.sched.step (.exit env.now env.cpu env.label) = .ok (s, some cpu) := by
            rw [Sched.step, hexit]
            rfl
          exact .ended (.exit env.now env.cpu env.label) trivial hstep h.current h.current
      | kill =>
          obtain ⟨⟨r, s, cpu⟩, hkill, hsys⟩ := exists_of_bind hsys
          obtain ⟨rfl, rfl⟩ := Prod.mk.inj (Except.ok.inj hsys)
          rcases sysKill_cases h hkill with rfl | ⟨t, ht, hstep⟩
          · rw [if_pos rfl]
            exact .answered rfl
          · let op : Sched.Op := .kill (some t) env.now env.cpu env.label
            have hvalid : op.Valid k.sched := ht
            by_cases hcur : s.currentTask = k.sched.currentTask
            · rw [if_pos hcur]
              exact .spared op hvalid hstep hcur
            · rw [if_neg hcur]
              have htp : t = p := eq_of_kill h (h.steps hvalid hstep) hcur
              exact .ended op hvalid hstep h.current (congrArg some htp)

theorem exists_of_handleSvc {ends : SysEnd CpuContext} (h : k.handleSvc ctx env = .ok (ends, k')) :
    ∃ e, k.doSyscall (ctx.x 8) (ctx.x 0) (ctx.x 1) (ctx.x 2) env = .ok (e, k') ∧
      ends = e.map fun ret => ctx.setX 0 ret := by
  obtain ⟨⟨e, k₁⟩, he, h⟩ := exists_of_bind h
  obtain ⟨rfl, rfl⟩ := Prod.mk.inj (Except.ok.inj h)
  exact ⟨e, he, rfl⟩

/-- To the scheduler a system call is nothing, or one of its own calls. -/
theorem Svc.reach (h : k.Svc k' ends) :
    Machine.Reach Sched.next (fun s op => op.Valid s) k.sched k'.sched := by
  cases h with
  | answered hsame =>
      rw [hsame]
      exact .start
  | spared op hvalid hs _ => exact .next op .start hvalid (Sched.next_eq_some.mpr ⟨_, hs⟩)
  | ended op hvalid hs _ _ => exact .next op .start hvalid (Sched.next_eq_some.mpr ⟨_, hs⟩)

theorem steady_of_reach {s₂ : Sched} (hsteady : ∃ l L p, s₁.Steady l L p)
    (h : Machine.Reach Sched.next (fun s op => op.Valid s) s₁ s₂) : ∃ l L p, s₂.Steady l L p :=
  (Sched.reach_invariant (P := fun _ => True) (fun _ _ hop => hop) hsteady trivial
    (fun _ _ _ h => h) h).1

theorem objects_le_of_reach {s₂ : Sched} (hsteady : ∃ l L p, s₁.Steady l L p)
    (h : Machine.Reach Sched.next (fun s op => op.Valid s) s₁ s₂) : s₁.objects ≤ s₂.objects :=
  (Sched.reach_invariant (P := fun s => s₁.objects ≤ s.objects) (fun _ _ hop => hop) hsteady
    (Nat.le_refl _) (fun _ _ hsteps hle => hle.trans hsteps.objects_le) h).2

/-- **The scheduler in a run with system calls** goes through a run of its own. -/
theorem reach_sched (hsteady : ∃ l L p, k.sched.Steady l L p)
    (h : Machine.Reach step (fun k a => a.Valid k) k k') :
    Machine.Reach Sched.next (fun s op => op.Valid s) k.sched k'.sched := by
  induction h with
  | start => exact .start
  | @next k₁ k₂ a _ hvalid hs ih =>
      refine ih.trans ?_
      cases a with
      | sched op =>
          obtain ⟨s, hnext, rfl⟩ := Option.map_eq_some_iff.mp hs
          exact .next op .start hvalid hnext
      | svc ctx env =>
          obtain ⟨⟨ends, k⟩, hsvc, rfl⟩ := Option.map_eq_some_iff.mp hs
          obtain ⟨l, L, p, hsteady₁⟩ := steady_of_reach hsteady ih
          obtain ⟨e, he, -⟩ := exists_of_handleSvc (Fault.ok_of_toOption hsvc)
          exact (svc_of_doSyscall hsteady₁ he).reach

/-- The current task of a steady state is not a zombie. -/
theorem shouldReschedule_eq_zero (h : s.Steady l L p) : shouldReschedule s = 0 := by
  have hrunning : (s.task p).state = .running := (h.running p h.lt).mpr rfl
  rw [shouldReschedule, h.current]
  simp [hrunning]

/-- A caller that a system call does not return to is a zombie. -/
theorem Svc.zombie (hsteady : k.sched.Steady l L p) (hpos : 0 < p) (h : k.Svc k' (.gone cpu)) :
    (k'.sched.task p).state = .zombie := by
  cases h with
  | @ended _ op out q hvalid hs hcur hends =>
      obtain rfl : p = q := Option.some.inj (hsteady.current.symm.trans hcur)
      exact ((hsteady.steps hvalid hs).zombie_iff hsteady hpos hsteady.lt).mpr (.inr hends)

/-- **System calls.** In every run, whatever the number and the arguments of a system call: if
`handle_svc` returns, the caller is still the current task, the flag that `svc_handler` tests is not set,
and the caller goes on after the `svc` with its registers, apart from the result in `x0` and its stack
pointer in `x9`. If `handle_svc` does not return, the caller, unless it is the idle task, is a zombie and
is never the current task again. -/
theorem svc_resumes_caller {memory : Nat → Task} {idle : Word} {outside : Sched.Outside} {k₀ : Kern}
    (h₀ : Sched.taskInit memory idle outside = .ok k₀.sched)
    (h : Machine.Reach step (fun k a => a.Valid k) k₀ k) (hcur : k.sched.currentTask = some p) (c : Cpu)
    {ends : SysEnd CpuContext} (hsvc : k.handleSvc (svcFrame c) env = .ok (ends, k')) :
    (∀ frame, ends = .returned frame → k'.sched.currentTask = some p ∧ shouldReschedule k'.sched = 0 ∧
      ∀ (code : SvcCode) (vector pstate esr : Word), esr >>> 26 = 0x15 →
        code.Leaves (svcCall c vector pstate) frame (shouldReschedule k'.sched) →
        (syncHandlerSpx code esr (c.takeException vector pstate)).map cpuContext =
          some (((cpuContext c).setX 0 (frame.x 0)).setX 9 c.sp)) ∧
    (∀ cpu, ends = .gone cpu → 0 < p →
      ∀ k'', Machine.Reach step (fun k a => a.Valid k) k' k'' →
        (k''.sched.task p).state = .zombie ∧ k''.sched.currentTask ≠ some p) := by
  have hstart : ∃ l L p, k₀.sched.Steady l L p := ⟨_, _, _, (Sched.taskInit_started h₀).steady⟩
  obtain ⟨l, L, p', hsteady⟩ := steady_of_reach hstart (reach_sched hstart h)
  obtain rfl : p' = p := Option.some.inj (hsteady.current.symm.trans hcur)
  obtain ⟨e, he, rfl⟩ := exists_of_handleSvc hsvc
  have hdoes := svc_of_doSyscall hsteady he
  obtain ⟨l', L', q, hsteady'⟩ := steady_of_reach ⟨l, L, p', hsteady⟩ hdoes.reach
  refine ⟨fun frame hframe => ?_, fun cpu hgone hpos k'' hlater => ?_⟩
  · cases e with
    | gone cpu => exact absurd hframe (by simp [SysEnd.map])
    | returned ret =>
        obtain rfl : (svcFrame c).setX 0 ret = frame := SysEnd.returned.inj hframe
        have hflag := shouldReschedule_eq_zero hsteady'
        refine ⟨?_, hflag, fun code vector pstate esr hesr hcode => ?_⟩
        · cases hdoes with
          | answered hsame => rw [hsame, hcur]
          | spared _ _ _ hsame => rw [hsame, hcur]
        · rw [hflag] at hcode
          rw [syncHandlerSpx_returns hesr hcode]
          -- the frame differs from the caller's registers in `x9`, which is overwritten on the way out
          refine congrArg some (CpuContext.ext (funext fun i => ?_) rfl rfl rfl)
          by_cases h9 : i = 9
          · subst h9
            simp [CpuContext.irqReturn, CpuContext.setX, svcFrame, cpuContext]
          · simp [CpuContext.irqReturn, CpuContext.setX, svcFrame, Function.update_apply, h9]
  · cases e with
    | returned ret => exact absurd hgone (by simp [SysEnd.map])
    | gone cpu' =>
        have hz := hdoes.zombie hsteady hpos
        have hlt : p' < k'.sched.objects :=
          Nat.lt_of_lt_of_le hsteady.lt (objects_le_of_reach ⟨l, L, p', hsteady⟩ hdoes.reach)
        have hrun := reach_sched ⟨l', L', q, hsteady'⟩ hlater
        obtain ⟨hlt'', hz''⟩ := Sched.reach_zombie ⟨l', L', q, hsteady'⟩ hpos hlt hz hrun
        refine ⟨hz'', fun hcur'' => ?_⟩
        obtain ⟨l'', L'', r, hsteady''⟩ := steady_of_reach ⟨l', L', q, hsteady'⟩ hrun
        rw [hsteady''.current] at hcur''
        rw [(hsteady''.running p' hlt'').mpr hcur''] at hz''
        exact absurd hz'' (by simp)

/-- Runs of the scheduler alone are runs. -/
theorem reach_of_sched (h : Machine.Reach Sched.next (fun s op => op.Valid s) k.sched s₁) :
    Machine.Reach step (fun k a => a.Valid k) k { k with sched := s₁ } := by
  induction h with
  | start => exact .start
  | @next s s' op _ hvalid hs ih =>
      refine .next (.sched op) ih hvalid ?_
      rw [step, hs]
      rfl

/-- Code for a call that returns a value: it stores it in the first slot of the frame. -/
def storing (ret : Word) : SvcCode where
  handleSvc c := c.store c.sp ret
  shouldReschedule c := c.setX 0 0
  schedulePreempt := id

theorem load_update (m : Word → Word) (a v : Word) :
    CpuContext.load (Function.update m a v) a = (CpuContext.load m a).setX 0 v := by
  have hoffset : ∀ i : Fin 31, i ≠ 0 → CpuContext.xOffset i ≠ 0#64 := by decide
  refine CpuContext.ext (funext fun i => ?_) ?_ ?_ ?_
  · by_cases h0 : i = 0
    · subst h0
      simp [CpuContext.load, CpuContext.setX, CpuContext.xOffset]
    · simp [CpuContext.load, CpuContext.setX, h0, hoffset i h0]
  all_goals simp [CpuContext.load, CpuContext.setX]

theorem storing_leaves (ret : Word) (call : Cpu) :
    (storing ret).Leaves call ((CpuContext.load call.mem call.sp).setX 0 ret) 0 where
  handle_sp := rfl
  handle_frame := load_update ..
  check_sp := rfl
  check_frame := rfl
  check_flag := by simp [storing, Cpu.setX]

/-- A task about to kill the one with the identifier 3. -/
def killingCpu : Cpu := (sampleCpu.setX 8 129).setX 0 3

/-- Kernel data around a scheduler. -/
def around (s : Sched) : Kern := ⟨s, .static, ⟨fun _ => 0, 0, 0⟩⟩

def sampleEnv : SysEnv := ⟨7, .zero, 0x5000, fun _ => [], 0⟩

/-- The result of a call that returns, and the state it leaves. -/
def answer (k : Kern) (ctx : CpuContext) (env : SysEnv) : Option (CpuContext × Kern) :=
  match k.handleSvc ctx env with
  | .ok (.returned frame, k') => some (frame, k')
  | _ => none

theorem of_answer_eq_some {frame : CpuContext} (h : k.answer ctx env = some (frame, k')) :
    k.handleSvc ctx env = .ok (.returned frame, k') := by
  unfold answer at h
  split at h
  · rename_i heq
    obtain ⟨rfl, rfl⟩ := Prod.mk.inj (Option.some.inj h)
    exact heq
  · exact absurd h (by simp)

/-- The task 1 is the current one, and its call kills the task 2 and returns 0. -/
def killsSecond (s : Sched) : Bool :=
  decide (s.currentTask = some 1) &&
    ((around s).answer (svcFrame killingCpu) sampleEnv).any fun (frame, k') =>
      decide (frame.x 0 = 0 ∧ (k'.sched.task 2).state = .zombie)

/-- The first of two tasks kills the second one and goes on, with 0 in `x0`. -/
theorem svc_resumes_caller_kill :
    ∃ (k k' : Kern) (frame : CpuContext), k.sched.currentTask = some 1 ∧
      k.handleSvc (svcFrame killingCpu) sampleEnv = .ok (.returned frame, k') ∧
      (k'.sched.task 2).state = .zombie ∧ k'.sched.currentTask = some 1 ∧
      shouldReschedule k'.sched = 0 ∧
      (syncHandlerSpx (storing 0) 0x56000000 (killingCpu.takeException 0x200 0x3c5)).map cpuContext =
        some (((cpuContext killingCpu).setX 0 0).setX 9 0x40000000) := by
  obtain ⟨s₀, s, h₀, hreach, hs⟩ := Sched.exists_sampleRun Sched.next id Sched.Op.valid_of_check
    [.create 0x2030 0 none Sched.sampleOutside, .create 0x2040 0 none Sched.sampleOutside,
      .schedule 5 .zero 0x5000]
    killsSecond (by decide +kernel)
  rw [killsSecond, Bool.and_eq_true, Option.any_eq_true] at hs
  obtain ⟨hcur, ⟨frame, k'⟩, hanswer, hr⟩ := hs
  obtain ⟨hx0, hzombie⟩ := of_decide_eq_true hr
  have hsvc := of_answer_eq_some hanswer
  have hreach' : Machine.Reach step (fun k a => a.Valid k) (around s₀) (around s) := reach_of_sched hreach
  have h₀' : Sched.taskInit (fun _ => Sched.blankTask) 0x1000 Sched.sampleOutside =
      .ok (around s₀).sched := h₀
  have hresumes := svc_resumes_caller h₀' hreach' (of_decide_eq_true hcur) killingCpu hsvc
  obtain ⟨hcur', hflag, hback⟩ := hresumes.1 frame rfl
  refine ⟨around s, k', frame, of_decide_eq_true hcur, hsvc, hzombie, hcur', hflag, ?_⟩
  -- what the code stores is the result
  obtain ⟨e, -, he⟩ := exists_of_handleSvc hsvc
  have hframe : frame = (svcFrame killingCpu).setX 0 0 := by
    cases e with
    | gone cpu => exact absurd he (by simp [SysEnd.map])
    | returned ret =>
        obtain rfl := SysEnd.returned.inj he
        have hret : ret = 0 := by simpa [CpuContext.setX] using hx0
        rw [hret]
  have hleaves := storing_leaves 0 (svcCall killingCpu 0x200 0x3c5)
  rw [svcCall_frame, ← hframe, ← hflag] at hleaves
  have hdone := hback (storing 0) 0x200 0x3c5 0x56000000 (by decide) hleaves
  rw [hx0] at hdone
  exact hdone

end Kern

end Arcline
