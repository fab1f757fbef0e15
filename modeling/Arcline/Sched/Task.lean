import Arcline.Sched.Eevdf

set_option autoImplicit false

/-! # Tasks and scheduling

`pid.c`, `task.c` and `sched.c`: the PID bitmap, the task list, the current task, and the two
scheduling functions. `schedule` gives the processor up through `switch_to`, or, when the current
task is gone, through a jump; `schedule_preempt` runs in an interrupt and exchanges the saved
registers.

The task objects that `task_create` has returned are numbered in their order. Messages that are
only printed are left out.
-/

namespace Arcline

/-- How a function can end other than by returning: in a `panic` with its message and the PID it
names, or `stuck`, where it follows `NULL` or does not end. -/
inductive Fault
  | panic (message : String) (pid : Option Int)
  | stuck
  deriving DecidableEq, Repr

@[simp] theorem Fault.ok_bind {α β : Type} (a : α) (f : α → Except Fault β) :
    ((.ok a : Except Fault α) >>= f) = f a := rfl

theorem Fault.ok_of_toOption {α : Type} {x : Except Fault α} {a : α} (h : x.toOption = some a) :
    x = .ok a := by
  cases x with
  | error e => exact absurd h (by simp [Except.toOption])
  | ok b => exact congrArg Except.ok (Option.some.inj h)

/-- The state of the scheduler: the run queue and the tasks, and the variables of `pid.c` and
`task.c`. -/
structure Sched extends Eevdf where
  /-- the number of task objects in existence -/
  objects : Nat
  /-- `pid_bitmap` -/
  pidBitmap : Nat → Bool
  currentTask : Option Nat
  taskList : Option Nat

/-! ## Process identifiers -/

/-- `MAX_PID`. -/
@[irreducible] def maxPid : Nat := 32768

/-- `pid_init`. -/
def pidInit : Nat → Bool := Function.update (fun _ => false) 0 true

/-- `pid_alloc`: the first free identifier from 1 on; the caller marks it. -/
def pidFree? (bitmap : Nat → Bool) : Option Nat :=
  (List.range' 1 (maxPid - 1)).find? fun i => !bitmap i

/-- `pid_free`. -/
def pidFree (bitmap : Nat → Bool) (pid : Int) : Nat → Bool :=
  if pid ≤ 0 ∨ (maxPid : Int) ≤ pid then bitmap else Function.update bitmap pid.toNat false

namespace Sched

/-- Write a task. -/
def setTask (s : Sched) (t : Nat) (v : Task) : Sched :=
  { s with task := Function.update s.task t v }

section SetTask

variable (s : Sched) (t : Nat) (v : Task)

@[simp] theorem setTask_taskList : (s.setTask t v).taskList = s.taskList := rfl

end SetTask

def setState (s : Sched) (t : Nat) (state : TaskState) : Sched :=
  s.setTask t { s.task t with state := state }

def setContext (s : Sched) (t : Nat) (context : CpuContext) : Sched :=
  s.setTask t { s.task t with context := context }

/-! ## Finding tasks -/

/-- The loop of `task_find_by_pid`, with a bound on its steps. -/
def findByPid (s : Sched) (pid : Int) : Nat → Option Nat → Except Fault (Option Nat)
  | 0, _ => .error .stuck
  | _ + 1, none => .ok none
  | steps + 1, some p =>
      if (s.task p).pid = pid then .ok (some p) else findByPid s pid steps (s.task p).next

/-- `task_find_by_pid`. -/
def taskFindByPid (s : Sched) (pid : Int) : Except Fault (Option Nat) :=
  findByPid s pid (s.objects + 1) s.taskList

/-! ## Scheduling -/

/-- `eevdf_enqueue` on the queue of the scheduler. -/
def enqueue (s : Sched) (t : Nat) : Except Fault Sched :=
  match s.toEevdf.enqueue t with
  | none => .error .stuck
  | some q => .ok { s with toEevdf := q }

/-- `eevdf_dequeue` on the queue of the scheduler. -/
def dequeue (s : Sched) (t : Nat) : Except Fault Sched :=
  match s.toEevdf.dequeue t with
  | none => .error .stuck
  | some q => .ok { s with toEevdf := q }

/-- The checks of the scheduling functions: a task that should be queued, or should not. -/
def check (s : Sched) (t : Nat) (queued : Bool) (message : String) : Except Fault Unit :=
  if s.isQueued t = queued then .ok () else .error (.panic message (some (s.task t).pid))

/-- The outgoing task becomes ready, and is queued unless it is the idle task. -/
def putBack (s : Sched) (prev : Nat) (now : Word) (message : String) : Except Fault Sched := do
  let s := { s with toEevdf := s.toEevdf.updateCurr prev now }
  let s := s.setState prev .ready
  if (s.task prev).pid ≠ 0 then
    let s ← s.enqueue prev
    s.check prev true message
    return s
  else
    return s

/-- The task with PID 0. -/
def findIdle (s : Sched) : Except Fault Nat := do
  match ← s.taskFindByPid 0 with
  | some t => return t
  | none => throw (.panic "No idle task found!" none)

/-- The incoming task is taken out of the queue, unless it is the idle task. -/
def takeOut (s : Sched) (next : Nat) (message : String) : Except Fault Sched :=
  if (s.task next).pid ≠ 0 then do
    let s ← s.dequeue next
    s.check next false message
    return s
  else
    .ok s

/-- The incoming task gets its start time and its time slice, and becomes the current one. -/
def enter (s : Sched) (next : Nat) (now : Word) : Sched :=
  let s := s.setContext next ((s.task next).context.setX 23 now)
  let s := s.setTask next { s.task next with timeSlice := s.calcSlice next }
  { s with currentTask := some next }

/-- The switch to the incoming task; `still` and `running` are the messages of its two checks. -/
def switchIn (s : Sched) (next : Nat) (now : Word) (still running : String) :
    Except Fault Sched := do
  let s ← s.takeOut next still
  let s := s.setState next .running
  s.check next false running
  return s.enter next now

/-- The outgoing task of `schedule` is put back if it was running. -/
def retire (s : Sched) (prev : Nat) (now : Word) : Except Fault Sched :=
  if (s.task prev).state = .running then
    s.putBack prev now "schedule: READY task PID %d not in queue after enqueue"
  else
    .ok s

/-- `schedule` up to the choice of the next task. -/
def scheduleOut (s : Sched) (now : Word) : Except Fault Sched :=
  match s.currentTask with
  | none => .ok s
  | some prev => do
      let s ← s.retire prev now
      if (s.task prev).state = .zombie then
        s.check prev false "schedule: ZOMBIE task PID %d is in queue"
        return s
      else
        return s

/-- The next task of `schedule`: the leftmost of the queue, or the idle task. -/
def pickOrIdle (s : Sched) : Except Fault Nat :=
  match s.pickNext with
  | some t => .ok t
  | none => s.findIdle

/-- `schedule`, with the time `get_ns` returns, and the registers of the processor where it reaches
`switch_to` or the jump; `label` is the address in `switch_to` at which a switched-out task
resumes. The result has the registers with which the processor goes on. -/
def schedule (s : Sched) (now : Word) (cpu : CpuContext) (label : Word) :
    Except Fault (Sched × CpuContext) := do
  let prev := s.currentTask
  let s ← s.scheduleOut now
  let next ← s.pickOrIdle
  if prev = some next then
    -- the same task goes on
    if (s.task next).state = .ready then
      let s := s.setState next .running
      let s ← s.dequeue next
      s.check next false "schedule: RUNNING task PID %d still in queue after dequeue"
      return (s, cpu)
    else
      return (s, cpu)
  else
    let s ← s.switchIn next now "schedule: task PID %d still in queue after dequeue"
      "schedule: RUNNING task PID %d is in queue"
    match prev with
    | some prev =>
        let s := s.setContext prev ((s.task prev).context.saveCallee cpu label)
        return (s, cpu.switchIn (s.task next).context)
    | none => return (s, cpu.jumpIn (s.task next).context)

/-- `schedule_preempt` up to the choice of the next task. -/
def preemptOut (s : Sched) (prev : Nat) (regs : CpuContext) (now : Word) : Except Fault Sched :=
  match (s.task prev).state with
  | .running =>
      (s.setContext prev regs).putBack prev now
        "schedule_preempt: READY task PID %d not in queue after enqueue"
  | .zombie => do
      s.check prev false "schedule_preempt: ZOMBIE task PID %d is in queue"
      return s
  | _ => .ok s

/-- The next task of `schedule_preempt`: where the queue is empty, the previous one goes on if it
can. -/
def pickOrStay (s : Sched) (prev : Nat) : Except Fault Nat :=
  match s.pickNext with
  | some t => .ok t
  | none => if (s.task prev).state = .ready then .ok prev else s.findIdle

/-- `schedule_preempt`, with the times its two calls of `get_ns` return; the result has the
registers it leaves in the frame. -/
def schedulePreempt (s : Sched) (regs : CpuContext) (now now' : Word) :
    Except Fault (Sched × CpuContext) :=
  match s.currentTask with
  | none => .ok (s, regs)
  | some prev => do
      let s ← s.preemptOut prev regs now
      let next ← s.pickOrStay prev
      if next = prev then
        if (s.task prev).state = .ready then
          let s ← s.dequeue prev
          s.check prev false "schedule_preempt: task PID %d still in queue after dequeue"
          let s := s.setState prev .running
          s.check prev false "schedule_preempt: RUNNING task PID %d is in queue"
          return (s, regs)
        else
          return (s, regs)
      else
        let s ← s.switchIn next now' "schedule_preempt: task PID %d still in queue after dequeue"
          "schedule_preempt: RUNNING task PID %d is in queue"
        return (s, (s.task next).context)

/-! ## Creating tasks -/

/-- `task_args`. -/
structure TaskArgs where
  argc : BitVec 32
  argv : Word
  envp : Word

/-- What `task_create` gets from outside: whether `vmalloc` has memory for the task object, the
kernel stack it returns, the translation table of `mmu_get_ttbr1`, and the addresses of
`task_entry_wrapper` and `task_exit`. -/
structure Outside where
  object : Bool
  stack : Option Word
  ttbr1 : Word
  taskEntryWrapper : Word
  taskExit : Word

/-- `KERNEL_STACK_SIZE`. -/
def kernelStackSize : Word := 16384

/-- The context of a new task. -/
def entryContext (entry stack : Word) (args : Option TaskArgs) (env : Outside) : CpuContext :=
  let ctx : CpuContext := { CpuContext.zero with
    sp := (stack + kernelStackSize) &&& ~~~15
    pc := env.taskEntryWrapper }
  let ctx := ctx.setX 19 entry
  let ctx := ctx.setX 20 (args.elim 0 fun a => a.argc.signExtend 64)
  let ctx := ctx.setX 21 (args.elim 0 TaskArgs.argv)
  let ctx := ctx.setX 22 (args.elim 0 TaskArgs.envp)
  let ctx := ctx.setX 23 0
  let ctx := ctx.setX 29 0
  let ctx := ctx.setX 30 env.taskExit
  { ctx with pstate := 0x345 }

/-- The fields of a new task. -/
def newTask (pid : Nat) (entry : Word) (priority : Int) (stack : Word) (args : Option TaskArgs)
    (env : Outside) : Task where
  pid := pid
  state := .ready
  priority := clampNice priority
  timeSlice := eevdfTimeSliceNs
  vruntime := 0
  context := if entry = 0 then .zero else entryContext entry stack args env
  kernelStack := stack
  pgd := env.ttbr1
  next := none
  prev := none

/-- Put a task in front of the task list. -/
def linkTask (s : Sched) (t : Nat) : Sched :=
  let s := s.setTask t { s.task t with next := s.taskList }
  let s :=
    match s.taskList with
    | none => s
    | some h => s.setTask h { s.task h with prev := some t }
  { s with taskList := some t }

/-- The queueing of a new task, if it has an entry point. -/
def enqueueNew (s : Sched) (t : Nat) (entry : Word) : Except Fault Sched :=
  if entry = 0 then .ok s else s.enqueue t

/-- `task_create`, with the task it returns. A call that fails gives the object back, so that
nothing is left of what it wrote there. -/
def taskCreate (s : Sched) (entry : Word) (priority : Int) (args : Option TaskArgs)
    (env : Outside) : Except Fault (Option Nat × Sched) :=
  if env.object = false then .ok (none, s)
  else
    match pidFree? s.pidBitmap with
    | none => .ok (none, s)
    | some pid =>
        let bitmap := Function.update s.pidBitmap pid true
        match env.stack with
        | none => .ok (none, { s with pidBitmap := pidFree bitmap pid })
        | some stack => do
            let t := s.objects
            let s := { s with pidBitmap := bitmap }
            let s := s.setTask t (newTask pid entry priority stack args env)
            let s ← s.enqueueNew t entry
            let s := s.linkTask t
            return (some t, { s with objects := t + 1 })

/-- The state in which `task_init` creates the idle task: whatever the memory of the tasks is,
there are none. -/
def empty (memory : Nat → Task) : Sched where
  toEevdf := Eevdf.init memory
  objects := 0
  pidBitmap := pidInit
  currentTask := none
  taskList := none

/-- `task_init`; `entry` is the address of `idle_task_entry`. -/
def taskInit (memory : Nat → Task) (entry : Word) (env : Outside) : Except Fault Sched := do
  let (idle, s) ← (empty memory).taskCreate entry 0 none env
  match idle with
  | none => throw (.panic "Failed to create idle task" none)
  | some idle =>
      let s := s.setTask idle { s.task idle with pid := 0 }
      let s ← s.dequeue idle
      let s := s.setState idle .running
      return { s with currentTask := some idle }

/-! ## Ending tasks -/

/-- Take a task out of the task list. -/
def unlinkTask (s : Sched) (t : Nat) : Sched :=
  let s :=
    match (s.task t).prev with
    | none => s
    | some p => s.setTask p { s.task p with next := (s.task t).next }
  let s :=
    match (s.task t).next with
    | none => s
    | some n => s.setTask n { s.task n with prev := (s.task t).prev }
  if s.taskList = some t then { s with taskList := (s.task t).next } else s

/-- The task becomes a zombie, and its identifier free. -/
def endTask (s : Sched) (t : Nat) : Sched :=
  let s := s.setState t .zombie
  { s with pidBitmap := pidFree s.pidBitmap (s.task t).pid }

/-- `task_exit`, with the registers of the processor where it goes on. -/
def taskExit (s : Sched) (now : Word) (cpu : CpuContext) (label : Word) :
    Except Fault (Sched × CpuContext) :=
  match s.currentTask with
  | none => .ok (s, cpu)
  | some t =>
      { s.endTask t with currentTask := none }.schedule now cpu label

/-- The dequeuing of a task that is to be killed, if it is ready. -/
def dequeueReady (s : Sched) (t : Nat) : Except Fault Sched :=
  if (s.task t).state = .ready then s.dequeue t else .ok s

/-- `task_kill`, with the value it returns; that of a call that does not return does not matter. -/
def taskKill (s : Sched) (task : Option Nat) (now : Word) (cpu : CpuContext) (label : Word) :
    Except Fault (Int × Sched × CpuContext) :=
  match task with
  | none => .ok (-1, s, cpu)
  | some t =>
      if (s.task t).pid = 0 then .ok (-1, s, cpu)
      else if (s.task t).state = .zombie then .ok (0, s, cpu)
      else do
        let s ← s.dequeueReady t
        let s := (s.endTask t).unlinkTask t
        if s.currentTask = some t then
          let (s, cpu) ← { s with currentTask := none }.schedule now cpu label
          return (0, s, cpu)
        else
          return (0, s, cpu)

/-- `sys_kill`. -/
def sysKill (s : Sched) (pid : Int) (now : Word) (cpu : CpuContext) (label : Word) :
    Except Fault (Int × Sched × CpuContext) := do
  match ← s.taskFindByPid pid with
  | none => return (-1, s, cpu)
  | some t => s.taskKill (some t) now cpu label

end Sched

end Arcline
