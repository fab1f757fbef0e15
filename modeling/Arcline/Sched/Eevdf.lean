import Arcline.Arch.Context
import Arcline.RbTree.Queue

set_option autoImplicit false

/-! # The run queue

`eevdf.c`: the tasks that are ready to run, in a red-black tree ordered by `vruntime`, with a
pointer to the leftmost node. The 64 nodes of the tree are a static pool with a bitmap of those in
use; the tasks themselves are kept elsewhere and are named by their number.

A function that follows pointers returns `none` where it would follow `NULL` or not end.
-/

namespace Arcline

open RbTree (Rb Color)

/-- `TASK_RUNNING`, `TASK_READY`, `TASK_BLOCKED` and `TASK_ZOMBIE`. -/
inductive TaskState
  | running
  | ready
  | blocked
  | zombie
  deriving DecidableEq, Repr

/-- `struct task`; `next` and `prev` link the task list. -/
structure Task where
  pid : Int
  state : TaskState
  priority : Int
  timeSlice : Word
  vruntime : Word
  context : CpuContext
  kernelStack : Word
  pgd : Word
  next : Option Nat
  prev : Option Nat

/-- `EEVDF_MIN_GRANULARITY`, `EEVDF_TARGET_LATENCY`, `EEVDF_NICE_0_LOAD`, `EEVDF_TIME_SLICE_NS` and
`EEVDF_MAX_TIME_SLICE_NS`. -/
def eevdfMinGranularity : Word := 750000
def eevdfTargetLatency : BitVec 32 := 6000000
def eevdfNice0Load : BitVec 32 := 1024
def eevdfTimeSliceNs : Word := 4000000
def eevdfMaxTimeSliceNs : Word := 100000000

/-- `EEVDF_MIN_NICE` and `EEVDF_MAX_NICE`. -/
def eevdfMinNice : Int := -20
def eevdfMaxNice : Int := 19

/-- `eevdf_nice_to_weight`. -/
def eevdfNiceToWeight : List (BitVec 32) :=
  [88761, 71755, 56483, 46273, 36291, 29154, 23254, 18705, 14949, 11916,
   9548, 7620, 6100, 4904, 3906, 3121, 2501, 1991, 1586, 1277,
   1024, 820, 655, 526, 423, 335, 272, 215, 172, 137,
   110, 87, 70, 56, 45, 36, 29, 23, 18, 15]

/-- `eevdf_nice_to_weight[priority + 20]`. -/
def niceWeight (priority : Int) : BitVec 32 := eevdfNiceToWeight.getD (priority + 20).toNat 0

/-- The bounds `EEVDF_MIN_NICE` and `EEVDF_MAX_NICE` put on a priority. -/
def clampNice (priority : Int) : Int :=
  if priority < eevdfMinNice then eevdfMinNice
  else if priority > eevdfMaxNice then eevdfMaxNice else priority

/-- The run queue with the node pool, and the tasks, which its functions read and write. -/
structure Eevdf where
  task : Nat → Task
  /-- `node_pool`, with the task of each node, and `runqueue.root` -/
  tree : Rb Nat
  /-- `node_bitmap` -/
  nodeBitmap : Nat → Bool
  leftmost : Option Nat
  minVruntime : Word
  loadWeight : BitVec 32
  nrRunning : BitVec 32

/-- The size of `node_pool`. -/
def nodePoolSize : Nat := 64

/-- More steps than any walk over the nodes of the pool can take. -/
def nodeSteps : Nat := nodePoolSize + 1

namespace Eevdf

def setTask (q : Eevdf) (t : Nat) (v : Task) : Eevdf :=
  { q with task := Function.update q.task t v }

@[simp] theorem setTask_task (q : Eevdf) (t : Nat) (v : Task) :
    (q.setTask t v).task = Function.update q.task t v := rfl

/-! ## The node pool -/

/-- `eevdf_init`: everything but the tasks is cleared. -/
def init (task : Nat → Task) : Eevdf where
  task := task
  tree :=
    { left := fun _ => none, right := fun _ => none, parent := fun _ => none,
      color := fun _ => .black, val := fun _ => 0, root := none }
  nodeBitmap _ := false
  leftmost := none
  minVruntime := 0
  loadWeight := 0
  nrRunning := 0

/-- `alloc_node`: the first node that is not in use; the caller marks it. -/
def freeNode? (q : Eevdf) : Option Nat :=
  (List.range nodePoolSize).find? fun i => !q.nodeBitmap i

/-- The first node in use that holds the task, as `eevdf_dequeue` and `eevdf_is_queued` search it. -/
def nodeOf (q : Eevdf) (t : Nat) : Option Nat :=
  (List.range nodePoolSize).find? fun i => q.nodeBitmap i && q.tree.val i == t

/-- `eevdf_is_queued`. -/
def isQueued (q : Eevdf) (t : Nat) : Bool := (q.nodeOf t).isSome

/-! ## Queueing -/

/-- The fields `eevdf_enqueue` writes in a new node before it searches its place. -/
def initNode (s : Rb Nat) (n t : Nat) : Rb Nat :=
  ((((s.setVal n t).setLeft n none).setRight n none).setParent n none).setColor n .red

/-- The part of `eevdf_enqueue` that puts the node `n` into the tree. -/
def insertNode (q : Eevdf) (n t : Nat) : Option Eevdf :=
  let s := initNode q.tree n t
  let goLeft p := decide ((q.task t).vruntime < (q.task (s.val p)).vruntime)
  (Rb.descendFirst goLeft nodeSteps s none true).bind fun d =>
    let leftmost := if d.2 then some n else q.leftmost
    let s := (s.setParent n (d.1.map Prod.fst)).store d.1 (some n)
    (Rb.insertFixup Rb.rotateLeft Rb.rotateRight nodeSteps s n).map fun s =>
      { q with
        tree := s
        leftmost := leftmost
        loadWeight := q.loadWeight + niceWeight (q.task t).priority
        nrRunning := q.nrRunning + 1 }

/-- `eevdf_enqueue`. A task that finds no free node has had its `vruntime` raised, and that is
all. -/
def enqueue (q : Eevdf) (t : Nat) : Option Eevdf :=
  if (q.task t).state ≠ .ready then some q
  else
    let v := (q.task t).vruntime
    let v := if v < q.minVruntime then q.minVruntime else v
    let q := q.setTask t { q.task t with vruntime := v }
    match q.freeNode? with
    | none => some q
    | some n =>
        insertNode { q with nodeBitmap := Function.update q.nodeBitmap n true } n t

/-- `delete_fixup` does not check that the sibling exists before it rotates: a missing one is a
`NULL` that is followed. -/
def missingSibling (_ : Rb Nat) (_ : Nat) : Option (Rb Nat × Bool) := none

/-- The part of `eevdf_dequeue` that takes the node `n` of the task out of the tree and gives it
back. -/
def removeNode (q : Eevdf) (n t : Nat) : Option Eevdf :=
  (if q.leftmost = some n then Rb.nextNode nodeSteps q.tree n else some q.leftmost).bind
    fun leftmost =>
      (Rb.rbDetach Rb.rotateLeft Rb.rotateRight missingSibling nodeSteps q.tree n).map fun s =>
        let weight := niceWeight (q.task t).priority
        { q with
          tree := s
          leftmost := leftmost
          loadWeight := if weight ≤ q.loadWeight then q.loadWeight - weight else 0
          nrRunning := if 0 < q.nrRunning then q.nrRunning - 1 else q.nrRunning
          nodeBitmap := Function.update q.nodeBitmap n false }

/-- `eevdf_dequeue`: nothing happens to a task that is not queued. -/
def dequeue (q : Eevdf) (t : Nat) : Option Eevdf :=
  match q.nodeOf t with
  | none => some q
  | some n => removeNode q n t

/-- `eevdf_pick_next`. -/
def pickNext (q : Eevdf) : Option Nat := q.leftmost.map q.tree.val

/-! ## Time -/

/-- `load_weight`, or the load of one task of nice 0 where it is zero. -/
def load (q : Eevdf) : BitVec 32 := if q.loadWeight ≠ 0 then q.loadWeight else eevdfNice0Load

/-- `eevdf_update_curr`: charge the task for the time since its last charge, which is kept in the
`x23` of its context. -/
def updateCurr (q : Eevdf) (t : Nat) (now : Word) : Eevdf :=
  let task := q.task t
  let delta := now - task.context.x 23
  if delta = 0 then q
  else
    let deltaFair := (delta * eevdfNice0Load.setWidth 64) / q.load.setWidth 64
    let vruntime := task.vruntime + deltaFair
    let q := q.setTask t { task with context := task.context.setX 23 now, vruntime := vruntime }
    { q with
      minVruntime :=
        match q.leftmost with
        | some n => (q.task (q.tree.val n)).vruntime
        | none => vruntime }

/-- The `delta` of `eevdf_update_curr`: the time for which it charges the task. -/
def delta (q : Eevdf) (t : Nat) (now : Word) : Word := now - (q.task t).context.x 23

/-- `eevdf_set_nice`. -/
def setNice (q : Eevdf) (t : Nat) (nice : Int) : Eevdf :=
  q.setTask t { q.task t with priority := clampNice nice }

/-- `eevdf_calc_slice`. The product and the quotient are those of `uint32_t`. -/
def calcSlice (q : Eevdf) (t : Nat) : Word :=
  if q.nrRunning = 0 then eevdfTimeSliceNs
  else
    let slice := ((eevdfTargetLatency * niceWeight (q.task t).priority) / q.load).setWidth 64
    let slice := if slice < eevdfMinGranularity then eevdfMinGranularity else slice
    if slice > eevdfMaxTimeSliceNs then eevdfMaxTimeSliceNs else slice

end Eevdf

end Arcline
