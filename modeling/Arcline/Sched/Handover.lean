import Arcline.Sched.RunQueue
import Arcline.Sched.Task
import Arcline.Chain

set_option autoImplicit false

/-! # Scheduling points

`s.Base l L` is what holds of the scheduler throughout, with the run queue `l` and the task list
`L`. Between operations the running task is the current one; within them, from the point where the
outgoing task has been put back, no task is running. `Handover` says what a scheduling point has
done when it is over: it is the one description of `schedule` and `schedule_preempt` that the
properties of runs are derived from.
-/

namespace Arcline

namespace Sched

/-- The tasks, the run queue and the task list fit together; which task runs is left open. The idle
task is the first one created, and the task list has the newest task first. -/
structure Base (s : Sched) (l L : List Nat) : Prop where
  queue : s.Queue l
  list : Linked.Doubly (fun t => (s.task t).next) (fun t => (s.task t).prev) none s.taskList L
  newest : L.Pairwise (· > ·)
  listed : ∀ t ∈ L, t < s.objects
  idlePid : (s.task 0).pid = 0
  idle : 0 ∈ L
  pids : ∀ t, 0 < t → t < s.objects → 0 < (s.task t).pid
  queued : ∀ t ∈ l, 0 < t ∧ t < s.objects ∧ (s.task t).state = .ready
  live : ∀ t, t < s.objects → (s.task t).state ≠ .zombie → t ∈ L

/-- The running task is `c`, or there is none. -/
def RunningIs (s : Sched) (c : Option Nat) : Prop :=
  ∀ t, t < s.objects → ((s.task t).state = .running ↔ c = some t)

/-- No task is lost: those that are ready are queued, the idle task apart. -/
def Admitted (s : Sched) (l : List Nat) : Prop :=
  ∀ t, 0 < t → t < s.objects → (s.task t).state = .ready → t ∈ l

/-- What scheduling leaves alone: which tasks there are, their identifiers, and the task list. -/
structure Keeps (s s' : Sched) : Prop where
  objects : s'.objects = s.objects
  pidBitmap : s'.pidBitmap = s.pidBitmap
  taskList : s'.taskList = s.taskList
  pid : ∀ u, (s'.task u).pid = (s.task u).pid
  next : ∀ u, (s'.task u).next = (s.task u).next
  prev : ∀ u, (s'.task u).prev = (s.task u).prev

/-- From `s` to `s'` the task `t` has got the state `st`, the `vruntime` `v` and the context `ctx`;
the other tasks have not changed. -/
structure Moved (s s' : Sched) (t : Nat) (st : TaskState) (v : Word) (ctx : CpuContext) : Prop where
  keeps : Keeps s s'
  other : ∀ u, u ≠ t → s'.task u = s.task u
  state : (s'.task t).state = st
  vruntime : (s'.task t).vruntime = v
  context : (s'.task t).context = ctx

variable {s s' s'' : Sched} {l l' L : List Nat} {t : Nat} {st : TaskState} {v : Word}
  {ctx : CpuContext}

theorem Keeps.trans (h : Keeps s s') (h' : Keeps s' s'') : Keeps s s'' where
  objects := h'.objects.trans h.objects
  pidBitmap := h'.pidBitmap.trans h.pidBitmap
  taskList := h'.taskList.trans h.taskList
  pid u := (h'.pid u).trans (h.pid u)
  next u := (h'.next u).trans (h.next u)
  prev u := (h'.prev u).trans (h.prev u)

/-- Writing the state, the times or the context of a task. -/
theorem moved_of_update (s s' : Sched) (t : Nat) (task : Task)
    (htask : s'.task = Function.update s.task t task)
    (hpid : task.pid = (s.task t).pid) (hnext : task.next = (s.task t).next)
    (hprev : task.prev = (s.task t).prev) (hobjects : s'.objects = s.objects)
    (hbitmap : s'.pidBitmap = s.pidBitmap) (hlist : s'.taskList = s.taskList) :
    Moved s s' t task.state task.vruntime task.context := by
  have hself : s'.task t = task := by rw [htask, Function.update_self]
  have hother : ∀ u, u ≠ t → s'.task u = s.task u := by
    intro u hu
    rw [htask, Function.update_of_ne hu]
  have hfield {β : Type} (f : Task → β) (hf : f task = f (s.task t)) (u : Nat) :
      f (s'.task u) = f (s.task u) := by
    by_cases hu : u = t
    · rw [hu, hself, hf]
    · rw [hother u hu]
  exact ⟨⟨hobjects, hbitmap, hlist, hfield Task.pid hpid, hfield Task.next hnext,
    hfield Task.prev hprev⟩, hother, by rw [hself], by rw [hself], by rw [hself]⟩

/-- A change of state goes with a change of the queue. -/
theorem Base.moved (h : s.Base l L) (hm : Moved s s' t st v ctx) (hq : s'.Queue l')
    (hother : ∀ u ∈ l', u ≠ t → u ∈ l) (ht : t ∈ l' → st = .ready ∧ 0 < t)
    (hlt : t < s.objects) (hlive : st ≠ .zombie → t ∈ L) : s'.Base l' L where
  queue := hq
  list := by
    rw [hm.keeps.taskList]
    exact h.list.congr (fun u _ => hm.keeps.next u) fun u _ => hm.keeps.prev u
  newest := h.newest
  listed := hm.keeps.objects ▸ h.listed
  idlePid := (hm.keeps.pid 0).trans h.idlePid
  idle := h.idle
  pids := by
    intro u hu hlt
    rw [hm.keeps.pid u]
    exact h.pids u hu (hm.keeps.objects ▸ hlt)
  queued := by
    intro u hu
    rw [hm.keeps.objects]
    by_cases hut : u = t
    · subst hut
      exact ⟨(ht hu).2, hlt, hm.state.trans (ht hu).1⟩
    · rw [hm.other u hut]
      exact h.queued u (hother u hu hut)
  live := by
    intro u hlt hu
    by_cases hut : u = t
    · subst hut
      exact hlive (hm.state ▸ hu)
    · rw [hm.other u hut] at hu
      exact h.live u (hm.keeps.objects ▸ hlt) hu

theorem RunningIs.stop (h : s.RunningIs (some t)) (hm : Moved s s' t st v ctx)
    (hst : st ≠ .running) : s'.RunningIs none := by
  intro u hlt
  have hne : (s'.task u).state ≠ .running := by
    by_cases hut : u = t
    · rw [hut, hm.state]
      exact hst
    · rw [hm.other u hut]
      intro hrun
      exact hut (Option.some.inj ((h u (hm.keeps.objects ▸ hlt)).mp hrun)).symm
  simp [hne]

theorem RunningIs.start (h : s.RunningIs none) (hm : Moved s s' t .running v ctx) :
    s'.RunningIs (some t) := by
  intro u hlt
  by_cases hut : u = t
  · simp [hut, hm.state]
  · rw [hm.other u hut, h u (hm.keeps.objects ▸ hlt)]
    simp [Ne.symm hut]

theorem RunningIs.same {c : Option Nat} (h : s.RunningIs c) (hm : Moved s s' t st v ctx)
    (hst : (s.task t).state = st) : s'.RunningIs c := by
  intro u hlt
  rw [← h u (hm.keeps.objects ▸ hlt)]
  by_cases hut : u = t
  · rw [hut, hm.state, hst]
  · rw [hm.other u hut]

theorem Base.nodup (h : s.Base l L) : L.Nodup := h.newest.imp fun hab => Nat.ne_of_gt hab

theorem Base.pos (h : s.Base l L) : 0 < s.objects := h.listed 0 h.idle

/-- The idle task is the one with PID 0. -/
theorem Base.pid_eq_zero (h : s.Base l L) (hlt : t < s.objects) :
    (s.task t).pid = 0 ↔ t = 0 := by
  constructor
  · intro hpid
    by_contra hne
    have := h.pids t (Nat.pos_of_ne_zero hne) hlt
    omega
  · rintro rfl
    exact h.idlePid

theorem Base.notMem_of_state (h : s.Base l L) (hst : (s.task t).state ≠ .ready) : t ∉ l :=
  fun ht => hst (h.queued t ht).2.2

/-! ## The parts of a scheduling point -/

theorem enqueue_ok (h : s.Queue l) (hready : (s.task t).state = .ready) (ht : t ∉ l)
    (hfree : l.length < nodePoolSize) :
    ∃ q : Eevdf, s.enqueue t = .ok { s with toEevdf := q } ∧
      q.Queue (Eevdf.place (fun b => (s.task b).vruntime) l t (s.toEevdf.entryVruntime t)) ∧
      q.task = Function.update s.task t (s.toEevdf.entryTask t) ∧
      q.minVruntime = s.minVruntime := by
  obtain ⟨q, hq, hqueue, htask, hmin, -⟩ := h.enqueue hready ht hfree
  refine ⟨q, ?_, hqueue, htask, hmin⟩
  rw [enqueue, hq]

theorem enqueue_full (h : s.Queue l) (hready : (s.task t).state = .ready)
    (hfull : l.length = nodePoolSize) :
    s.enqueue t = .ok (s.setTask t (s.toEevdf.entryTask t)) := by
  rw [enqueue, h.members.enqueue_full hready hfull]
  rfl

theorem dequeue_ok (h : s.Queue l) (t : Nat) :
    ∃ q : Eevdf, s.dequeue t = .ok { s with toEevdf := q } ∧ q.Queue (l.erase t) ∧
      q.task = s.task ∧ q.minVruntime = s.minVruntime := by
  by_cases ht : t ∈ l
  · obtain ⟨q, hq, hqueue, htask, hmin, -⟩ := h.dequeue ht
    refine ⟨q, ?_, hqueue, htask, hmin⟩
    rw [dequeue, hq]
  · refine ⟨s.toEevdf, ?_, ?_, rfl, rfl⟩
    · rw [dequeue, h.members.dequeue_of_notMem ht]
    · rw [List.erase_of_not_mem ht]
      exact h

/-- A check passes where the task is queued or not as it should be. -/
theorem check_eq (h : s.Queue l) (t : Nat) (queued : Bool) (message : String) :
    s.check t queued message =
      if (t ∈ l ↔ queued = true) then .ok () else .error (.panic message (some (s.task t).pid)) := by
  have hiff : s.isQueued t = queued ↔ (t ∈ l ↔ queued = true) := by
    rw [Bool.eq_iff_iff, h.isQueued]
  rw [check]
  by_cases hq : s.isQueued t = queued
  · rw [if_pos hq, if_pos (hiff.mp hq)]
  · rw [if_neg hq, if_neg (mt hiff.mpr hq)]

/-- The `vruntime` with which a task that is charged at the time `now` goes back to the queue. -/
def returnVruntime (s : Sched) (t : Nat) (now : Word) : Word :=
  if (s.task t).pid ≠ 0 then (s.toEevdf.updateCurr t now).entryVruntime t
  else s.toEevdf.chargedVruntime t now

/-- The queue when it is back. -/
def returnQueue (s : Sched) (l : List Nat) (t : Nat) (now : Word) : List Nat :=
  if (s.task t).pid ≠ 0 then
    Eevdf.place (fun b => (s.task b).vruntime) l t (s.returnVruntime t now)
  else l

/-- The outgoing task charged and ready, before it is queued. -/
def charged (s : Sched) (t : Nat) (now : Word) : Sched :=
  { s with toEevdf := s.toEevdf.updateCurr t now }.setState t .ready

theorem charged_task (s : Sched) (t : Nat) (now : Word) :
    (s.charged t now).task = Function.update s.task t
      { s.task t with
        state := .ready
        context := (s.task t).context.setX 23 now
        vruntime := s.toEevdf.chargedVruntime t now } := by
  show Function.update (s.toEevdf.updateCurr t now).task t
    { (s.toEevdf.updateCurr t now).task t with state := .ready } = _
  rw [Eevdf.updateCurr_task, Function.update_idem, Function.update_self]

theorem charged_queue (h : s.Queue l) (ht : t ∉ l) (now : Word) : (s.charged t now).Queue l :=
  (h.updateCurr ht now).setTask fun hmem => absurd hmem ht

theorem putBack_eq (s : Sched) (t : Nat) (now : Word) (message : String) :
    s.putBack t now message =
      if ((s.charged t now).task t).pid ≠ 0 then do
        let s' ← (s.charged t now).enqueue t
        s'.check t true message
        pure s'
      else .ok (s.charged t now) := rfl

theorem charged_moved (s : Sched) (t : Nat) (now : Word) :
    Moved s (s.charged t now) t .ready (s.toEevdf.chargedVruntime t now)
      ((s.task t).context.setX 23 now) :=
  moved_of_update _ _ _ _ (charged_task s t now) rfl rfl rfl rfl rfl rfl

/-- The outgoing task ends up ready, and queued unless it is the idle task. -/
theorem putBack_ok (h : s.Queue l) (ht : t ∉ l) (now : Word) (message : String)
    (hroom : (s.task t).pid ≠ 0 → l.length < nodePoolSize) :
    ∃ s', s.putBack t now message = .ok s' ∧ s'.Queue (s.returnQueue l t now) ∧
      Moved s s' t .ready (s.returnVruntime t now) ((s.task t).context.setX 23 now) ∧
      s'.currentTask = s.currentTask ∧
      s'.minVruntime = (s.toEevdf.updateCurr t now).minVruntime := by
  have hm := charged_moved s t now
  have hq := charged_queue h ht now
  rw [putBack_eq, hm.keeps.pid t]
  by_cases hpid : (s.task t).pid ≠ 0
  · obtain ⟨q, hq', hqueue, htask, hmin⟩ := enqueue_ok hq hm.state ht (hroom hpid)
    have hv : (s.charged t now).toEevdf.entryVruntime t = s.returnVruntime t now := by
      rw [returnVruntime, if_pos hpid]
      show (if ((s.charged t now).task t).vruntime < (s.toEevdf.updateCurr t now).minVruntime
        then (s.toEevdf.updateCurr t now).minVruntime
        else ((s.charged t now).task t).vruntime) = _
      rw [hm.vruntime, Eevdf.entryVruntime, Eevdf.updateCurr_task, Function.update_self]
    have hplace : q.Queue (s.returnQueue l t now) := by
      rw [returnQueue, if_pos hpid, ← hv]
      refine Eevdf.place_congr (fun b hb => ?_) t _ ▸ hqueue
      rw [hm.other b fun e => ht (e ▸ hb)]
    refine ⟨{ s.charged t now with toEevdf := q }, ?_, hplace, ?_, rfl, hmin⟩
    · rw [if_pos hpid, hq', Fault.ok_bind, check_eq hqueue, if_pos]
      · rfl
      · simp [(Eevdf.place_perm _ _ _ _).mem_iff]
    · have htask' : q.task = Function.update s.task t ((s.charged t now).toEevdf.entryTask t) := by
        rw [htask, charged_task, Function.update_idem]
      have hmoved : Moved s { s.charged t now with toEevdf := q } t
          ((s.charged t now).toEevdf.entryTask t).state _ _ :=
        moved_of_update _ _ _ _ htask' (hm.keeps.pid t) (hm.keeps.next t) (hm.keeps.prev t) rfl rfl
          rfl
      rw [← hv, ← hm.context, ← hm.state]
      exact hmoved
  · refine ⟨s.charged t now, if_neg hpid, ?_, ?_, rfl, rfl⟩
    · rw [returnQueue, if_neg hpid]
      exact hq
    · rw [returnVruntime, if_neg hpid]
      exact hm

/-- Without a free node the outgoing task cannot be put back. -/
theorem putBack_full (h : s.Queue l) (ht : t ∉ l) (now : Word) (message : String)
    (hpid : (s.task t).pid ≠ 0) (hfull : l.length = nodePoolSize) :
    s.putBack t now message = .error (.panic message (some (s.task t).pid)) := by
  have hm := charged_moved s t now
  have hq := charged_queue h ht now
  have hq' : ((s.charged t now).setTask t ((s.charged t now).toEevdf.entryTask t)).Queue l :=
    hq.setTask fun hmem => absurd hmem ht
  rw [putBack_eq, hm.keeps.pid t, if_pos hpid, enqueue_full hq hm.state hfull, Fault.ok_bind,
    check_eq hq', if_neg (by simp [ht])]
  have hpid' : (((s.charged t now).setTask t ((s.charged t now).toEevdf.entryTask t)).task t).pid =
      (s.task t).pid := by
    show (Function.update (s.charged t now).task t _ t).pid = _
    rw [Function.update_self]
    exact hm.keeps.pid t
  rw [hpid']
  rfl

theorem enter_task (s : Sched) (n : Nat) (now : Word) :
    ∃ slice, (s.enter n now).task = Function.update s.task n
      { s.task n with context := (s.task n).context.setX 23 now, timeSlice := slice } := by
  refine ⟨(s.setContext n ((s.task n).context.setX 23 now)).calcSlice n, ?_⟩
  show Function.update (Function.update s.task n _) n
    { Function.update s.task n _ n with timeSlice := _ } = _
  rw [Function.update_idem, Function.update_self]

theorem takeOut_ok {n : Nat} (h : s.Queue l) (hidle : (s.task n).pid = 0 → n ∉ l)
    (message : String) :
    ∃ q : Eevdf, s.takeOut n message = .ok { s with toEevdf := q } ∧ q.Queue (l.erase n) ∧
      q.task = s.task ∧ q.minVruntime = s.minVruntime := by
  rw [takeOut]
  by_cases hpid : (s.task n).pid ≠ 0
  · obtain ⟨q, hq, hqueue, htask, hmin⟩ := dequeue_ok h n
    refine ⟨q, ?_, hqueue, htask, hmin⟩
    rw [if_pos hpid, hq, Fault.ok_bind, check_eq hqueue, if_pos (by simp [h.nodup.not_mem_erase])]
    rfl
  · refine ⟨s.toEevdf, if_neg hpid, ?_, rfl, rfl⟩
    rw [List.erase_of_not_mem (hidle (not_not.mp hpid))]
    exact h

/-- The incoming task leaves the queue and becomes the running and current one. -/
theorem switchIn_ok {n : Nat} (h : s.Queue l) (hidle : (s.task n).pid = 0 → n ∉ l) (now : Word)
    (still running : String) :
    ∃ s', s.switchIn n now still running = .ok s' ∧ s'.Queue (l.erase n) ∧
      Moved s s' n .running (s.task n).vruntime ((s.task n).context.setX 23 now) ∧
      s'.currentTask = some n ∧ s'.minVruntime = s.minVruntime := by
  obtain ⟨q, hout, hqueue, htask, hmin⟩ := takeOut_ok h hidle still
  have hrunning : ({ s with toEevdf := q }.setState n .running).Queue (l.erase n) :=
    hqueue.setTask fun hmem => absurd hmem h.nodup.not_mem_erase
  refine ⟨({ s with toEevdf := q }.setState n .running).enter n now, ?_, ?_, ?_, rfl, hmin⟩
  · rw [switchIn, hout, Fault.ok_bind]
    dsimp only
    rw [check_eq hrunning, if_pos (by simp [h.nodup.not_mem_erase])]
    rfl
  · refine Eevdf.Queue.setTask (Eevdf.Queue.setTask hrunning ?_) ?_
    · exact fun hmem => absurd hmem h.nodup.not_mem_erase
    · exact fun hmem => absurd hmem h.nodup.not_mem_erase
  · obtain ⟨slice, hslice⟩ := enter_task ({ s with toEevdf := q }.setState n .running) n now
    have htask' : (({ s with toEevdf := q }.setState n .running).enter n now).task =
        Function.update s.task n
          { s.task n with
            state := .running
            context := (s.task n).context.setX 23 now
            timeSlice := slice } := by
      have hstate : ({ s with toEevdf := q }.setState n .running).task =
          Function.update s.task n { s.task n with state := .running } := by
        show Function.update q.task n { q.task n with state := .running } = _
        rw [htask]
      rw [hslice, hstate, Function.update_idem, Function.update_self]
    exact moved_of_update _ _ _ _ htask' rfl rfl rfl rfl rfl rfl

/-- `schedule` lets the same task go on. -/
theorem stay_ok (h : s.Queue l) (t : Nat) (message : String) (cpu : CpuContext) :
    ∃ s', (do
        let s ← (s.setState t .running).dequeue t
        s.check t false message
        pure (s, cpu)) = .ok (s', cpu) ∧ s'.Queue (l.erase t) ∧
      Moved s s' t .running (s.task t).vruntime (s.task t).context ∧
      s'.currentTask = s.currentTask ∧ s'.minVruntime = s.minVruntime := by
  have hq : (s.setState t .running).Queue l := by
    refine h.setTask fun _ => rfl
  obtain ⟨q, hout, hqueue, htask, hmin⟩ := dequeue_ok hq t
  refine ⟨{ s.setState t .running with toEevdf := q }, ?_, hqueue, ?_, rfl, hmin⟩
  · rw [hout, Fault.ok_bind, check_eq hqueue, if_pos (by simp [h.nodup.not_mem_erase])]
    rfl
  · have htask' : q.task = Function.update s.task t { s.task t with state := .running } := htask
    exact moved_of_update s { s.setState t .running with toEevdf := q } t
      { s.task t with state := .running } htask' rfl rfl rfl rfl rfl rfl

/-- `schedule_preempt` lets the same task go on. -/
theorem stayPreempt_ok (h : s.Queue l) (t : Nat) (still running : String) (cpu : CpuContext) :
    ∃ s', (do
        let s ← s.dequeue t
        s.check t false still
        let s := s.setState t .running
        s.check t false running
        pure (s, cpu)) = .ok (s', cpu) ∧ s'.Queue (l.erase t) ∧
      Moved s s' t .running (s.task t).vruntime (s.task t).context ∧
      s'.currentTask = s.currentTask ∧ s'.minVruntime = s.minVruntime := by
  obtain ⟨q, hout, hqueue, htask, hmin⟩ := dequeue_ok h t
  have hrunning : ({ s with toEevdf := q }.setState t .running).Queue (l.erase t) :=
    hqueue.setTask fun hmem => absurd hmem h.nodup.not_mem_erase
  refine ⟨{ s with toEevdf := q }.setState t .running, ?_, hrunning, ?_, rfl, hmin⟩
  · rw [hout, Fault.ok_bind, check_eq hqueue, if_pos (by simp [h.nodup.not_mem_erase]),
      Fault.ok_bind]
    dsimp only
    rw [check_eq hrunning, if_pos (by simp [h.nodup.not_mem_erase])]
    rfl
  · have htask' : ({ s with toEevdf := q }.setState t .running).task =
        Function.update s.task t { s.task t with state := .running } := by
      show Function.update q.task t { q.task t with state := .running } = _
      rw [htask]
    exact moved_of_update _ _ _ _ htask' rfl rfl rfl rfl rfl rfl

/-! ## The choice of the next task -/

/-- `task_find_by_pid` returns the first task of the list with the identifier. -/
theorem findByPid_eq {h : Option Nat} {steps : Nat}
    (hc : Linked.Chain (fun t => (s.task t).next) h L) (pid : Int) (hsteps : L.length < steps) :
    s.findByPid pid steps h = .ok (L.find? fun t => (s.task t).pid = pid) := by
  induction L generalizing h steps with
  | nil =>
      obtain rfl := hc
      rcases steps with _ | steps
      · omega
      rfl
  | cons x L ih =>
      obtain ⟨rfl, hc⟩ := hc
      rcases steps with _ | steps
      · omega
      rw [findByPid, List.find?_cons]
      by_cases hx : (s.task x).pid = pid
      · simp [hx]
      · simp only [hx, if_false, decide_false]
        exact ih hc (by simpa using hsteps)

theorem Base.length_le (h : s.Base l L) : L.length ≤ s.objects := by
  have hsub : L ⊆ List.range s.objects := fun t ht => List.mem_range.mpr (h.listed t ht)
  have := (h.nodup.subperm hsub).length_le
  rwa [List.length_range] at this

theorem Base.taskFindByPid (h : s.Base l L) (pid : Int) :
    s.taskFindByPid pid = .ok (L.find? fun t => (s.task t).pid = pid) :=
  findByPid_eq h.list.chain pid (Nat.lt_succ_of_le h.length_le)

theorem Base.findIdle (h : s.Base l L) : s.findIdle = .ok 0 := by
  have hfind : L.find? (fun t => (s.task t).pid = 0) = some 0 := by
    have hsome : (L.find? fun t => (s.task t).pid = 0).isSome :=
      List.find?_isSome.mpr ⟨0, h.idle, by simpa using h.idlePid⟩
    obtain ⟨t, ht⟩ := Option.isSome_iff_exists.mp hsome
    have hpid : (s.task t).pid = 0 := by simpa using List.find?_some ht
    rw [ht, (h.pid_eq_zero (h.listed t (List.mem_of_find?_eq_some ht))).mp hpid]
  rw [Sched.findIdle, h.taskFindByPid, hfind]
  rfl

/-- The first task of the queue, or the idle task. -/
def nextOf (l : List Nat) : Nat := l.head?.getD 0

theorem Base.pickOrIdle (h : s.Base l L) : s.pickOrIdle = .ok (nextOf l) := by
  rw [Sched.pickOrIdle, h.queue.pickNext, nextOf]
  cases l.head? with
  | none => exact h.findIdle
  | some t => rfl

/-- Where the queue is empty and the outgoing task is ready it is the idle task. -/
theorem Base.pickOrStay {prev : Nat} (h : s.Base l L) (hready : (s.task prev).state = .ready)
    (hprev : prev = 0 ∨ prev ∈ l) : s.pickOrStay prev = .ok (nextOf l) := by
  rw [Sched.pickOrStay, h.queue.pickNext, nextOf]
  cases l with
  | nil =>
      obtain rfl : prev = 0 := by simpa using hprev
      show (if (s.task 0).state = .ready then .ok 0 else s.findIdle) = .ok 0
      rw [if_pos hready]
  | cons t l => rfl

theorem nextOf_cases (l : List Nat) : nextOf l ∈ l ∨ l = [] ∧ nextOf l = 0 := by
  cases l with
  | nil => exact .inr ⟨rfl, rfl⟩
  | cons t l => exact .inl List.mem_cons_self

theorem Base.nextOf_lt (h : s.Base l L) : nextOf l < s.objects := by
  rcases nextOf_cases l with hmem | ⟨-, h0⟩
  · exact (h.queued _ hmem).2.1
  · rw [h0]
    exact h.pos

/-! ## A scheduling point as a whole -/

/-- The scheduling point that led from `s` to `s'` has handed the processor from `p` to `n`, with
the queue `l` left; `v` is the `vruntime` of `p` and `m` the least one of the queue now, `out` the
context `p` was left with and `inn` the one in which `n` goes on. Where `p` and `n` are the same task,
it goes on. -/
structure Handover (s s' : Sched) (l L : List Nat) (p n : Nat) (v m : Word)
    (out inn : CpuContext) : Prop where
  base : s'.Base l L
  keeps : Keeps s s'
  current : s'.currentTask = some n
  running : s'.RunningIs (some n)
  other : ∀ u, u ≠ p → u ≠ n → s'.task u = s.task u
  left : p ≠ n → (s'.task p).state = .ready ∧ (s'.task p).context = out
  vruntime : (s'.task p).vruntime = v
  minVruntime : s'.minVruntime = m
  /-- the `vruntime` of the incoming task is left alone -/
  incoming : p ≠ n → (s'.task n).vruntime = (s.task n).vruntime
  entered : (s'.task n).context = inn

/-- Between operations: the running task is the current one. -/
structure Steady (s : Sched) (l L : List Nat) (p : Nat) : Prop where
  base : s.Base l L
  current : s.currentTask = some p
  lt : p < s.objects
  running : s.RunningIs (some p)

section Handover

variable {s₁ s₂ : Sched} {l₁ : List Nat} {p n : Nat} {out inn : CpuContext} {m w : Word}

theorem Steady.mem_of_running (h : s.Steady l L p) : (s.task p).state = .running ∧ p ∈ L ∧ p ∉ l := by
  have hstate := (h.running p h.lt).mpr rfl
  exact ⟨hstate, h.base.live p h.lt (by simp [hstate]), h.base.notMem_of_state (by simp [hstate])⟩

theorem Base.mem_returnQueue (h : s.Base l L) (hp : p < s.objects) (now : Word) (u : Nat) :
    u ∈ s.returnQueue l p now ↔ u ∈ l ∨ u = p ∧ 0 < p := by
  rw [returnQueue]
  by_cases hp0 : p = 0
  · rw [if_neg (by simpa using (h.pid_eq_zero hp).mpr hp0)]
    simp [hp0]
  · rw [if_pos ((h.pid_eq_zero hp).not.mpr hp0), (Eevdf.place_perm _ _ _ _).mem_iff, List.mem_cons]
    simp [Nat.pos_of_ne_zero hp0, or_comm]

/-- The outgoing task is put back: no task is running. -/
theorem Steady.putBack_ok (h : s.Steady l L p) (now : Word) (message : String)
    (hroom : (s.task p).pid ≠ 0 → l.length < nodePoolSize) :
    ∃ s₁, s.putBack p now message = .ok s₁ ∧ s₁.Base (s.returnQueue l p now) L ∧ s₁.RunningIs none ∧
      Moved s s₁ p .ready (s.returnVruntime p now) ((s.task p).context.setX 23 now) ∧
      s₁.currentTask = some p ∧ s₁.minVruntime = (s.toEevdf.updateCurr p now).minVruntime := by
  obtain ⟨-, hpL, hpl⟩ := h.mem_of_running
  obtain ⟨s₁, hput, hq, hm, hcur, hmin⟩ := Sched.putBack_ok h.base.queue hpl now message hroom
  refine ⟨s₁, hput, h.base.moved hm hq ?_ ?_ h.lt fun _ => hpL, h.running.stop hm (by simp), hm,
    hcur.trans h.current, hmin⟩
  · intro u hu hup
    exact ((h.base.mem_returnQueue h.lt now u).mp hu).resolve_right fun hu => hup hu.1
  · intro hmem
    rcases (h.base.mem_returnQueue h.lt now p).mp hmem with hu | hu
    · exact absurd hu hpl
    · exact ⟨rfl, hu.2⟩

/-- The next task starts. -/
theorem Base.afterSwitch (h : s₁.Base l₁ L) (hrun : s₁.RunningIs none) (hn : n = nextOf l₁)
    (hm : Moved s₁ s₂ n .running w inn) (hq : s₂.Queue (l₁.erase n)) :
    s₂.Base (l₁.erase n) L ∧ s₂.RunningIs (some n) := by
  have hlt : n < s₁.objects := hn ▸ h.nextOf_lt
  have hnL : n ∈ L := by
    rcases nextOf_cases l₁ with hmem | ⟨-, h0⟩
    · rw [← hn] at hmem
      exact h.live n hlt (by simp [(h.queued n hmem).2.2])
    · rw [hn, h0]
      exact h.idle
  refine ⟨h.moved hm hq (fun u hu _ => List.mem_of_mem_erase hu) ?_ hlt fun _ => hnL, hrun.start hm⟩
  exact fun hmem => absurd hmem h.queue.nodup.not_mem_erase

theorem Base.switchIn_ok (h : s₁.Base l₁ L) (hrun : s₁.RunningIs none) (hn : n = nextOf l₁) (now : Word)
    (still running : String) :
    ∃ s₂, s₁.switchIn n now still running = .ok s₂ ∧ s₂.Base (l₁.erase n) L ∧ s₂.RunningIs (some n) ∧
      Moved s₁ s₂ n .running (s₁.task n).vruntime ((s₁.task n).context.setX 23 now) ∧
      s₂.currentTask = some n ∧ s₂.minVruntime = s₁.minVruntime := by
  have hidle : (s₁.task n).pid = 0 → n ∉ l₁ := by
    intro hpid hmem
    have := h.pids n (h.queued n hmem).1 (h.queued n hmem).2.1
    omega
  obtain ⟨s₂, hs₂, hq, hm, hcur, hmin⟩ := Sched.switchIn_ok h.queue hidle now still running
  obtain ⟨hbase, hrun'⟩ := h.afterSwitch hrun hn hm hq
  exact ⟨s₂, hs₂, hbase, hrun', hm, hcur, hmin⟩

/-- The task that was put back is the next one. -/
theorem handover_stay (hm : Moved s s₁ p .ready v out) (hbase : s₁.Base l₁ L) (hrun : s₁.RunningIs none)
    (hn : p = nextOf l₁) (hm₂ : Moved s₁ s₂ p .running (s₁.task p).vruntime (s₁.task p).context)
    (hq₂ : s₂.Queue (l₁.erase p)) (hcur : s₂.currentTask = some p) (hmin : s₂.minVruntime = m) :
    Handover s s₂ (l₁.erase p) L p p v m out out := by
  obtain ⟨hbase₂, hrun₂⟩ := hbase.afterSwitch hrun hn hm₂ hq₂
  rw [hm.vruntime, hm.context] at hm₂
  exact ⟨hbase₂, hm.keeps.trans hm₂.keeps, hcur, hrun₂,
    fun u hu _ => (hm₂.other u hu).trans (hm.other u hu), fun hne => absurd rfl hne, hm₂.vruntime,
    hmin, fun hne => absurd rfl hne, hm₂.context⟩

/-- The next one is another task. -/
theorem handover_switch (hm : Moved s s₁ p .ready v out) (hpn : n ≠ p)
    (hm₂ : Moved s₁ s₂ n .running (s₁.task n).vruntime inn) (hbase : s₂.Base l L)
    (hrun : s₂.RunningIs (some n)) (hcur : s₂.currentTask = some n) (hmin : s₂.minVruntime = m) :
    Handover s s₂ l L p n v m out inn := by
  have hp₂ : s₂.task p = s₁.task p := hm₂.other p hpn.symm
  refine ⟨hbase, hm.keeps.trans hm₂.keeps, hcur, hrun, fun u hup hun => ?_, fun _ => ?_, ?_,
    hmin, fun _ => ?_, hm₂.context⟩
  · exact (hm₂.other u hun).trans (hm.other u hup)
  · rw [hp₂]
    exact ⟨hm.state, hm.context⟩
  · rw [hp₂]
    exact hm.vruntime
  · rw [hm₂.vruntime, hm.other n hpn]

/-- A change of the outgoing task before the scheduling point. -/
theorem Handover.of_moved (h : Handover s₁ s' l L p n v m out inn) (hm : Moved s s₁ p st w ctx) :
    Handover s s' l L p n v m out inn :=
  { h with
    keeps := hm.keeps.trans h.keeps
    other := fun u hup hun => (h.other u hup hun).trans (hm.other u hup)
    incoming := fun hne => (h.incoming hne).trans (by rw [hm.other n hne.symm]) }

/-- `switch_to` saves registers in the context of the task that is left. -/
theorem Handover.saveContext (h : Handover s s' l L p n v m out inn) (hpn : n ≠ p)
    (hp : p < s.objects) (out' : CpuContext) :
    Handover s (s'.setContext p out') l L p n v m out' inn := by
  have hm : Moved s' (s'.setContext p out') p .ready v out' := by
    rw [← h.vruntime, ← (h.left hpn.symm).1]
    exact moved_of_update s' (s'.setContext p out') p { s'.task p with context := out' } rfl rfl rfl
      rfl rfl rfl rfl
  have hp' : p < s'.objects := h.keeps.objects ▸ hp
  have hready := (h.left hpn.symm).1
  have hq : (s'.setContext p out').Queue l := Eevdf.Queue.setTask h.base.queue fun _ => rfl
  refine ⟨h.base.moved hm hq (fun u hu _ => hu) (fun hmem => ⟨rfl, (h.base.queued p hmem).1⟩) hp'
      fun _ => h.base.live p hp' (by simp [hready]), h.keeps.trans hm.keeps, h.current,
    h.running.same hm hready, fun u hup hun => ?_, fun _ => ⟨hm.state, hm.context⟩, hm.vruntime,
    h.minVruntime, fun hne => ?_, ?_⟩
  · exact (hm.other u hup).trans (h.other u hup hun)
  · rw [hm.other n hpn]
    exact h.incoming hne
  · rw [hm.other n hpn]
    exact h.entered

theorem Handover.admitted (h : Handover s s' (l₁.erase n) L p n v m out inn) (hadm : s.Admitted l)
    (hl₁ : ∀ u, u ∈ l₁ ↔ u ∈ l ∨ u = p ∧ 0 < p) : s'.Admitted (l₁.erase n) := by
  intro u hu hlt hready
  have hun : u ≠ n := by
    rintro rfl
    have := (h.running u hlt).mpr rfl
    rw [hready] at this
    exact absurd this (by simp)
  refine (List.mem_erase_of_ne hun).mpr ((hl₁ u).mpr ?_)
  by_cases hup : u = p
  · exact .inr ⟨hup, hup ▸ hu⟩
  · rw [h.other u hup hun] at hready
    exact .inl (hadm u hu (h.keeps.objects ▸ hlt) hready)

theorem Base.nextOf_returnQueue_lt (h : s.Base l L) (hp : p < s.objects) (now : Word) :
    nextOf (s.returnQueue l p now) < s.objects := by
  rcases nextOf_cases (s.returnQueue l p now) with hmem | ⟨-, h0⟩
  · rcases (h.mem_returnQueue hp now _).mp hmem with hmem | ⟨heq, -⟩
    · exact (h.queued _ hmem).2.1
    · rw [heq]
      exact hp
  · rw [h0]
    exact h.pos

/-- The outgoing task of `schedule`. -/
theorem Steady.scheduleOut_eq (h : s.Steady l L p) (now : Word)
    (hm : ∀ s₁, s.putBack p now "schedule: READY task PID %d not in queue after enqueue" =
      .ok s₁ → (s₁.task p).state = .ready) :
    s.scheduleOut now =
      s.putBack p now "schedule: READY task PID %d not in queue after enqueue" := by
  rw [scheduleOut, h.current]
  dsimp only
  rw [retire, if_pos h.mem_of_running.1]
  cases hput : s.putBack p now "schedule: READY task PID %d not in queue after enqueue" with
  | error e => rfl
  | ok s₁ =>
      rw [Fault.ok_bind, if_neg (by simp [hm s₁ hput])]
      rfl

/-- **`schedule` with a running task.** -/
theorem Steady.schedule_ok (h : s.Steady l L p) (now : Word) (cpu : CpuContext) (label : Word)
    (hroom : (s.task p).pid ≠ 0 → l.length < nodePoolSize)
    (hn : n = nextOf (s.returnQueue l p now)) :
    ∃ s', s.schedule now cpu label = .ok (s',
        if n = p then cpu else cpu.switchIn ((s.task n).context.setX 23 now)) ∧
      Handover s s' ((s.returnQueue l p now).erase n) L p n (s.returnVruntime p now)
        (s.toEevdf.updateCurr p now).minVruntime
        (((s.task p).context.setX 23 now).saveCallee cpu label)
        ((s.task n).context.setX 23 now) := by
  obtain ⟨s₁, hput, hbase₁, hnone, hm₁, hcur₁, hmin₁⟩ := h.putBack_ok now
    "schedule: READY task PID %d not in queue after enqueue" hroom
  have hout : s.scheduleOut now = .ok s₁ := by
    rw [h.scheduleOut_eq now, hput]
    intro s₂ hs₂
    rw [hput] at hs₂
    rw [← Except.ok.inj hs₂, hm₁.state]
  have hpick : s₁.pickOrIdle = .ok n := hn ▸ hbase₁.pickOrIdle
  rw [schedule, hout, Fault.ok_bind, hpick, Fault.ok_bind, h.current]
  by_cases hnp : n = p
  · subst hnp
    obtain ⟨s₂, hs₂, hq₂, hm₂, hcur₂, hmin₂⟩ := stay_ok hbase₁.queue n
      "schedule: RUNNING task PID %d still in queue after dequeue" cpu
    refine ⟨s₂, ?_, ?_⟩
    · rw [if_pos rfl, if_pos rfl, if_pos hm₁.state]
      exact hs₂
    · have hh := handover_stay hm₁ hbase₁ hnone hn hm₂ hq₂ (hcur₂.trans hcur₁) (hmin₂.trans hmin₁)
      exact { hh with left := fun hne => absurd rfl hne }
  · obtain ⟨s₂, hs₂, hbase₂, hrun₂, hm₂, hcur₂, hmin₂⟩ := hbase₁.switchIn_ok hnone hn now
      "schedule: task PID %d still in queue after dequeue"
      "schedule: RUNNING task PID %d is in queue"
    have hh := handover_switch hm₁ hnp hm₂ hbase₂ hrun₂ hcur₂ (hmin₂.trans hmin₁)
    rw [hm₁.other n hnp] at hm₂ hh
    refine ⟨s₂.setContext p ((s₂.task p).context.saveCallee cpu label), ?_, ?_⟩
    · have hctx : ((s₂.setContext p ((s₂.task p).context.saveCallee cpu label)).task n).context =
          (s.task n).context.setX 23 now := by
        rw [← hm₂.context]
        show (Function.update s₂.task p _ n).context = _
        rw [Function.update_of_ne hnp]
      rw [if_neg (by simpa using Ne.symm hnp), hs₂, Fault.ok_bind, if_neg hnp, ← hctx]
      rfl
    · rw [(hh.left (Ne.symm hnp)).2]
      exact hh.saveContext hnp h.lt _

/-- Where the outgoing task of `schedule` finds no node, that is the end. -/
theorem Steady.schedule_full (h : s.Steady l L p) (now : Word) (cpu : CpuContext) (label : Word)
    (hpid : (s.task p).pid ≠ 0) (hfull : l.length = nodePoolSize) :
    s.schedule now cpu label = .error
      (.panic "schedule: READY task PID %d not in queue after enqueue" (some (s.task p).pid)) := by
  have hput := putBack_full h.base.queue h.mem_of_running.2.2 now
    "schedule: READY task PID %d not in queue after enqueue" hpid hfull
  rw [schedule, h.scheduleOut_eq now (fun s₁ hs₁ => by rw [hput] at hs₁; cases hs₁), hput]
  rfl

/-- **`schedule` when the current task is gone.** -/
theorem schedule_none (h : s.Base l L) (hrun : s.RunningIs none) (hcur : s.currentTask = none)
    (now : Word) (cpu : CpuContext) (label : Word) (hn : n = nextOf l) :
    ∃ s', s.schedule now cpu label = .ok (s', cpu.jumpIn ((s.task n).context.setX 23 now)) ∧
      Handover s s' (l.erase n) L n n (s.task n).vruntime s.minVruntime
        ((s.task n).context.setX 23 now) ((s.task n).context.setX 23 now) := by
  obtain ⟨s', hs', hbase, hrun', hm, hcur', hmin⟩ := h.switchIn_ok hrun hn now
    "schedule: task PID %d still in queue after dequeue" "schedule: RUNNING task PID %d is in queue"
  refine ⟨s', ?_, hbase, hm.keeps, hcur', hrun', fun u hu _ => hm.other u hu,
    fun hne => absurd rfl hne, hm.vruntime, hmin, fun hne => absurd rfl hne, hm.context⟩
  have hout : s.scheduleOut now = .ok s := by rw [scheduleOut, hcur]
  have hpick : s.pickOrIdle = .ok n := hn ▸ h.pickOrIdle
  rw [schedule, hout, Fault.ok_bind, hpick, Fault.ok_bind, hcur, if_neg (by simp), hs',
    Fault.ok_bind, ← hm.context]
  rfl

theorem setContext_moved (s : Sched) (t : Nat) (ctx : CpuContext) :
    Moved s (s.setContext t ctx) t (s.task t).state (s.task t).vruntime ctx :=
  moved_of_update s (s.setContext t ctx) t { s.task t with context := ctx } rfl rfl rfl rfl rfl rfl
    rfl

theorem Steady.setContext (h : s.Steady l L p) (regs : CpuContext) :
    (s.setContext p regs).Steady l L p := by
  obtain ⟨-, hpL, hpl⟩ := h.mem_of_running
  have hm := setContext_moved s p regs
  have hq : (s.setContext p regs).Queue l := Eevdf.Queue.setTask h.base.queue fun _ => rfl
  exact ⟨h.base.moved hm hq (fun u hu _ => hu) (fun hmem => absurd hmem hpl) h.lt fun _ => hpL,
    h.current, h.lt, h.running.same hm rfl⟩

/-- **`schedule_preempt`.** The frame goes to the outgoing task, whether it goes on or not. -/
theorem Steady.schedulePreempt_ok (h : s.Steady l L p) (regs : CpuContext) (now now' : Word)
    (hroom : (s.task p).pid ≠ 0 → l.length < nodePoolSize)
    (hn : n = nextOf ((s.setContext p regs).returnQueue l p now)) :
    ∃ s', s.schedulePreempt regs now now' = .ok (s',
        if n = p then regs else (s.task n).context.setX 23 now') ∧
      Handover s s' (((s.setContext p regs).returnQueue l p now).erase n) L p n
        ((s.setContext p regs).returnVruntime p now)
        ((s.setContext p regs).toEevdf.updateCurr p now).minVruntime (regs.setX 23 now)
        (if n = p then regs.setX 23 now else (s.task n).context.setX 23 now') := by
  have hm₀ := setContext_moved s p regs
  obtain ⟨s₁, hput, hbase₁, hnone, hm₁, hcur₁, hmin₁⟩ := (h.setContext regs).putBack_ok now
    "schedule_preempt: READY task PID %d not in queue after enqueue"
    (fun hpid => hroom (hm₀.keeps.pid p ▸ hpid))
  rw [hm₀.context] at hm₁
  have hout : s.preemptOut p regs now = .ok s₁ := by
    rw [preemptOut, h.mem_of_running.1]
    exact hput
  have hpick : s₁.pickOrStay p = .ok n := by
    rw [hn]
    refine hbase₁.pickOrStay hm₁.state ?_
    rcases Nat.eq_zero_or_pos p with hp0 | hp0
    · exact .inl hp0
    · exact .inr (((h.setContext regs).base.mem_returnQueue h.lt now p).mpr (.inr ⟨rfl, hp0⟩))
  rw [schedulePreempt, h.current]
  dsimp only
  rw [hout, Fault.ok_bind, hpick, Fault.ok_bind]
  by_cases hnp : n = p
  · subst hnp
    obtain ⟨s₂, hs₂, hq₂, hm₂, hcur₂, hmin₂⟩ := stayPreempt_ok hbase₁.queue n
      "schedule_preempt: task PID %d still in queue after dequeue"
      "schedule_preempt: RUNNING task PID %d is in queue" regs
    refine ⟨s₂, ?_, ?_⟩
    · rw [if_pos rfl, if_pos rfl, if_pos hm₁.state]
      exact hs₂
    · rw [if_pos rfl]
      exact (handover_stay hm₁ hbase₁ hnone hn hm₂ hq₂ (hcur₂.trans hcur₁)
        (hmin₂.trans hmin₁)).of_moved hm₀
  · obtain ⟨s₂, hs₂, hbase₂, hrun₂, hm₂, hcur₂, hmin₂⟩ := hbase₁.switchIn_ok hnone hn now'
      "schedule_preempt: task PID %d still in queue after dequeue"
      "schedule_preempt: RUNNING task PID %d is in queue"
    have hh := handover_switch hm₁ hnp hm₂ hbase₂ hrun₂ hcur₂ (hmin₂.trans hmin₁)
    rw [hm₁.other n hnp, hm₀.other n hnp] at hm₂ hh
    refine ⟨s₂, ?_, ?_⟩
    · rw [if_neg hnp, hs₂, Fault.ok_bind, if_neg hnp, ← hm₂.context]
      rfl
    · rw [if_neg hnp]
      exact hh.of_moved hm₀

theorem Steady.schedulePreempt_full (h : s.Steady l L p) (regs : CpuContext) (now now' : Word)
    (hpid : (s.task p).pid ≠ 0) (hfull : l.length = nodePoolSize) :
    s.schedulePreempt regs now now' = .error (.panic
      "schedule_preempt: READY task PID %d not in queue after enqueue" (some (s.task p).pid)) := by
  have hm₀ := setContext_moved s p regs
  have hput := putBack_full (h.setContext regs).base.queue h.mem_of_running.2.2 now
    "schedule_preempt: READY task PID %d not in queue after enqueue"
    (by rw [hm₀.keeps.pid p]; exact hpid) hfull
  have hout : s.preemptOut p regs now = .error (.panic
      "schedule_preempt: READY task PID %d not in queue after enqueue" (some (s.task p).pid)) := by
    rw [preemptOut, h.mem_of_running.1]
    dsimp only
    rw [hput, hm₀.keeps.pid p]
  rw [schedulePreempt, h.current]
  dsimp only
  rw [hout]
  rfl

end Handover

end Sched

end Arcline
