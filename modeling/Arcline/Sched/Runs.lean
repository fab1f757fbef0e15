import Arcline.Sched.Lifecycle
import Arcline.Run

set_option autoImplicit false

/-! # Runs of the scheduler

A run is any sequence of calls of `task_create`, `schedule`, `schedule_preempt`, `task_exit` and
`task_kill`. `Steps` says what each call can do; the properties of runs are derived from it, one case
for each way a call can end. The first of them is that in every state of a run the states of the
tasks, the run queue and the current task agree.
-/

namespace Arcline

namespace Sched

variable {s s' : Sched} {l l' L : List Nat} {t p : Nat}

/-! ## The operations -/

/-- The calls a run is made of, each with what it gets from outside: the times `get_ns` returns, the
registers of the processor, and the memory for a new task. -/
inductive Op
  | create (entry : Word) (priority : Int) (args : Option TaskArgs) (env : Outside)
  | schedule (now : Word) (cpu : CpuContext) (label : Word)
  | preempt (regs : CpuContext) (now now' : Word)
  | exit (now : Word) (cpu : CpuContext) (label : Word)
  | kill (task : Option Nat) (now : Word) (cpu : CpuContext) (label : Word)

/-- One call, with the state after it, and, for the calls that may hand the processor over, the
registers with which it goes on. -/
def step (s : Sched) : Op → Except Fault (Sched × Option CpuContext)
  | .create entry priority args env => do
      let (_, s) ← s.taskCreate entry priority args env
      return (s, none)
  | .schedule now cpu label => do
      let (s, cpu) ← s.schedule now cpu label
      return (s, some cpu)
  | .preempt regs now now' => do
      let (s, regs) ← s.schedulePreempt regs now now'
      return (s, some regs)
  | .exit now cpu label => do
      let (s, cpu) ← s.taskExit now cpu label
      return (s, some cpu)
  | .kill task now cpu label => do
      let (_, s, cpu) ← s.taskKill task now cpu label
      return (s, some cpu)

/-- `task_kill` is given a task, or `NULL`. -/
def Op.Valid (s : Sched) : Op → Prop
  | .kill (some t) _ _ _ => t < s.objects
  | _ => True

/-- The call puts the current task back in the queue. -/
def Op.PutsBack : Op → Prop
  | .schedule _ _ _ | .preempt _ _ _ => True
  | _ => False

/-- `task_create` gets all it needs. -/
def CanCreate (s : Sched) (env : Outside) : Prop :=
  env.object = true ∧ pidFree? s.pidBitmap ≠ none ∧ env.stack ≠ none

/-- What each call does, from a state with the queue `l`, the task list `L` and the current task
`p`. -/
inductive Steps (s : Sched) (l L : List Nat) (p : Nat) : Op → Sched → Option CpuContext → Prop
  | refused {entry : Word} {priority : Int} {args : Option TaskArgs} {env : Outside} :
      ¬ s.CanCreate env → Steps s l L p (.create entry priority args env) s none
  | created {entry : Word} {priority : Int} {args : Option TaskArgs} {env : Outside} {pid : Nat}
      {stack : Word} {s' : Sched} {l' : List Nat} :
      s.CanCreate env → pidFree? s.pidBitmap = some pid → env.stack = some stack → s'.Queue l' →
      Created s s' pid (newTask pid entry priority stack args env) →
      (entry ≠ 0 ∧ l.length < nodePoolSize → l'.Perm (s.objects :: l)) →
      (¬ (entry ≠ 0 ∧ l.length < nodePoolSize) → l' = l) →
      Steps s l L p (.create entry priority args env) s' none
  | scheduled {now : Word} {cpu : CpuContext} {label : Word} {n : Nat} {s' : Sched} :
      n = nextOf (s.returnQueue l p now) →
      Handover s s' ((s.returnQueue l p now).erase n) L p n (s.returnVruntime p now)
        (s.toEevdf.updateCurr p now).minVruntime
        (((s.task p).context.setX 23 now).saveCallee cpu label) ((s.task n).context.setX 23 now) →
      Steps s l L p (.schedule now cpu label) s'
        (some (if n = p then cpu else cpu.switchIn ((s.task n).context.setX 23 now)))
  | preempted {regs : CpuContext} {now now' : Word} {n : Nat} {s' : Sched} :
      n = nextOf ((s.setContext p regs).returnQueue l p now) →
      Handover s s' (((s.setContext p regs).returnQueue l p now).erase n) L p n
        ((s.setContext p regs).returnVruntime p now)
        ((s.setContext p regs).toEevdf.updateCurr p now).minVruntime (regs.setX 23 now)
        (if n = p then regs.setX 23 now else (s.task n).context.setX 23 now') →
      Steps s l L p (.preempt regs now now') s'
        (some (if n = p then regs else (s.task n).context.setX 23 now'))
  | exited {now : Word} {cpu : CpuContext} {label : Word} {n : Nat} {s₁ s' : Sched} :
      Ended s s₁ p → n = nextOf l →
      Handover s₁ s' (l.erase n) L n n (s.task n).vruntime s.minVruntime
        ((s.task n).context.setX 23 now) ((s.task n).context.setX 23 now) →
      Steps s l L p (.exit now cpu label) s' (some (cpu.jumpIn ((s.task n).context.setX 23 now)))
  | spared {task : Option Nat} {now : Word} {cpu : CpuContext} {label : Word} :
      (∀ t, task = some t → (s.task t).pid = 0 ∨ (s.task t).state = .zombie) →
      Steps s l L p (.kill task now cpu label) s (some cpu)
  | killed {t : Nat} {now : Word} {cpu : CpuContext} {label : Word} {s' : Sched} :
      0 < t → t < s.objects → (s.task t).state ≠ .zombie → t ≠ p → Ended s s' t →
      s'.Base (l.erase t) (L.erase t) → s'.currentTask = some p →
      Steps s l L p (.kill (some t) now cpu label) s' (some cpu)
  | killedCurrent {now : Word} {cpu : CpuContext} {label : Word} {n : Nat} {s₁ s' : Sched} :
      0 < p → Ended s s₁ p → n = nextOf l →
      Handover s₁ s' (l.erase n) (L.erase p) n n (s.task n).vruntime s.minVruntime
        ((s.task n).context.setX 23 now) ((s.task n).context.setX 23 now) →
      Steps s l L p (.kill (some p) now cpu label) s'
        (some (cpu.jumpIn ((s.task n).context.setX 23 now)))

variable {env : Outside} {s₁ : Sched} {n u : Nat} {op : Op} {out : Option CpuContext}
  {v m entry : Word} {a b : CpuContext}

/-- `task_create` with all it needs. -/
theorem Steady.taskCreate_some (h : s.Steady l L p) (hcan : s.CanCreate env) (entry : Word)
    (priority : Int) (args : Option TaskArgs) :
    ∃ s' l' pid stack, s.taskCreate entry priority args env = .ok (some s.objects, s') ∧
      pidFree? s.pidBitmap = some pid ∧ env.stack = some stack ∧ s'.Queue l' ∧
      Created s s' pid (newTask pid entry priority stack args env) ∧
      (entry ≠ 0 ∧ l.length < nodePoolSize → l'.Perm (s.objects :: l)) ∧
      (¬ (entry ≠ 0 ∧ l.length < nodePoolSize) → l' = l) := by
  obtain ⟨hobject, hpid, hstack⟩ := hcan
  obtain ⟨pid, hpid⟩ := Option.ne_none_iff_exists'.mp hpid
  obtain ⟨stack, hstack⟩ := Option.ne_none_iff_exists'.mp hstack
  have hfresh : s.objects ∉ l := fun hmem => absurd (h.base.queued _ hmem).2.1 (Nat.lt_irrefl _)
  have hlist : s.taskList ≠ some s.objects := by
    intro hhead
    have hmem : s.objects ∈ L := by
      have hc := h.base.list.chain
      rw [hhead] at hc
      cases L with
      | nil => exact absurd hc (by simp)
      | cons x L =>
          obtain rfl := Option.some.inj hc.1
          exact List.mem_cons_self
    exact absurd (h.base.listed _ hmem) (Nat.lt_irrefl _)
  obtain ⟨s', l', hs', hqueue, hcreated, hin, hout⟩ :=
    Sched.taskCreate_some h.base.queue hfresh hlist hobject hpid hstack entry priority args
  exact ⟨s', l', pid, stack, hs', hpid, hstack, hqueue, hcreated, hin, hout⟩

theorem taskCreate_refused (hcan : ¬ s.CanCreate env) (entry : Word) (priority : Int)
    (args : Option TaskArgs) : s.taskCreate entry priority args env = .ok (none, s) := by
  have hfail : env.object = false ∨ pidFree? s.pidBitmap = none ∨ env.stack = none := by
    unfold CanCreate at hcan
    by_contra hne
    rw [not_or, not_or] at hne
    exact hcan ⟨by simpa using hne.1, hne.2⟩
  exact taskCreate_none hfail entry priority args

theorem Steady.taskCreate (h : s.Steady l L p) (entry : Word) (priority : Int)
    (args : Option TaskArgs) (env : Outside) :
    ∃ s' out, s.step (.create entry priority args env) = .ok (s', out) ∧
      Steps s l L p (.create entry priority args env) s' out := by
  by_cases hcan : s.CanCreate env
  · obtain ⟨s', l', pid, stack, hs', hpid, hstack, hqueue, hc, hin, hout⟩ :=
      h.taskCreate_some hcan entry priority args
    refine ⟨s', none, ?_, .created hcan hpid hstack hqueue hc hin hout⟩
    rw [step, hs']
    rfl
  · refine ⟨s, none, ?_, .refused hcan⟩
    rw [step, taskCreate_refused hcan]
    rfl

/-- The current task has ended: the next one of the queue starts. -/
theorem Steady.jump_ok (h : s.Steady l L p) {L' : List Nat} (hbase : s₁.Base l L') (he : Ended s s₁ p)
    (now : Word) (cpu : CpuContext) (label : Word) (hn : n = nextOf l) :
    ∃ s', { s₁ with currentTask := none }.schedule now cpu label
        = .ok (s', cpu.jumpIn ((s.task n).context.setX 23 now)) ∧
      Ended s { s₁ with currentTask := none } p ∧
      Handover { s₁ with currentTask := none } s' (l.erase n) L' n n (s.task n).vruntime s.minVruntime
        ((s.task n).context.setX 23 now) ((s.task n).context.setX 23 now) := by
  have hbase' : ({ s₁ with currentTask := none } : Sched).Base l L' :=
    ⟨hbase.queue, hbase.list, hbase.newest, hbase.listed, hbase.idlePid, hbase.idle, hbase.pids,
      hbase.queued, hbase.live⟩
  have he' : Ended s { s₁ with currentTask := none } p :=
    ⟨he.objects, he.minVruntime, he.pidBitmap, he.task⟩
  have hnone := h.running.ended he'
  rw [if_pos rfl] at hnone
  have hctx := he'.field Task.context (fun _ _ _ _ => rfl) n
  have hv := he'.field Task.vruntime (fun _ _ _ _ => rfl) n
  obtain ⟨s', hs', hh⟩ := schedule_none hbase' hnone rfl now cpu label hn
  rw [hctx] at hs' hh
  rw [hv, he'.minVruntime] at hh
  exact ⟨s', hs', he', hh⟩

theorem Steady.taskExit (h : s.Steady l L p) (now : Word) (cpu : CpuContext) (label : Word) :
    ∃ s' out, s.step (.exit now cpu label) = .ok (s', out) ∧
      Steps s l L p (.exit now cpu label) s' out := by
  obtain ⟨-, -, hpl⟩ := h.mem_of_running
  obtain ⟨s', hs', he, hh⟩ :=
    h.jump_ok (h.base.endTask hpl h.lt) (endTask_ended s p) now cpu label rfl
  refine ⟨s', _, ?_, .exited he rfl hh⟩
  rw [step, Sched.taskExit, h.current]
  dsimp only
  rw [hs']
  rfl

/-- Killing a task that is alive and not the idle task, up to the choice of the next one. -/
theorem Base.kill (h : s.Base l L) (hlt : t < s.objects) (hpos : 0 < t)
    (hlive : (s.task t).state ≠ .zombie) :
    ∃ s₁, s.dequeueReady t = .ok s₁ ∧ ((s₁.endTask t).unlinkTask t).Base (l.erase t) (L.erase t) ∧
      Ended s ((s₁.endTask t).unlinkTask t) t ∧
      ((s₁.endTask t).unlinkTask t).currentTask = s.currentTask := by
  obtain ⟨q, hq, htask, hmin, hbase⟩ := h.dequeueReady t
  have hzombie : ((({ s with toEevdf := q } : Sched).endTask t).task t).state = .zombie := by
    rw [endTask_task, if_pos rfl]
  have hb₁ := hbase.endTask h.queue.nodup.not_mem_erase hlt
  have htL : t ∈ L := h.live t hlt hlive
  have he : Ended s (({ s with toEevdf := q } : Sched).endTask t) t := by
    have he := endTask_ended ({ s with toEevdf := q } : Sched) t
    have hs : ({ s with toEevdf := q } : Sched).task = s.task := htask
    refine ⟨he.objects, he.minVruntime.trans hmin, ?_, ?_⟩
    · rw [he.pidBitmap, hs]
    · rw [← hs]
      exact he.task
  have hp := hb₁.list.prev_ne hb₁.nodup htL
  obtain ⟨task, hs, -⟩ := unlinkTask_spec hp
  refine ⟨_, hq, hb₁.unlinkTask hzombie htL hpos, he.unlinkTask hp, ?_⟩
  rw [hs]
  rfl

theorem taskKill_live (hpid : (s.task t).pid ≠ 0) (hlive : (s.task t).state ≠ .zombie)
    (hs₁ : s.dequeueReady t = .ok s₁) (now : Word) (cpu : CpuContext) (label : Word) :
    s.taskKill (some t) now cpu label =
      let s₂ := (s₁.endTask t).unlinkTask t
      if s₂.currentTask = some t then do
        let (s, cpu) ← { s₂ with currentTask := none }.schedule now cpu label
        pure (0, s, cpu)
      else .ok (0, s₂, cpu) := by
  rw [taskKill, if_neg hpid, if_neg hlive, hs₁]
  rfl

theorem Steady.taskKill (h : s.Steady l L p) (task : Option Nat) (now : Word) (cpu : CpuContext)
    (label : Word) (hvalid : Op.Valid s (.kill task now cpu label)) :
    ∃ s' out, s.step (.kill task now cpu label) = .ok (s', out) ∧
      Steps s l L p (.kill task now cpu label) s' out := by
  cases task with
  | none => exact ⟨s, _, rfl, .spared (by simp)⟩
  | some t =>
      have hlt : t < s.objects := hvalid
      by_cases hpid : (s.task t).pid = 0
      · refine ⟨s, _, ?_, .spared fun u hu => .inl (Option.some.inj hu ▸ hpid)⟩
        rw [step, Sched.taskKill, if_pos hpid]
        rfl
      by_cases hzombie : (s.task t).state = .zombie
      · refine ⟨s, _, ?_, .spared fun u hu => .inr (Option.some.inj hu ▸ hzombie)⟩
        rw [step, Sched.taskKill, if_neg hpid, if_pos hzombie]
        rfl
      have hpos : 0 < t := Nat.pos_of_ne_zero (mt (h.base.pid_eq_zero hlt).mpr hpid)
      obtain ⟨s₁, hs₁, hbase, he, hcur⟩ := h.base.kill hlt hpos hzombie
      have hkill := taskKill_live hpid hzombie hs₁ now cpu label
      rw [h.current] at hcur
      by_cases htp : t = p
      · subst htp
        obtain ⟨-, -, htl⟩ := h.mem_of_running
        rw [List.erase_of_not_mem htl] at hbase
        obtain ⟨s', hs', he', hh⟩ := h.jump_ok hbase he now cpu label rfl
        refine ⟨s', _, ?_, .killedCurrent hpos he' rfl hh⟩
        rw [step, hkill]
        dsimp only
        rw [if_pos hcur, hs']
        rfl
      · refine ⟨_, _, ?_, .killed hpos hlt hzombie htp he hbase hcur⟩
        rw [step, hkill]
        dsimp only
        rw [if_neg (by simpa [hcur] using Ne.symm htp)]
        rfl

/-- **Every call ends, as described**, unless it is to put the current task back in a full queue. -/
theorem Steady.step_ok (h : s.Steady l L p) (hvalid : op.Valid s)
    (hroom : op.PutsBack → (s.task p).pid ≠ 0 → l.length < nodePoolSize) :
    ∃ s' out, s.step op = .ok (s', out) ∧ Steps s l L p op s' out := by
  cases op with
  | create entry priority args env => exact h.taskCreate entry priority args env
  | schedule now cpu label =>
      obtain ⟨s', hs', hh⟩ :=
        h.schedule_ok now cpu label (hroom trivial) rfl
      refine ⟨s', _, ?_, .scheduled rfl hh⟩
      rw [step, hs']
      rfl
  | preempt regs now now' =>
      obtain ⟨s', hs', hh⟩ :=
        h.schedulePreempt_ok regs now now' (hroom trivial) rfl
      refine ⟨s', _, ?_, .preempted rfl hh⟩
      rw [step, hs']
      rfl
  | exit now cpu label => exact h.taskExit now cpu label
  | kill task now cpu label => exact h.taskKill task now cpu label hvalid

/-- In a full queue the current task cannot be put back. -/
theorem Steady.step_full (h : s.Steady l L p) (hback : op.PutsBack) (hpid : (s.task p).pid ≠ 0)
    (hfull : l.length = nodePoolSize) :
    ∃ message, s.step op = .error (.panic message (some (s.task p).pid)) := by
  cases op with
  | schedule now cpu label =>
      rw [step, h.schedule_full now cpu label hpid hfull]
      exact ⟨_, rfl⟩
  | preempt regs now now' =>
      rw [step, h.schedulePreempt_full regs now now' hpid hfull]
      exact ⟨_, rfl⟩
  | create => exact absurd hback (by simp [Op.PutsBack])
  | exit => exact absurd hback (by simp [Op.PutsBack])
  | kill => exact absurd hback (by simp [Op.PutsBack])

/-- A call that ended did what is described. -/
theorem Steady.steps (h : s.Steady l L p) (hvalid : op.Valid s) (hs : s.step op = .ok (s', out)) :
    Steps s l L p op s' out := by
  have hroom : op.PutsBack → (s.task p).pid ≠ 0 → l.length < nodePoolSize := by
    intro hback hpid
    refine Nat.lt_of_le_of_ne h.base.queue.length_le fun hfull => ?_
    obtain ⟨message, herror⟩ := h.step_full hback hpid hfull
    rw [hs] at herror
    exact absurd herror (by simp)
  obtain ⟨s₁, out₁, hs₁, hsteps⟩ := h.step_ok hvalid hroom
  obtain ⟨rfl, rfl⟩ : s₁ = s' ∧ out₁ = out := by
    rw [hs] at hs₁
    simpa [eq_comm] using hs₁
  exact hsteps

/-! ## What every call keeps -/

/-- Only `task_create` brings a task into the world. -/
theorem Steps.objects (hs : Steps s l L p op s' out) :
    s'.objects = s.objects ∨ s'.objects = s.objects + 1 ∧
      ∃ entry priority args env, op = .create entry priority args env ∧ s.CanCreate env := by
  cases hs with
  | refused | spared => exact .inl rfl
  | created hcan _ _ _ hc => exact .inr ⟨hc.objects, _, _, _, _, rfl, hcan⟩
  | scheduled _ hh | preempted _ hh => exact .inl hh.keeps.objects
  | killed _ _ _ _ he => exact .inl he.objects
  | exited he _ hh | killedCurrent _ he _ hh => exact .inl (hh.keeps.objects.trans he.objects)

theorem Steps.objects_le (hs : Steps s l L p op s' out) : s.objects ≤ s'.objects := by
  rcases hs.objects with hobjects | ⟨hobjects, -⟩ <;> omega

theorem Handover.steady (h : Handover s s' l L t n v m a b) (hn : n < s.objects) : s'.Steady l L n :=
  ⟨h.base, h.current, by rw [h.keeps.objects]; exact hn, h.running⟩

/-- A task keeps its identifier. -/
theorem Steps.pid (hs : Steps s l L p op s' out) (hu : u < s.objects) :
    (s'.task u).pid = (s.task u).pid := by
  cases hs with
  | refused | spared => rfl
  | created _ _ _ _ hc => exact hc.field Task.pid (fun _ _ => rfl) (Nat.ne_of_lt hu)
  | scheduled _ hh | preempted _ hh => exact hh.keeps.pid u
  | killed _ _ _ _ he => exact he.field Task.pid (fun _ _ _ _ => rfl) u
  | exited he _ hh | killedCurrent _ he _ hh =>
      exact (hh.keeps.pid u).trans (he.field Task.pid (fun _ _ _ _ => rfl) u)

/-- Handing the processor over brings no task to its end, and only the idle task to life again. -/
theorem Handover.zombie_iff (h : Handover s s' l' L p n v m a b) (hu : u < s.objects)
    (hp : p = u → (s.task u).state ≠ .zombie) (hn : n = u → (s.task u).state ≠ .zombie) :
    (s'.task u).state = .zombie ↔ (s.task u).state = .zombie := by
  by_cases hun : u = n
  · have hrun := (h.running u (h.keeps.objects ▸ hu)).mpr (hun ▸ rfl)
    simp [hrun, hn hun.symm]
  · by_cases hup : u = p
    · have hready := (h.left fun hpn => hun (hup.trans hpn)).1
      rw [← hup] at hready
      simp [hready, hp hup.symm]
    · rw [h.other u hup hun]

/-- The task that the queue has next is alive, unless it is the idle task. -/
theorem Base.nextOf_alive (h : s.Base l L) (hpos : 0 < u) (hu : nextOf l = u) :
    (s.task u).state ≠ .zombie := by
  rcases nextOf_cases l with hmem | ⟨-, h0⟩
  · rw [hu] at hmem
    simp [(h.queued u hmem).2.2]
  · omega

theorem Base.nextOf_returnQueue_alive (h : s.Base l L) (hp : p < s.objects) (now : Word)
    (hlive : (s.task p).state ≠ .zombie) (hpos : 0 < u) (hu : nextOf (s.returnQueue l p now) = u) :
    (s.task u).state ≠ .zombie := by
  rcases nextOf_cases (s.returnQueue l p now) with hmem | ⟨-, h0⟩
  · rw [hu] at hmem
    rcases (h.mem_returnQueue hp now u).mp hmem with hmem | ⟨rfl, -⟩
    · simp [(h.queued u hmem).2.2]
    · exact hlive
  · omega

/-- The call brings the task to its end. -/
def Op.Ends (s : Sched) (u : Nat) : Op → Prop
  | .exit _ _ _ => s.currentTask = some u
  | .kill task _ _ _ => task = some u
  | _ => False

/-- **The zombies after a call** are those before and the task it ends, the idle task apart. -/
theorem Steps.zombie_iff (hs : Steps s l L p op s' out) (h : s.Steady l L p) (hpos : 0 < u)
    (hlt : u < s.objects) : (s'.task u).state = .zombie ↔ (s.task u).state = .zombie ∨ op.Ends s u := by
  have hrunning := (h.mem_of_running).1
  have hlive : p = u → (s.task u).state ≠ .zombie := by
    rintro rfl
    simp [hrunning]
  have hended {s₁ : Sched} (he : Ended s s₁ p) (hn : nextOf l = u) :
      (s₁.task u).state ≠ .zombie := by
    have hup : u ≠ p := by
      rintro rfl
      rcases nextOf_cases l with hmem | ⟨-, h0⟩
      · exact (h.mem_of_running).2.2 (hn ▸ hmem)
      · omega
    rw [he.state u, if_neg hup]
    exact h.base.nextOf_alive hpos hn
  cases hs with
  | refused => simp [Op.Ends]
  | created _ _ _ _ hc =>
      rw [hc.field Task.state (fun _ _ => rfl) (Nat.ne_of_lt hlt)]
      simp [Op.Ends]
  | @scheduled now cpu label n _ hn hh =>
      subst hn
      rw [hh.zombie_iff hlt hlive
        (h.base.nextOf_returnQueue_alive h.lt now (by simp [hrunning]) hpos)]
      simp [Op.Ends]
  | @preempted regs now now' n _ hn hh =>
      subst hn
      have hstate : ∀ u, ((s.setContext p regs).task u).state = (s.task u).state := by
        intro u
        have hm := setContext_moved s p regs
        by_cases hup : u = p
        · rw [hup, hm.state]
        · rw [hm.other u hup]
      have hn := (h.setContext regs).base.nextOf_returnQueue_alive (p := p) (u := u)
        h.lt now (by simp [hstate, hrunning]) hpos
      rw [hstate] at hn
      rw [hh.zombie_iff hlt hlive hn]
      simp [Op.Ends]
  | spared hspared =>
      refine ⟨.inl, ?_⟩
      rintro (hz | hkill)
      · exact hz
      · rcases hspared u hkill with hpid | hz
        · have := h.base.pids u hpos hlt
          omega
        · exact hz
  | @killed t now cpu label _ _ _ _ _ he =>
      rw [he.state u]
      by_cases hut : u = t
      · simp [hut, Op.Ends]
      · simp [hut, Op.Ends, Ne.symm hut]
  | @exited now cpu label n s₁ _ he hn hh =>
      subst hn
      rw [hh.zombie_iff (he.objects ▸ hlt) (hended he) (hended he), he.state u]
      by_cases hup : u = p
      · simp [hup, Op.Ends, h.current]
      · simp [hup, Op.Ends, h.current, Ne.symm hup]
  | @killedCurrent now cpu label n s₁ _ _ he hn hh =>
      subst hn
      rw [hh.zombie_iff (he.objects ▸ hlt) (hended he) (hended he), he.state u]
      by_cases hup : u = p
      · simp [hup, Op.Ends]
      · simp [hup, Op.Ends, Ne.symm hup]

/-- A call that creates a task gives it an entry point. -/
def Op.HasEntry : Op → Prop
  | .create entry _ _ _ => entry ≠ 0
  | _ => True

/-- The call gets to `eevdf_enqueue`. -/
def Op.Enqueues (s : Sched) : Op → Prop
  | .create entry _ _ env => entry ≠ 0 ∧ s.CanCreate env
  | .schedule _ _ _ | .preempt _ _ _ =>
      ∃ p, s.currentTask = some p ∧ (s.task p).state = .running ∧ (s.task p).pid ≠ 0
  | _ => False

/-- No task is lost where the tasks that are put in the queue find a node. -/
theorem Handover.steady_admitted {l₁ : List Nat} (h : Handover s s' (l₁.erase n) L p n v m a b)
    (hn : n < s.objects) (hl₁ : ∀ u, u ∈ l₁ ↔ u ∈ l ∨ u = p ∧ 0 < p) :
    s'.Steady (l₁.erase n) L n ∧ (s.Admitted l → s'.Admitted (l₁.erase n)) :=
  ⟨h.steady hn, fun hadm => h.admitted hadm hl₁⟩

/-- So it is where the current task has ended and the next one starts. -/
theorem Handover.steady_ended (h : Handover s₁ s' (l.erase n) L n n v m a b) (he : Ended s s₁ p)
    (hn : n = nextOf l) (hlt : nextOf l < s.objects) :
    s'.Steady (l.erase n) L n ∧ (s.Admitted l → s'.Admitted (l.erase n)) := by
  have hlt₁ : n < s₁.objects := by
    rw [he.objects, hn]
    exact hlt
  have hmem : ∀ u, u ∈ l ↔ u ∈ l ∨ u = n ∧ 0 < n := by
    intro u
    constructor
    · exact .inl
    · rintro (hu | ⟨rfl, hpos⟩)
      · exact hu
      · rcases nextOf_cases l with hmem | ⟨-, h0⟩
        · exact hn ▸ hmem
        · omega
  obtain ⟨hsteady, hadm⟩ := h.steady_admitted hlt₁ hmem
  exact ⟨hsteady, fun hs => hadm (hs.ended he fun u hu _ => hu)⟩

theorem Steady.created (h : s.Steady l L p) {pid : Nat} {priority : Int} {stack : Word}
    {args : Option TaskArgs} (hpid : pidFree? s.pidBitmap = some pid)
    (hc : Created s s' pid (newTask pid entry priority stack args env)) (hqueue : s'.Queue l')
    (hsub : ∀ u ∈ l', u = s.objects ∨ u ∈ l) : s'.Steady l' (s.objects :: L) p := by
  have hpid' : (0 : Int) < pid := by
    have := (pidFree?_eq_some.mp hpid).2.1.1
    omega
  refine ⟨h.base.created hc rfl hpid' rfl hqueue hsub, hc.currentTask.trans h.current, ?_,
    h.running.created h.lt hc rfl⟩
  rw [hc.objects]
  exact Nat.lt_succ_of_lt h.lt

/-- What is queued after a task was created: that task at most, and what was queued before. -/
theorem mem_of_created {room : Prop} (hin : room → l'.Perm (n :: l)) (hout : ¬ room → l' = l)
    (hu : u ∈ l') : u = n ∨ u ∈ l := by
  by_cases hroom : room
  · exact List.mem_cons.mp ((hin hroom).mem_iff.mp hu)
  · exact .inr (hout hroom ▸ hu)

/-- **One call.** The state it leaves is steady again, and if a node was free for the task it queues,
it has lost none. -/
theorem Steps.steady (hs : Steps s l L p op s' out) (h : s.Steady l L p) :
    ∃ l' L' p', s'.Steady l' L' p' ∧
      (op.HasEntry → (op.Enqueues s → l.length < nodePoolSize) → s.Admitted l → s'.Admitted l') := by
  cases hs with
  | refused hcan => exact ⟨l, L, p, h, fun _ _ hadm => hadm⟩
  | @created entry priority args env pid stack _ l' hcan hpid hstack hqueue hc hin hout =>
      have hsteady := h.created hpid hc hqueue fun _ => mem_of_created hin hout
      refine ⟨l', s.objects :: L, p, hsteady, ?_⟩
      intro hentry hroom hadm
      refine hadm.created hc fun u hu => ?_
      exact (hin ⟨hentry, hroom ⟨hentry, hcan⟩⟩).mem_iff.mpr (List.mem_cons.mpr hu)
  | @scheduled now cpu label n _ hn hh =>
      have hlt := h.base.nextOf_returnQueue_lt h.lt now
      rw [← hn] at hlt
      obtain ⟨hsteady, hadm⟩ := hh.steady_admitted hlt (h.base.mem_returnQueue h.lt now)
      exact ⟨_, _, _, hsteady, fun _ _ => hadm⟩
  | @preempted regs now now' n _ hn hh =>
      have hbase := (h.setContext regs).base
      have hlt := hbase.nextOf_returnQueue_lt (p := p) h.lt now
      rw [← hn] at hlt
      obtain ⟨hsteady, hadm⟩ := hh.steady_admitted hlt (hbase.mem_returnQueue (p := p) h.lt now)
      exact ⟨_, _, _, hsteady, fun _ _ => hadm⟩
  | @exited now cpu label n s₁ _ he hn hh =>
      obtain ⟨hsteady, hadm⟩ := hh.steady_ended he hn h.base.nextOf_lt
      exact ⟨_, _, _, hsteady, fun _ _ => hadm⟩
  | spared hspared => exact ⟨l, L, p, h, fun _ _ hadm => hadm⟩
  | @killed t now cpu label _ hpos hlt hlive htp he hbase hcur =>
      have hrunning := h.running.ended he
      rw [if_neg htp] at hrunning
      refine ⟨_, _, p, ⟨hbase, hcur, by rw [he.objects]; exact h.lt, hrunning⟩, fun _ _ hadm => ?_⟩
      exact hadm.ended he fun u hu hut => (List.mem_erase_of_ne hut).mpr hu
  | @killedCurrent now cpu label n s₁ _ hpos he hn hh =>
      obtain ⟨hsteady, hadm⟩ := hh.steady_ended he hn h.base.nextOf_lt
      exact ⟨_, _, _, hsteady, fun _ _ => hadm⟩

/-! ## The start -/

theorem pidFree?_pidInit : pidFree? pidInit = some 1 := by
  refine pidFree?_eq_some.mpr ⟨rfl, ⟨Nat.le_refl 1, by simp [maxPid]⟩, fun i h1 h2 => ?_⟩
  omega

/-- The state `task_init` leaves: the idle task alone, running, with the identifier 0; but the
identifier it was created with is still taken. -/
structure Started (s : Sched) : Prop where
  steady : s.Steady [] [0] 0
  objects : s.objects = 1
  pidBitmap : s.pidBitmap = Function.update pidInit 1 true
  /-- no start time has been recorded for the idle task -/
  start : (s.task 0).context.x 23 = 0

/-- The context of a new task has no start time. -/
theorem newTask_start (pid : Nat) (entry : Word) (priority : Int) (stack : Word)
    (args : Option TaskArgs) (env : Outside) :
    (newTask pid entry priority stack args env).context.x 23 = 0 := by
  show (if entry = 0 then CpuContext.zero else entryContext entry stack args env).x 23 = 0
  split
  · rfl
  · simp [entryContext, CpuContext.setX]

theorem taskInit_eq_none {memory : Nat → Task} (h : env.object = false ∨ env.stack = none) :
    taskInit memory entry env = .error (.panic "Failed to create idle task" none) := by
  have hfail : env.object = false ∨ pidFree? (empty memory).pidBitmap = none ∨ env.stack = none :=
    h.imp_right .inr
  rw [taskInit, taskCreate_none hfail]
  rfl

theorem taskInit_some (memory : Nat → Task) (entry : Word) {stack : Word} (hobject : env.object = true)
    (hstack : env.stack = some stack) : ∃ s, taskInit memory entry env = .ok s ∧ s.Started := by
  have hqueue₀ : (empty memory).Queue [] := Eevdf.queue_init memory
  obtain ⟨s₁, l₁, hs₁, hqueue₁, hc, hin, hout⟩ :=
    taskCreate_some hqueue₀ List.not_mem_nil (by simp [empty]) hobject pidFree?_pidInit hstack entry 0
      none
  have hl₁ : l₁.erase 0 = [] := by
    by_cases hentry : entry ≠ 0 ∧ ([] : List Nat).length < nodePoolSize
    · have hperm : l₁ = [0] := List.perm_singleton.mp (hin hentry)
      rw [hperm]
      rfl
    · rw [hout hentry]
      rfl
  -- the idle task gets its identifier and leaves the queue it was created into
  set s₂ := s₁.setTask 0 { s₁.task 0 with pid := 0 } with hs₂
  have hqueue₂ : s₂.Queue l₁ := Eevdf.Queue.setTask hqueue₁ fun _ => rfl
  obtain ⟨q, hq, hqueue, htask, -⟩ := dequeue_ok hqueue₂ 0
  rw [hl₁] at hqueue
  set s : Sched := { ({ s₂ with toEevdf := q } : Sched).setState 0 .running with
    currentTask := some 0 } with hs
  have hinit : taskInit memory entry env = .ok s := by
    unfold taskInit
    rw [hs₁, Fault.ok_bind]
    show (do
      let s ← s₂.dequeue 0
      let s := s.setState 0 .running
      pure { s with currentTask := some 0 } : Except Fault Sched) = .ok s
    rw [hq]
    rfl
  obtain ⟨v, hnew⟩ := hc.new
  have hidle : s.task 0 = { newTask 1 entry 0 stack none env with
      vruntime := v, pid := 0, state := .running } := by
    show Function.update q.task 0 { q.task 0 with state := .running } 0 = _
    rw [Function.update_self, htask]
    show { Function.update s₁.task 0 { s₁.task 0 with pid := 0 } 0 with state := .running } = _
    rw [Function.update_self]
    have hnew' : s₁.task 0 = _ := hnew
    rw [hnew']
    rfl
  have hobjects : s.objects = 1 := hc.objects
  have hzero : ∀ t, t < s.objects → t = 0 := fun t ht => by omega
  refine ⟨s, hinit, ⟨⟨?_, ?_, List.pairwise_singleton _ _, by simp [hobjects], by rw [hidle], by simp,
    ?_, by simp, ?_⟩, rfl, by omega, ?_⟩, hobjects, hc.pidBitmap, by rw [hidle, newTask_start]⟩
  · exact Eevdf.Queue.setTask hqueue fun hmem => absurd hmem List.not_mem_nil
  · have hlist : s.taskList = some 0 := hc.taskList
    have hprev : (s.task 0).prev = none := by rw [hidle]; rfl
    have hnext : (s.task 0).next = none := by rw [hidle]; rfl
    exact ⟨hlist, hprev, hnext⟩
  · intro t hpos hlt
    have := hzero t hlt
    omega
  · intro t hlt _
    simp [hzero t hlt]
  · intro t hlt
    simp [hzero t hlt, hidle]

theorem taskInit_started {memory : Nat → Task} (h : taskInit memory entry env = .ok s) : s.Started := by
  have hobject : env.object = true := by
    by_contra hne
    rw [taskInit_eq_none (.inl (by simpa using hne))] at h
    exact absurd h (by simp)
  obtain ⟨stack, hstack⟩ : ∃ stack, env.stack = some stack := by
    refine Option.ne_none_iff_exists'.mp fun hnone => ?_
    rw [taskInit_eq_none (.inr hnone)] at h
    exact absurd h (by simp)
  obtain ⟨s', hs', hstarted⟩ := taskInit_some memory entry hobject hstack
  rw [h] at hs'
  rw [Except.ok.inj hs']
  exact hstarted

/-! ## Runs -/

/-- The state after a call that ends. -/
def next (s : Sched) (op : Op) : Option Sched := (s.step op).toOption.map Prod.fst

theorem next_eq_some : s.next op = some s' ↔ ∃ out, s.step op = .ok (s', out) := by
  unfold next
  cases s.step op with
  | error e => simp [Except.toOption]
  | ok r =>
      rcases r with ⟨s₁, out₁⟩
      simp [Except.toOption]

/-- **The invariant rule for runs.** What every call keeps, by the description of what it does, holds
in every state reached from a steady one. -/
theorem reach_invariant {ok : Sched → Op → Prop} (hok : ∀ s op, ok s op → op.Valid s) {P : Sched → Prop}
    (hsteady : ∃ l L p, s₁.Steady l L p) (hP : P s₁)
    (hstep : ∀ {s s' : Sched} {op : Op} {l L : List Nat} {p : Nat} {out : Option CpuContext}, s.Steady
      l L p → ok s op → Steps s l L p op s' out → P s → P s') (h : Machine.Reach next ok s₁ s) :
    (∃ l L p, s.Steady l L p) ∧ P s := by
  refine Machine.Reach.invariant (P := fun s => (∃ l L p, s.Steady l L p) ∧ P s) ⟨hsteady, hP⟩ ?_ h
  rintro s op s' ⟨⟨l, L, p, hsteady⟩, hP⟩ hop hs
  obtain ⟨out, hs⟩ := next_eq_some.mp hs
  have hsteps := hsteady.steps (hok s op hop) hs
  obtain ⟨l', L', p', hsteady', -⟩ := hsteps.steady hsteady
  exact ⟨⟨l', L', p', hsteady'⟩, hstep hsteady hop hsteps hP⟩

/-- The call is made with a task, a new task has an entry point, and where a task is to be queued
`alloc_node` has a node for it. -/
structure Op.Fits (s : Sched) (op : Op) : Prop where
  valid : op.Valid s
  entry : op.HasEntry
  node : op.Enqueues s → s.freeNode? ≠ none

theorem Steady.length_lt (h : s.Steady l L p) (hnode : s.freeNode? ≠ none) :
    l.length < nodePoolSize :=
  Nat.lt_of_le_of_ne h.base.queue.length_le (mt h.base.queue.members.freeNode_eq_none.mpr hnode)

/-- In runs that do not run out of nodes no task is lost. -/
theorem reach_admitted {s₀ : Sched} (h₀ : s₀.Started)
    (h : Machine.Reach next (fun s op => op.Fits s) s₀ s) :
    ∃ l L p, s.Steady l L p ∧ s.Admitted l := by
  refine Machine.Reach.invariant (P := fun s => ∃ l L p, s.Steady l L p ∧ s.Admitted l) ?_ ?_ h
  · refine ⟨_, _, _, h₀.steady, fun t hpos hlt _ => ?_⟩
    rw [h₀.objects] at hlt
    omega
  · rintro s op s' ⟨l, L, p, hsteady, hadm⟩ hfits hs
    obtain ⟨out, hs⟩ := next_eq_some.mp hs
    obtain ⟨l', L', p', hsteady', hadm'⟩ := (hsteady.steps hfits.valid hs).steady hsteady
    refine ⟨l', L', p', hsteady', hadm' hfits.entry (fun henq => ?_) hadm⟩
    exact hsteady.length_lt (hfits.node henq)

/-- The states of the tasks agree with the run queue and the current task. -/
structure Agree (s : Sched) : Prop where
  /-- a task other than the idle task is ready iff it is queued, and then exactly once -/
  ready : ∀ t, t < s.objects → (s.task t).pid ≠ 0 →
    ((s.task t).state = .ready ↔ ∃ n, s.tree.InTree n ∧ s.tree.val n = t) ∧
    ((s.task t).state = .ready → ∃! n, s.tree.InTree n ∧ s.tree.val n = t)
  running : ∀ t, t < s.objects → ((s.task t).state = .running ↔ s.currentTask = some t)
  queued : ∀ n, s.tree.InTree n → s.tree.val n < s.objects ∧
    (s.task (s.tree.val n)).state ≠ .zombie ∧ (s.task (s.tree.val n)).pid ≠ 0

theorem Steady.agree (h : s.Steady l L p) (hadm : s.Admitted l) : s.Agree where
  ready := by
    intro t hlt hpid
    have hpos : 0 < t := Nat.pos_of_ne_zero (mt (h.base.pid_eq_zero hlt).mpr hpid)
    have hready : (s.task t).state = .ready ↔ t ∈ l :=
      ⟨hadm t hpos hlt, fun hmem => (h.base.queued t hmem).2.2⟩
    refine ⟨?_, fun hst => h.base.queue.mem_iff.mp (hready.mp hst)⟩
    rw [hready]
    constructor
    · intro hmem
      exact (h.base.queue.mem_iff.mp hmem).exists
    · rintro ⟨n, hn, rfl⟩
      by_contra hmem
      exact h.base.queue.not_mem_iff.mp hmem n hn rfl
  running := by
    intro t hlt
    rw [h.current]
    exact h.running t hlt
  queued := by
    intro n hn
    have hmem : s.tree.val n ∈ l := by
      by_contra hmem
      exact h.base.queue.not_mem_iff.mp hmem n hn rfl
    obtain ⟨hpos, hlt, hstate⟩ := h.base.queued _ hmem
    refine ⟨hlt, by simp [hstate], ?_⟩
    have := h.base.pids _ hpos hlt
    omega

/-- **States, queue and current task agree.** In every run from `task_init` in which no
`eevdf_enqueue` runs out of nodes they agree between any two calls, and the next call ends without a
panic. -/
theorem reach_agree {memory : Nat → Task} {entry : Word} {env : Outside} {s₀ : Sched}
    (h₀ : taskInit memory entry env = .ok s₀)
    (h : Machine.Reach next (fun s op => op.Fits s) s₀ s) :
    s.Agree ∧ ∀ op : Op, op.Fits s → ∃ s' out, s.step op = .ok (s', out) := by
  obtain ⟨l, L, p, hsteady, hadm⟩ := reach_admitted (taskInit_started h₀) h
  refine ⟨hsteady.agree hadm, fun op hfits => ?_⟩
  have hroom : op.PutsBack → (s.task p).pid ≠ 0 → l.length < nodePoolSize := by
    intro hback hpid
    refine hsteady.length_lt (hfits.node ?_)
    have hstate := (hsteady.mem_of_running).1
    cases op with
    | schedule now cpu label => exact ⟨p, hsteady.current, hstate, hpid⟩
    | preempt regs now now' => exact ⟨p, hsteady.current, hstate, hpid⟩
    | create => exact absurd hback (by simp [Op.PutsBack])
    | exit => exact absurd hback (by simp [Op.PutsBack])
    | kill => exact absurd hback (by simp [Op.PutsBack])
  obtain ⟨s', out, hs', -⟩ := hsteady.step_ok hfits.valid hroom
  exact ⟨s', out, hs'⟩

/-- Memory that has not been written. -/
def blankTask : Task :=
  { pid := 0, state := .running, priority := 0, timeSlice := 0, vruntime := 0, context := .zero,
    kernelStack := 0, pgd := 0, next := none, prev := none }

/-- Surroundings in which tasks can be created. -/
def sampleOutside : Outside :=
  { object := true, stack := some 0x100000, ttbr1 := 0x4000, taskEntryWrapper := 0x2000,
    taskExit := 0x3000 }

instance (s : Sched) (op : Op) : Decidable (op.Valid s) :=
  match op with
  | .kill (some t) _ _ _ => inferInstanceAs (Decidable (t < s.objects))
  | .kill none _ _ _ | .create _ _ _ _ | .schedule _ _ _ | .preempt _ _ _ | .exit _ _ _ =>
      .isTrue trivial

/-- A run in these surroundings, with a check of each call before it is made. The state is what `start`
makes of the scheduler, so that a run can also keep a history. -/
def sampleRun {σ : Type} (step : σ → Op → Option σ) (start : Sched → σ) (check : σ → Op → Bool)
    (ops : List Op) : Option σ :=
  (taskInit (fun _ => blankTask) 0x1000 sampleOutside).toOption.bind fun s =>
    Machine.runWhile step check (start s) ops

theorem exists_sampleRun {σ : Type} (step : σ → Op → Option σ) (start : Sched → σ)
    {ok : σ → Op → Prop} {check : σ → Op → Bool} (hcheck : ∀ s op, check s op = true → ok s op)
    (ops : List Op) (f : σ → Bool) (h : (sampleRun step start check ops).any f = true) :
    ∃ s₀ s, taskInit (fun _ => blankTask) 0x1000 sampleOutside = .ok s₀ ∧
      Machine.Reach step ok (start s₀) s ∧ f s = true := by
  obtain ⟨s, hrun, hf⟩ := (Option.any_eq_true f _).mp h
  obtain ⟨s₀, hs₀, hs⟩ := Option.bind_eq_some_iff.mp hrun
  exact ⟨s₀, s, Fault.ok_of_toOption hs₀, Machine.reach_of_runWhile hcheck hs, hf⟩

/-- The check that a call is made with a task. -/
def Op.valid (s : Sched) (op : Op) : Bool := decide (op.Valid s)

theorem Op.valid_of_check (s : Sched) (op : Op) (h : op.valid s = true) : op.Valid s :=
  of_decide_eq_true h

/-- The check that a call fits. -/
def Op.fits (s : Sched) (op : Op) : Bool :=
  op.valid s && decide (s.freeNode? ≠ none) &&
    match op with
    | .create entry _ _ _ => decide (entry ≠ 0)
    | _ => true

theorem Op.fits_of_check (s : Sched) (op : Op) (h : op.fits s = true) : op.Fits s := by
  simp only [Op.fits, Bool.and_eq_true, decide_eq_true_eq] at h
  obtain ⟨⟨hvalid, hnode⟩, hentry⟩ := h
  refine ⟨Op.valid_of_check s op hvalid, ?_, fun _ => hnode⟩
  cases op with
  | create entry => exact show entry ≠ 0 from of_decide_eq_true hentry
  | schedule | preempt | exit | kill => exact trivial

theorem reach_agree_create :
    ∃ s₀ s, taskInit (fun _ => blankTask) 0x1000 sampleOutside = .ok s₀ ∧
      Machine.Reach next (fun s op => op.Fits s) s₀ s ∧ s.objects = 2 ∧ s.Agree ∧
      ∃ s' out, s.step (.schedule 5 .zero 0x5000) = .ok (s', out) := by
  obtain ⟨s₀, s, hs₀, hreach, hs⟩ := exists_sampleRun next id Op.fits_of_check
    [.create 0x2000 0 none sampleOutside]
    (fun s => decide (s.objects = 2) && Op.fits s (.schedule 5 .zero 0x5000)) (by decide +kernel)
  rw [Bool.and_eq_true] at hs
  obtain ⟨hagree, hnext⟩ := reach_agree hs₀ hreach
  exact ⟨s₀, s, hs₀, hreach, of_decide_eq_true hs.1, hagree, hnext _ (Op.fits_of_check s _ hs.2)⟩

end Sched

end Arcline
