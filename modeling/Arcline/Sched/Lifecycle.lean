import Arcline.Sched.Handover

set_option autoImplicit false

/-! # The life of a task

What creating, ending and killing a task does to the queue, the task list and the identifiers.
-/

namespace Arcline

namespace Sched

variable {s s' : Sched} {l l' L : List Nat} {t p : Nat}

/-! ## Identifiers -/

variable {bitmap : Nat → Bool} {pid : Nat}

theorem pidFree?_eq_some :
    pidFree? bitmap = some pid ↔ bitmap pid = false ∧ (1 ≤ pid ∧ pid < maxPid) ∧
      ∀ i, 1 ≤ i → i < pid → bitmap i = true := by
  have hmax : 1 ≤ maxPid := by simp [maxPid]
  rw [pidFree?, List.find?_range'_eq_some]
  have hmem : pid ∈ List.range' 1 (maxPid - 1) ↔ 1 ≤ pid ∧ pid < maxPid := by
    rw [List.mem_range'_1]
    omega
  rw [hmem]
  simp

theorem pidFree?_eq_none : pidFree? bitmap = none ↔ ∀ i, 1 ≤ i → i < maxPid → bitmap i = true := by
  have hmax : 1 ≤ maxPid := by simp [maxPid]
  rw [pidFree?, List.find?_eq_none]
  refine forall_congr' fun i => ?_
  rw [List.mem_range'_1]
  constructor
  · intro h h1 h2
    simpa using h (by omega)
  · intro h hi
    simpa using h hi.1 (by omega)

theorem pidFree_apply {pid : Int} (i : Nat) :
    pidFree bitmap pid i = if 0 < pid ∧ pid < maxPid ∧ (i : Int) = pid then false else bitmap i := by
  rw [pidFree]
  by_cases hout : pid ≤ 0 ∨ (maxPid : Int) ≤ pid
  · rw [if_pos hout, if_neg (by omega)]
  · rw [if_neg hout, Function.update_apply]
    by_cases hi : i = pid.toNat
    · rw [if_pos hi, if_pos (by omega)]
    · rw [if_neg hi, if_neg (by omega)]

/-- Giving an identifier back right after it was taken. -/
theorem pidFree_update (h : pidFree? bitmap = some pid) :
    pidFree (Function.update bitmap pid true) pid = bitmap := by
  obtain ⟨hclear, hrange, -⟩ := pidFree?_eq_some.mp h
  funext i
  rw [pidFree_apply, Function.update_apply]
  by_cases hi : i = pid
  · rw [if_pos (by omega), hi, hclear]
  · rw [if_neg (by omega), if_neg hi]

/-! ## Creating a task -/

theorem linkTask_task (h : s.taskList ≠ some t) (u : Nat) :
    (s.linkTask t).task u =
      if u = t then { s.task t with next := s.taskList }
      else if s.taskList = some u then { s.task u with prev := some t } else s.task u := by
  simp only [linkTask, setTask_taskList]
  cases hlist : s.taskList with
  | none =>
      show Function.update s.task t _ u = _
      by_cases hu : u = t
      · subst hu
        simp
      · simp [hu]
  | some x =>
      have hxt : x ≠ t := by
        rintro rfl
        exact h hlist
      show Function.update (Function.update s.task t _) x
        { Function.update s.task t _ x with prev := some t } u = _
      by_cases hu : u = t
      · subst hu
        simp [hxt.symm]
      · by_cases hux : u = x
        · subst hux
          simp [hu]
        · simp [hu, hux, Ne.symm hux]

theorem linkTask_frame (s : Sched) (t : Nat) :
    (s.linkTask t).pidBitmap = s.pidBitmap ∧ (s.linkTask t).currentTask = s.currentTask ∧
      (s.linkTask t).minVruntime = s.minVruntime := by
  unfold linkTask
  dsimp only
  split <;> exact ⟨rfl, rfl, rfl⟩

theorem linkTask_queue (h : s.Queue l) (t : Nat) : (s.linkTask t).Queue l := by
  have h₁ : (s.setTask t { s.task t with next := s.taskList }).Queue l :=
    Eevdf.Queue.setTask h fun _ => rfl
  unfold linkTask
  dsimp only
  split
  · exact h₁
  · exact Eevdf.Queue.setTask h₁ fun _ => rfl

/-- The task `task_create` has made, and what it has changed: the identifier is taken, the new task
is in front of the list, and the one behind it points back at it. -/
structure Created (s s' : Sched) (pid : Nat) (task : Task) : Prop where
  objects : s'.objects = s.objects + 1
  pidBitmap : s'.pidBitmap = Function.update s.pidBitmap pid true
  currentTask : s'.currentTask = s.currentTask
  taskList : s'.taskList = some s.objects
  minVruntime : s'.minVruntime = s.minVruntime
  /-- a task that is queued starts at the minimum of the queue at least -/
  least : s'.isQueued s.objects = true → s.minVruntime ≤ (s'.task s.objects).vruntime
  new : ∃ v, s'.task s.objects = { task with vruntime := v, next := s.taskList }
  old : ∀ u, u ≠ s.objects → s'.task u =
    if s.taskList = some u then { s.task u with prev := some s.objects } else s.task u

/-- A new task is queued if it has an entry point and a node is free. -/
theorem enqueueNew_ok (h : s.Queue l) (hready : (s.task t).state = .ready) (ht : t ∉ l)
    (entry : Word) :
    ∃ (q : Eevdf) (l' : List Nat) (v : Word), s.enqueueNew t entry = .ok { s with toEevdf := q } ∧
      q.Queue l' ∧ q.task = Function.update s.task t { s.task t with vruntime := v } ∧
      (entry ≠ 0 ∧ l.length < nodePoolSize → l'.Perm (t :: l)) ∧
      (¬ (entry ≠ 0 ∧ l.length < nodePoolSize) → l' = l) ∧ q.minVruntime = s.minVruntime ∧
      (entry ≠ 0 → s.minVruntime ≤ v) := by
  rw [enqueueNew]
  by_cases hentry : entry = 0
  · refine ⟨s.toEevdf, l, (s.task t).vruntime, if_pos hentry, h, ?_, fun hne => absurd hentry hne.1,
      fun _ => rfl, rfl, fun hne => absurd hentry hne⟩
    rw [Function.update_eq_self]
  · rw [if_neg hentry]
    by_cases hfree : l.length < nodePoolSize
    · obtain ⟨q, hq, hqueue, htask, hmin⟩ := enqueue_ok h hready ht hfree
      exact ⟨q, _, _, hq, hqueue, htask, fun _ => Eevdf.place_perm _ _ _ _,
        fun hne => absurd ⟨hentry, hfree⟩ hne, hmin, fun _ => s.toEevdf.le_entryVruntime t⟩
    · have hfull : l.length = nodePoolSize := Nat.le_antisymm h.length_le (Nat.le_of_not_lt hfree)
      exact ⟨s.toEevdf.setTask t (s.toEevdf.entryTask t), l, _, enqueue_full h hready hfull,
        h.setTask fun hmem => absurd hmem ht, rfl, fun hne => absurd hne.2 hfree, fun _ => rfl, rfl,
        fun _ => s.toEevdf.le_entryVruntime t⟩

theorem taskCreate_none {env : Outside}
    (h : env.object = false ∨ pidFree? s.pidBitmap = none ∨ env.stack = none) (entry : Word)
    (priority : Int) (args : Option TaskArgs) :
    s.taskCreate entry priority args env = .ok (none, s) := by
  unfold taskCreate
  by_cases hobject : env.object = false
  · rw [if_pos hobject]
  · rw [if_neg hobject]
    cases hpid : pidFree? s.pidBitmap with
    | none => rfl
    | some pid =>
        have hstack : env.stack = none := by simpa [hobject, hpid] using h
        dsimp only
        rw [hstack]
        dsimp only
        rw [pidFree_update hpid]

theorem taskCreate_some (h : s.Queue l) (hfresh : s.objects ∉ l) (hlist : s.taskList ≠ some s.objects)
    {env : Outside} {stack : Word} (hobject : env.object = true)
    (hpid : pidFree? s.pidBitmap = some pid) (hstack : env.stack = some stack) (entry : Word)
    (priority : Int) (args : Option TaskArgs) :
    ∃ s' l', s.taskCreate entry priority args env = .ok (some s.objects, s') ∧ s'.Queue l' ∧
      Created s s' pid (newTask pid entry priority stack args env) ∧
      (entry ≠ 0 ∧ l.length < nodePoolSize → l'.Perm (s.objects :: l)) ∧
      (¬ (entry ≠ 0 ∧ l.length < nodePoolSize) → l' = l) := by
  set task := newTask pid entry priority stack args env with htask
  set s₀ : Sched := { s with pidBitmap := Function.update s.pidBitmap pid true }.setTask s.objects
    task with hs₀
  have htask₀ : s₀.task = Function.update s.task s.objects task := rfl
  have hself : s₀.task s.objects = task := by rw [htask₀, Function.update_self]
  have hready : (s₀.task s.objects).state = .ready := by rw [hself]; rfl
  have hqueue₀ : s₀.Queue l := Eevdf.Queue.setTask h fun hmem => absurd hmem hfresh
  obtain ⟨q, l', v, hnew, hqueue, hq, hin, hout, hmin, hleast⟩ :=
    enqueueNew_ok hqueue₀ hready hfresh entry
  have hlist' : ({ s₀ with toEevdf := q } : Sched).taskList ≠ some s.objects := hlist
  have hlinked := linkTask_task hlist'
  have hqtask : ({ s₀ with toEevdf := q } : Sched).task =
      Function.update s.task s.objects { task with vruntime := v } := by
    show q.task = _
    rw [hq, hself, htask₀, Function.update_idem]
  have hlqueue : (({ s₀ with toEevdf := q } : Sched).linkTask s.objects).Queue l' :=
    linkTask_queue hqueue s.objects
  have hlnew : (({ s₀ with toEevdf := q } : Sched).linkTask s.objects).task s.objects =
      { task with vruntime := v, next := s.taskList } := by
    rw [hlinked, if_pos rfl, hqtask, Function.update_self]
    rfl
  refine ⟨{ ({ s₀ with toEevdf := q } : Sched).linkTask s.objects with objects := s.objects + 1 }, l',
    ?_, hlqueue, ⟨rfl, ?_, ?_, rfl, ?_, fun hqueued => ?_, ⟨v, hlnew⟩, fun u hu => ?_⟩, hin, hout⟩
  · unfold taskCreate
    rw [if_neg (by simp [hobject]), hpid]
    dsimp only
    rw [hstack]
    dsimp only
    rw [hnew]
    rfl
  · exact (linkTask_frame _ _).1
  · exact (linkTask_frame _ _).2.1
  · exact (linkTask_frame _ _).2.2.trans hmin
  · have hentry : entry ≠ 0 := by
      rintro rfl
      rw [hout (by simp)] at hlqueue
      exact hfresh (hlqueue.isQueued.mp hqueued)
    show s.minVruntime ≤ ((({ s₀ with toEevdf := q } : Sched).linkTask s.objects).task
      s.objects).vruntime
    rw [hlnew]
    exact hleast hentry
  · show (({ s₀ with toEevdf := q } : Sched).linkTask s.objects).task u = _
    rw [hlinked, if_neg hu, hqtask, Function.update_of_ne hu]
    rfl

section Created

variable {pid : Nat} {task : Task}

/-- Of an old task only the pointer back can change. -/
theorem Created.field (hc : Created s s' pid task) {β : Type} (f : Task → β)
    (hf : ∀ task prev, f { task with prev := prev } = f task) {u : Nat} (hu : u ≠ s.objects) :
    f (s'.task u) = f (s.task u) := by
  rw [hc.old u hu]
  split
  · exact hf _ _
  · rfl

theorem Base.created (h : s.Base l L) (hc : Created s s' pid task) (hready : task.state = .ready)
    (hpid : 0 < task.pid) (hprev : task.prev = none) (hq : s'.Queue l')
    (hl' : ∀ u ∈ l', u = s.objects ∨ u ∈ l) : s'.Base l' (s.objects :: L) := by
  obtain ⟨v, hnew⟩ := hc.new
  have hne : ∀ u, u < s.objects → u ≠ s.objects := fun u hu => Nat.ne_of_lt hu
  have hstate : ∀ u, u < s.objects → (s'.task u).state = (s.task u).state := fun u hu =>
    hc.field Task.state (fun _ _ => rfl) (hne u hu)
  have hpids : ∀ u, u < s.objects → (s'.task u).pid = (s.task u).pid := fun u hu =>
    hc.field Task.pid (fun _ _ => rfl) (hne u hu)
  refine ⟨hq, ?_, ?_, ?_, ?_, List.mem_cons_of_mem _ h.idle, ?_, ?_, ?_⟩
  · rw [hc.taskList]
    refine h.list.push h.nodup (by rw [hnew]) (by rw [hnew]; exact hprev) (fun y hy => ?_)
      fun y hy => ?_
    · exact hc.field Task.next (fun _ _ => rfl) (hne y (h.listed y hy))
    · rw [hc.old y (hne y (h.listed y hy))]
      split <;> rfl
  · exact List.pairwise_cons.mpr ⟨h.listed, h.newest⟩
  · intro u hu
    rw [hc.objects]
    rcases List.mem_cons.mp hu with rfl | hu
    · omega
    · have := h.listed u hu
      omega
  · exact (hpids 0 h.pos).trans h.idlePid
  · intro u hu hlt
    rw [hc.objects] at hlt
    rcases Nat.lt_or_eq_of_le (Nat.le_of_lt_succ hlt) with hlt | rfl
    · rw [hpids u hlt]
      exact h.pids u hu hlt
    · rw [hnew]
      exact hpid
  · intro u hu
    rw [hc.objects]
    rcases hl' u hu with rfl | hu
    · exact ⟨h.pos, Nat.lt_succ_self _, by rw [hnew]; exact hready⟩
    · obtain ⟨hpos, hlt, hst⟩ := h.queued u hu
      exact ⟨hpos, Nat.lt_succ_of_lt hlt, (hstate u hlt).trans hst⟩
  · intro u hlt hu
    rw [hc.objects] at hlt
    rcases Nat.lt_or_eq_of_le (Nat.le_of_lt_succ hlt) with hlt | rfl
    · exact List.mem_cons_of_mem _ (h.live u hlt (hstate u hlt ▸ hu))
    · exact List.mem_cons_self

theorem RunningIs.created (h : s.RunningIs (some p)) (hp : p < s.objects)
    (hc : Created s s' pid task) (hready : task.state = .ready) : s'.RunningIs (some p) := by
  intro u hlt
  rw [hc.objects] at hlt
  rcases Nat.lt_or_eq_of_le (Nat.le_of_lt_succ hlt) with hlt | rfl
  · rw [hc.field Task.state (fun _ _ => rfl) (Nat.ne_of_lt hlt)]
    exact h u hlt
  · obtain ⟨v, hnew⟩ := hc.new
    have hp' : p ≠ s.objects := Nat.ne_of_lt hp
    simp [hnew, hready, hp']

theorem Admitted.created (h : s.Admitted l) (hc : Created s s' pid task)
    (hl' : ∀ u, u = s.objects ∨ u ∈ l → u ∈ l') : s'.Admitted l' := by
  intro u hu hlt hready
  rw [hc.objects] at hlt
  rcases Nat.lt_or_eq_of_le (Nat.le_of_lt_succ hlt) with hlt | rfl
  · rw [hc.field Task.state (fun _ _ => rfl) (Nat.ne_of_lt hlt)] at hready
    exact hl' u (.inr (h u hu hlt hready))
  · exact hl' _ (.inl rfl)

end Created

/-! ## Ending a task -/

/-- Change the task that a pointer leads to, if it is not `NULL`. -/
def relink (s : Sched) (o : Option Nat) (f : Task → Task) : Sched :=
  match o with
  | none => s
  | some x => s.setTask x (f (s.task x))

theorem relink_task (s : Sched) (o : Option Nat) (f : Task → Task) (u : Nat) :
    (s.relink o f).task u = if o = some u then f (s.task u) else s.task u := by
  cases o with
  | none => simp [relink]
  | some x =>
      show Function.update s.task x (f (s.task x)) u = _
      by_cases hux : u = x
      · subst hux
        simp
      · simp [hux, Ne.symm hux]

theorem relink_eq (s : Sched) (o : Option Nat) (f : Task → Task) :
    s.relink o f = { s with task := (s.relink o f).task } := by
  cases o <;> rfl

theorem unlinkTask_eq (hp : (s.task t).prev ≠ some t) :
    s.unlinkTask t =
      let s' := (s.relink (s.task t).prev fun x => { x with next := (s.task t).next }).relink
        (s.task t).next fun x => { x with prev := (s.task t).prev }
      if s.taskList = some t then { s' with taskList := (s'.task t).next } else s' := by
  have hself : (s.relink (s.task t).prev fun x => { x with next := (s.task t).next }).task t =
      s.task t := by
    rw [relink_task, if_neg hp]
  show (let s₁ := s.relink (s.task t).prev fun x => { x with next := (s.task t).next }
    let s₂ := s₁.relink (s₁.task t).next fun x => { x with prev := (s₁.task t).prev }
    if s₂.taskList = some t then { s₂ with taskList := (s₂.task t).next } else s₂) = _
  dsimp only
  rw [hself, relink_eq, relink_eq s]

/-- The neighbours of the task in the list are linked past it, and so is the head of the list. -/
theorem unlinkTask_spec (hp : (s.task t).prev ≠ some t) :
    ∃ task : Nat → Task, s.unlinkTask t = { s with
        task := task
        taskList := if s.taskList = some t then (s.task t).next else s.taskList } ∧
      ∀ u, task u = { s.task u with
        next := if (s.task t).prev = some u then (s.task t).next else (s.task u).next
        prev := if (s.task t).next = some u then (s.task t).prev else (s.task u).prev } := by
  rw [unlinkTask_eq hp]
  set s₁ := s.relink (s.task t).prev fun x => { x with next := (s.task t).next } with hs₁
  set s₂ := s₁.relink (s.task t).next fun x => { x with prev := (s.task t).prev } with hs₂
  have htask : ∀ u, s₂.task u = { s.task u with
      next := if (s.task t).prev = some u then (s.task t).next else (s.task u).next
      prev := if (s.task t).next = some u then (s.task t).prev else (s.task u).prev } := by
    intro u
    rw [hs₂, relink_task, hs₁, relink_task]
    by_cases hpu : (s.task t).prev = some u <;> by_cases hnu : (s.task t).next = some u <;>
      simp [hpu, hnu]
  have hs₂' : s₂ = { s with task := s₂.task } := by
    rw [hs₂, relink_eq, hs₁, relink_eq s]
  refine ⟨s₂.task, ?_, htask⟩
  have hnext : (s₂.task t).next = (s.task t).next := by rw [htask, if_neg hp]
  dsimp only
  rw [hnext]
  by_cases hlist : s.taskList = some t
  · rw [if_pos hlist, if_pos hlist, hs₂']
  · rw [if_neg hlist, if_neg hlist, hs₂']

/-- The task `t` has ended: it is a zombie, its identifier is free, and of the other tasks only the
links may have changed. -/
structure Ended (s s' : Sched) (t : Nat) : Prop where
  objects : s'.objects = s.objects
  minVruntime : s'.minVruntime = s.minVruntime
  pidBitmap : s'.pidBitmap = pidFree s.pidBitmap (s.task t).pid
  task : ∀ u, ∃ next prev, s'.task u = { s.task u with
    state := if u = t then .zombie else (s.task u).state
    next := next
    prev := prev }

theorem Base.endTask (h : s.Base l L) (ht : t ∉ l) (hlt : t < s.objects) :
    (s.endTask t).Base l L := by
  have hm : Moved s (s.setState t .zombie) t .zombie (s.task t).vruntime (s.task t).context :=
    moved_of_update s (s.setState t .zombie) t { s.task t with state := .zombie } rfl rfl rfl rfl rfl
      rfl rfl
  have hq : (s.setState t .zombie).Queue l := Eevdf.Queue.setTask h.queue fun _ => rfl
  have hbase : (s.setState t .zombie).Base l L :=
    h.moved hm hq (fun u hu _ => hu) (fun hmem => absurd hmem ht) hlt fun hne => absurd rfl hne
  exact ⟨hbase.queue, hbase.list, hbase.newest, hbase.listed, hbase.idlePid, hbase.idle, hbase.pids,
    hbase.queued, hbase.live⟩

theorem endTask_task (s : Sched) (t u : Nat) :
    (s.endTask t).task u = { s.task u with
      state := if u = t then .zombie else (s.task u).state } := by
  show Function.update s.task t { s.task t with state := .zombie } u = _
  by_cases hut : u = t
  · subst hut
    simp
  · simp [hut]

theorem endTask_ended (s : Sched) (t : Nat) : Ended s (s.endTask t) t := by
  refine ⟨rfl, rfl, ?_, fun u => ⟨(s.task u).next, (s.task u).prev, endTask_task s t u⟩⟩
  show pidFree s.pidBitmap (Function.update s.task t { s.task t with state := .zombie } t).pid = _
  rw [Function.update_self]

/-- A zombie leaves the task list. -/
theorem Base.unlinkTask (h : s.Base l L) (hstate : (s.task t).state = .zombie) (ht : t ∈ L)
    (hpos : 0 < t) : (s.unlinkTask t).Base l (L.erase t) := by
  obtain ⟨l₁, l₂, hL⟩ := List.append_of_mem ht
  have hnodup := h.nodup
  have hlist := h.list
  rw [hL] at hnodup hlist
  have herase : L.erase t = l₁ ++ l₂ := by
    rw [hL, List.erase_append_right _ fun hmem => ?_, List.erase_cons_head]
    exact (List.nodup_append.mp hnodup).2.2 t hmem t List.mem_cons_self rfl
  have hp : (s.task t).prev ≠ some t := h.list.prev_ne h.nodup ht
  obtain ⟨task, hs, htask⟩ := unlinkTask_spec hp
  have hsub : ∀ u ∈ L.erase t, u ∈ L := fun u hu => List.mem_of_mem_erase hu
  rw [hs]
  refine ⟨?_, ?_, h.newest.sublist List.erase_sublist, fun u hu => h.listed u (hsub u hu), ?_,
    (List.mem_erase_of_ne (Nat.ne_of_lt hpos)).mpr h.idle, ?_, ?_, ?_⟩
  · refine h.queue.congr rfl rfl rfl fun u _ => ?_
    show (task u).vruntime = _
    rw [htask]
  · rw [herase]
    refine hlist.remove hnodup (fun y _ => by simp) rfl (fun y hy => ?_) fun y hy => ?_
    · show (task y).next = _
      rw [htask]
    · show (task y).prev = _
      rw [htask]
  · show (task 0).pid = 0
    rw [htask]
    exact h.idlePid
  · intro u hu hlt
    show 0 < (task u).pid
    rw [htask]
    exact h.pids u hu hlt
  · intro u hu
    show 0 < u ∧ u < s.objects ∧ (task u).state = .ready
    rw [htask]
    exact h.queued u hu
  · intro u hlt hu
    have hu' : (task u).state ≠ .zombie := hu
    rw [htask] at hu'
    have hut : u ≠ t := by
      rintro rfl
      exact hu' hstate
    exact (List.mem_erase_of_ne hut).mpr (h.live u hlt hu')

theorem Ended.unlinkTask (h : Ended s s' t) (hp : (s'.task t).prev ≠ some t) :
    Ended s (s'.unlinkTask t) t := by
  obtain ⟨task, hs, htask⟩ := unlinkTask_spec hp
  rw [hs]
  refine ⟨h.objects, h.minVruntime, h.pidBitmap, fun u => ?_⟩
  obtain ⟨next, prev, hu⟩ := h.task u
  refine ⟨(task u).next, (task u).prev, ?_⟩
  show task u = _
  rw [htask, hu]

theorem Ended.state (h : Ended s s' t) (u : Nat) :
    (s'.task u).state = if u = t then .zombie else (s.task u).state := by
  obtain ⟨next, prev, hu⟩ := h.task u
  rw [hu]

/-- The end of a task does not touch its other fields. -/
theorem Ended.field (h : Ended s s' t) {β : Type} (f : Task → β)
    (hf : ∀ task state next prev, f { task with state := state, next := next, prev := prev } = f task)
    (u : Nat) : f (s'.task u) = f (s.task u) := by
  obtain ⟨next, prev, hu⟩ := h.task u
  rw [hu]
  exact hf _ _ _ _

theorem RunningIs.ended (h : s.RunningIs (some p)) (he : Ended s s' t) :
    s'.RunningIs (if t = p then none else some p) := by
  intro u hlt
  have hu := h u (he.objects ▸ hlt)
  rw [he.state u]
  by_cases hut : u = t
  · subst hut
    by_cases hup : u = p
    · simp [hup]
    · simp [hup, Ne.symm hup]
  · rw [if_neg hut, hu]
    by_cases htp : t = p
    · simp [htp.symm, Ne.symm hut]
    · simp [htp]

theorem Admitted.ended (h : s.Admitted l) (he : Ended s s' t)
    (hl' : ∀ u ∈ l, u ≠ t → u ∈ l') : s'.Admitted l' := by
  intro u hu hlt hready
  rw [he.state u] at hready
  by_cases hut : u = t
  · rw [if_pos hut] at hready
    exact absurd hready (by simp)
  · rw [if_neg hut] at hready
    exact hl' u (h u hu (he.objects ▸ hlt) hready) hut

/-- Leaving the queue. -/
theorem Base.shrink {q : Eevdf} (h : s.Base l L) (hq : q.Queue l') (htask : q.task = s.task)
    (hl' : ∀ u ∈ l', u ∈ l) : ({ s with toEevdf := q } : Sched).Base l' L := by
  have hs : ({ s with toEevdf := q } : Sched).task = s.task := htask
  refine ⟨hq, ?_, h.newest, h.listed, ?_, h.idle, ?_, ?_, ?_⟩
  · rw [hs]
    exact h.list
  · rw [hs]
    exact h.idlePid
  · rw [hs]
    exact h.pids
  · rw [hs]
    exact fun u hu => h.queued u (hl' u hu)
  · rw [hs]
    exact h.live

theorem Base.dequeueReady (h : s.Base l L) (t : Nat) :
    ∃ q : Eevdf, s.dequeueReady t = .ok { s with toEevdf := q } ∧ q.task = s.task ∧
      q.minVruntime = s.minVruntime ∧
      ({ s with toEevdf := q } : Sched).Base (l.erase t) L := by
  unfold Sched.dequeueReady
  by_cases hready : (s.task t).state = .ready
  · obtain ⟨q, hq, hqueue, htask, hmin⟩ := dequeue_ok h.queue t
    exact ⟨q, by rw [if_pos hready, hq], htask, hmin,
      h.shrink hqueue htask fun u hu => List.mem_of_mem_erase hu⟩
  · refine ⟨s.toEevdf, by rw [if_neg hready], rfl, rfl, ?_⟩
    rw [List.erase_of_not_mem (h.notMem_of_state hready)]
    exact h

end Sched

end Arcline
