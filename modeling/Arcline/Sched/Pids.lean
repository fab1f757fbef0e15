import Arcline.Sched.Runs

set_option autoImplicit false

/-! # Process identifiers over runs

A task gives its identifier back when it ends, while a task that has exited stays in the task list; the
identifier may then go to a new task. Since new tasks are put in front of the list, and an identifier
goes only to a task that is newer than the last one that had it, a search finds the one that is alive.

The bitmap also marks the identifier 1, for good: `task_init` creates the idle task with it, and then
gives the idle task the identifier 0 without giving the other one back.
-/

namespace Arcline

namespace Sched

variable {s s' : Sched} {l l' L : List Nat} {t p : Nat} {op : Op} {out : Option CpuContext}

/-- A task other than the idle task that has not ended. -/
def Alive (s : Sched) (t : Nat) : Prop := 0 < t ∧ t < s.objects ∧ (s.task t).state ≠ .zombie

/-- What the identifiers satisfy in every state of a run. -/
structure Pids (s : Sched) : Prop where
  range : ∀ t, 0 < t → t < s.objects → 1 < (s.task t).pid ∧ (s.task t).pid < maxPid
  marked : ∀ i, s.pidBitmap i = true ↔ i ≤ 1 ∨ ∃ t, s.Alive t ∧ (s.task t).pid = i
  /-- the identifier of a task that is alive has not been given to a newer one -/
  newest : ∀ t u, s.Alive t → t < u → u < s.objects → (s.task u).pid ≠ (s.task t).pid

theorem Started.pids (h : s.Started) : s.Pids := by
  have hnone : ∀ t, 0 < t → ¬ t < s.objects := by
    intro t ht hlt
    rw [h.objects] at hlt
    omega
  refine ⟨fun t ht hlt => absurd hlt (hnone t ht), fun i => ?_, fun t u ht => ?_⟩
  · have hno : ¬ ∃ t, s.Alive t ∧ (s.task t).pid = i := fun ⟨t, ht, _⟩ => hnone t ht.1 ht.2.1
    rw [h.pidBitmap, or_iff_left hno, pidInit, Function.update_apply, Function.update_apply]
    split
    · simp [*]
    · split
      · simp [*]
      · simp
        omega
  · exact absurd ht.2.1 (hnone t ht.1)

/-- The identifiers depend on which tasks are alive, and on nothing else that scheduling changes. -/
theorem Pids.congr (h : s.Pids) (hobjects : s'.objects = s.objects)
    (hbitmap : s'.pidBitmap = s.pidBitmap)
    (hpid : ∀ t, 0 < t → t < s.objects → (s'.task t).pid = (s.task t).pid)
    (hzombie : ∀ t, 0 < t → t < s.objects →
      ((s'.task t).state = .zombie ↔ (s.task t).state = .zombie)) : s'.Pids := by
  have halive : ∀ t, s'.Alive t ↔ s.Alive t := by
    intro t
    unfold Alive
    rw [hobjects]
    refine and_congr_right fun hpos => and_congr_right fun hlt => ?_
    rw [ne_eq, hzombie t hpos hlt]
  refine ⟨fun t hpos hlt => ?_, fun i => ?_, fun t u ht htu hlt => ?_⟩
  · rw [hobjects] at hlt
    rw [hpid t hpos hlt]
    exact h.range t hpos hlt
  · rw [hbitmap, h.marked i]
    refine or_congr_right (exists_congr fun t => ?_)
    rw [halive t]
    refine and_congr_right fun ht => ?_
    rw [hpid t ht.1 ht.2.1]
  · rw [hobjects] at hlt
    rw [halive] at ht
    rw [hpid t ht.1 ht.2.1, hpid u (Nat.lt_trans ht.1 htu) hlt]
    exact h.newest t u ht htu hlt

theorem Pids.created (h : s.Pids) (hpos : 0 < s.objects) {pid : Nat} {task : Task}
    (hpid : pidFree? s.pidBitmap = some pid) (hc : Created s s' pid task) (htask : task.pid = pid)
    (hready : task.state = .ready) : s'.Pids := by
  obtain ⟨hclear, hrange, -⟩ := pidFree?_eq_some.mp hpid
  obtain ⟨v, hnew⟩ := hc.new
  have hnewPid : (s'.task s.objects).pid = pid := by
    rw [hnew]
    exact htask
  have hold : ∀ t, t < s.objects → (s'.task t).pid = (s.task t).pid := fun t hlt =>
    hc.field Task.pid (fun _ _ => rfl) (Nat.ne_of_lt hlt)
  have halive : ∀ t, s'.Alive t ↔ s.Alive t ∨ t = s.objects := by
    intro t
    unfold Alive
    rw [hc.objects]
    by_cases ht : t = s.objects
    · subst ht
      simp [hnew, hready, hpos]
    · rw [hc.field Task.state (fun _ _ => rfl) ht]
      simp only [ht, or_false]
      refine and_congr_right fun _ => and_congr_left fun _ => ?_
      omega
  have hone : pid ≠ 1 := by
    rintro rfl
    rw [(h.marked 1).mpr (.inl (Nat.le_refl 1))] at hclear
    exact absurd hclear (by simp)
  refine ⟨fun t ht hlt => ?_, fun i => ?_, fun t u ht htu hlt => ?_⟩
  · rw [hc.objects] at hlt
    rcases Nat.lt_or_eq_of_le (Nat.le_of_lt_succ hlt) with hlt | rfl
    · rw [hold t hlt]
      exact h.range t ht hlt
    · rw [hnewPid]
      omega
  · rw [hc.pidBitmap, Function.update_apply]
    by_cases hi : i = pid
    · subst hi
      rw [if_pos rfl]
      exact ⟨fun _ => .inr ⟨_, (halive _).mpr (.inr rfl), hnewPid⟩, fun _ => rfl⟩
    · rw [if_neg hi, h.marked i]
      refine or_congr_right ⟨?_, ?_⟩
      · rintro ⟨t, ht, hti⟩
        exact ⟨t, (halive t).mpr (.inl ht), (hold t ht.2.1).trans hti⟩
      · rintro ⟨t, ht, hti⟩
        rcases (halive t).mp ht with ht | rfl
        · exact ⟨t, ht, (hold t ht.2.1).symm.trans hti⟩
        · rw [hnewPid] at hti
          omega
  · rw [hc.objects] at hlt
    rcases (halive t).mp ht with ht | rfl
    · rcases Nat.lt_or_eq_of_le (Nat.le_of_lt_succ hlt) with hlt | rfl
      · rw [hold t ht.2.1, hold u hlt]
        exact h.newest t u ht htu hlt
      · -- the identifier of `t` is marked, so it is not the one that was free
        rw [hnewPid, hold t ht.2.1]
        intro heq
        rw [(h.marked pid).mpr (.inr ⟨t, ht, heq.symm⟩)] at hclear
        exact absurd hclear (by simp)
    · omega

theorem Pids.ended (h : s.Pids) (he : Ended s s' t) (ht : (s.task t).pid = 0 ∧ t = 0 ∨ s.Alive t) :
    s'.Pids := by
  have hpid : ∀ u, (s'.task u).pid = (s.task u).pid := he.field Task.pid fun _ _ _ _ => rfl
  have halive : ∀ u, s'.Alive u ↔ s.Alive u ∧ u ≠ t := by
    intro u
    unfold Alive
    rw [he.objects, he.state u]
    by_cases hut : u = t
    · simp [hut]
    · simp [hut]
  refine ⟨fun u hu hlt => ?_, fun i => ?_, fun u w hu huw hlt => ?_⟩
  · rw [hpid u]
    exact h.range u hu (he.objects ▸ hlt)
  · rw [he.pidBitmap, pidFree_apply]
    rcases ht with ⟨hzero, rfl⟩ | ht
    · rw [if_neg (by omega), h.marked i]
      refine or_congr_right (exists_congr fun u => ?_)
      rw [halive u, hpid u]
      constructor
      · rintro ⟨hu, hui⟩
        exact ⟨⟨hu, Nat.ne_of_gt hu.1⟩, hui⟩
      · rintro ⟨⟨hu, -⟩, hui⟩
        exact ⟨hu, hui⟩
    · have hrange := h.range t ht.1 ht.2.1
      by_cases hi : (i : Int) = (s.task t).pid
      · rw [if_pos ⟨by omega, hrange.2, hi⟩]
        refine ⟨fun hfalse => absurd hfalse (by simp), ?_⟩
        rintro (hle | ⟨u, hu, hui⟩)
        · omega
        · -- no other task that is alive has the identifier
          obtain ⟨hu, hut⟩ := (halive u).mp hu
          rw [hpid u, hi] at hui
          rcases Nat.lt_or_gt_of_ne hut with hlt | hgt
          · exact absurd hui.symm (h.newest u t hu hlt ht.2.1)
          · exact absurd hui (h.newest t u ht hgt hu.2.1)
      · rw [if_neg fun hcond => hi hcond.2.2, h.marked i]
        refine or_congr_right (exists_congr fun u => ?_)
        rw [halive u, hpid u]
        constructor
        · rintro ⟨hu, hui⟩
          refine ⟨⟨hu, ?_⟩, hui⟩
          rintro rfl
          exact hi hui.symm
        · rintro ⟨⟨hu, -⟩, hui⟩
          exact ⟨hu, hui⟩
  · obtain ⟨hu, -⟩ := (halive u).mp hu
    rw [hpid u, hpid w]
    exact h.newest u w hu huw (he.objects ▸ hlt)

theorem Handover.pids {n : Nat} {v m : Word} {a b : CpuContext} (h : Handover s s' l' L p n v m a b)
    (hpids : s.Pids)
    (hzombie : ∀ u, 0 < u → u < s.objects →
      ((s'.task u).state = .zombie ↔ (s.task u).state = .zombie)) : s'.Pids :=
  hpids.congr h.keeps.objects h.keeps.pidBitmap (fun u _ _ => h.keeps.pid u) hzombie

theorem Steps.pids (hs : Steps s l L p op s' out) (h : s.Steady l L p) (hpids : s.Pids) :
    s'.Pids := by
  have hzombie : ∀ u, 0 < u → u < s.objects →
      ((s'.task u).state = .zombie ↔ (s.task u).state = .zombie ∨ op.Ends s u) := fun u hpos hlt =>
    hs.zombie_iff h hpos hlt
  have hp : (s.task p).pid = 0 ∧ p = 0 ∨ s.Alive p := by
    rcases Nat.eq_zero_or_pos p with rfl | hpos
    · exact .inl ⟨h.base.idlePid, rfl⟩
    · refine .inr ⟨hpos, h.lt, ?_⟩
      simp [(h.mem_of_running).1]
  -- where the current task ends, the handover starts from the state in which it has ended
  have hended {s₁ : Sched} (he : Ended s s₁ p) (hends : ∀ u, op.Ends s u ↔ u = p) :
      ∀ u, 0 < u → u < s₁.objects →
        ((s'.task u).state = .zombie ↔ (s₁.task u).state = .zombie) := by
    intro u hpos hlt
    rw [hzombie u hpos (he.objects ▸ hlt), he.state u, hends u]
    by_cases hup : u = p
    · simp [hup]
    · simp [hup]
  cases hs with
  | refused | spared => exact hpids
  | created hcan hpid hstack hqueue hc => exact hpids.created h.base.pos hpid hc rfl rfl
  | scheduled _ hh | preempted _ hh =>
      refine hh.pids hpids fun u hpos hlt => ?_
      rw [hzombie u hpos hlt]
      simp [Op.Ends]
  | killed hpos hlt hlive _ he => exact hpids.ended he (.inr ⟨hpos, hlt, hlive⟩)
  | exited he hn hh =>
      exact hh.pids (hpids.ended he hp) (hended he fun u => by simp [Op.Ends, h.current, eq_comm])
  | killedCurrent _ he hn hh =>
      exact hh.pids (hpids.ended he hp) (hended he fun u => by simp [Op.Ends, eq_comm])

theorem reach_pids {s₀ : Sched} (h₀ : s₀.Started)
    (h : Machine.Reach next (fun s op => op.Valid s) s₀ s) :
    (∃ l L p, s.Steady l L p) ∧ s.Pids :=
  reach_invariant (fun _ _ hop => hop) ⟨_, _, _, h₀.steady⟩ h₀.pids
    (fun hsteady _ hsteps hpids => hsteps.pids hsteady hpids) h

/-! ## The search for an identifier -/

/-- The task has not ended; this may be the idle task. -/
def Holds (s : Sched) (t : Nat) (pid : Int) : Prop :=
  t < s.objects ∧ (s.task t).state ≠ .zombie ∧ (s.task t).pid = pid

/-- A newer task than one that has not ended has another identifier. -/
theorem Steady.newer_pid (h : s.Steady l L p) (hpids : s.Pids) {pid : Int} (ht : s.Holds t pid)
    {u : Nat} (htu : t < u) (hu : u < s.objects) : (s.task u).pid ≠ pid := by
  obtain ⟨hlt, hlive, rfl⟩ := ht
  rcases Nat.eq_zero_or_pos t with rfl | hpos
  · rw [h.base.idlePid]
    have := h.base.pids u htu hu
    omega
  · exact hpids.newest t u ⟨hpos, hlt, hlive⟩ htu hu

theorem Steady.holds_unique (h : s.Steady l L p) (hpids : s.Pids) {pid : Int} {u : Nat}
    (ht : s.Holds t pid) (hu : s.Holds u pid) : t = u := by
  rcases Nat.lt_trichotomy t u with hlt | heq | hgt
  · exact absurd hu.2.2 (h.newer_pid hpids ht hlt hu.1)
  · exact heq
  · exact absurd ht.2.2 (h.newer_pid hpids hu hgt ht.1)

/-- The search meets the newest task with the identifier first, and that is the one alive. -/
theorem Steady.taskFindByPid (h : s.Steady l L p) (hpids : s.Pids) {pid : Int}
    (ht : s.Holds t pid) : s.taskFindByPid pid = .ok (some t) := by
  rw [h.base.taskFindByPid]
  have htL : t ∈ L := h.base.live t ht.1 ht.2.1
  have hsome : (L.find? fun u => (s.task u).pid = pid).isSome :=
    List.find?_isSome.mpr ⟨t, htL, by simpa using ht.2.2⟩
  obtain ⟨u, hu⟩ := Option.isSome_iff_exists.mp hsome
  rw [hu]
  obtain ⟨hpid, l₁, l₂, hL, hbefore⟩ := List.find?_eq_some_iff_append.mp hu
  have hnewest := h.base.newest
  rw [hL, List.pairwise_append] at hnewest
  rw [hL, List.mem_append, List.mem_cons] at htL
  rcases htL with hmem | rfl | hmem
  · have := hbefore t hmem
    simp [ht.2.2] at this
  · rfl
  · have hlt : t < u := (List.pairwise_cons.mp hnewest.2.1).1 t hmem
    have hu' : u < s.objects := h.base.listed u (List.mem_of_find?_eq_some hu)
    exact absurd (by simpa using hpid) (h.newer_pid hpids ht hlt hu')

/-- **Identifiers name the tasks that are alive.** In every state of a run no two tasks that have not
ended have the same identifier, the search for an identifier finds the task that holds it, whatever
zombies have had it before, and `sys_kill` acts on that task, or, if there is none, on no task. -/
theorem pid_names_live_task {memory : Nat → Task} {idle : Word} {env : Outside} {s₀ : Sched}
    (h₀ : taskInit memory idle env = .ok s₀)
    (h : Machine.Reach next (fun s op => op.Valid s) s₀ s) :
    (∀ t u pid, s.Holds t pid → s.Holds u pid → t = u) ∧
    (∀ t pid, s.Holds t pid → s.taskFindByPid pid = .ok (some t) ∧
      ∀ now cpu label, s.sysKill pid now cpu label = s.taskKill (some t) now cpu label) ∧
    ∀ pid, (¬ ∃ t, s.Holds t pid) →
      ∀ now cpu label, ∃ r, s.sysKill pid now cpu label = .ok (r, s, cpu) := by
  obtain ⟨⟨l, L, p, hsteady⟩, hpids⟩ := reach_pids (taskInit_started h₀) h
  refine ⟨fun t u pid ht hu => hsteady.holds_unique hpids ht hu, fun t pid ht => ?_,
    fun pid hno now cpu label => ?_⟩
  · have hfind := hsteady.taskFindByPid hpids ht
    refine ⟨hfind, fun now cpu label => ?_⟩
    rw [sysKill, hfind]
    rfl
  · rw [sysKill, hsteady.base.taskFindByPid]
    cases hfind : L.find? fun t => (s.task t).pid = pid with
    | none => exact ⟨-1, rfl⟩
    | some t =>
        -- a zombie that had the identifier
        have hpid : (s.task t).pid = pid := by simpa using List.find?_some hfind
        have hlt := hsteady.base.listed t (List.mem_of_find?_eq_some hfind)
        have hzombie : (s.task t).state = .zombie := by
          by_contra hlive
          exact hno ⟨t, hlt, hlive, hpid⟩
        rw [Fault.ok_bind]
        show ∃ r, s.taskKill (some t) now cpu label = .ok (r, s, cpu)
        rw [taskKill]
        by_cases hzero : (s.task t).pid = 0
        · exact ⟨-1, by rw [if_pos hzero]⟩
        · exact ⟨0, by rw [if_neg hzero, if_pos hzombie]⟩

/-- The second task has the identifier of the first one, which has exited and is still listed. -/
theorem pid_names_live_task_recycled :
    ∃ s₀ s, taskInit (fun _ => blankTask) 0x1000 sampleOutside = .ok s₀ ∧
      Machine.Reach next (fun s op => op.Valid s) s₀ s ∧ (s.task 1).pid = 2 ∧
      (s.task 2).pid = 2 ∧ s.taskFindByPid 2 = .ok (some 2) := by
  obtain ⟨s₀, s, hs₀, hreach, hs⟩ := exists_sampleRun next id Op.valid_of_check
    [.create 0x2000 0 none sampleOutside, .schedule 5 .zero 0x5000, .exit 9 .zero 0x5000,
      .create 0x2000 0 none sampleOutside]
    (fun s => decide (s.objects = 3 ∧ (s.task 1).pid = 2 ∧ (s.task 2).pid = 2 ∧
      (s.task 2).state = .ready)) (by decide +kernel)
  obtain ⟨hobjects, hfirst, hsecond, hready⟩ := of_decide_eq_true hs
  refine ⟨s₀, s, hs₀, hreach, hfirst, hsecond, ?_⟩
  exact ((pid_names_live_task hs₀ hreach).2.1 2 2 ⟨by omega, by simp [hready], hsecond⟩).1

/-! ## The bitmap -/

/-- The bitmap marks the identifier 0 and those of the tasks that have not ended, and no others. -/
def ExactBitmap (s : Sched) : Prop :=
  ∀ i < maxPid, s.pidBitmap i = true ↔ i = 0 ∨ ∃ t, s.Holds t i

theorem Steady.marked (h : s.Steady l L p) (hpids : s.Pids) (i : Nat) :
    s.pidBitmap i = true ↔ i ≤ 1 ∨ ∃ t, s.Holds t i := by
  rw [hpids.marked i]
  constructor
  · rintro (hi | ⟨t, ht, hti⟩)
    · exact .inl hi
    · exact .inr ⟨t, ht.2.1, ht.2.2, hti⟩
  · rintro (hi | ⟨t, hlt, hlive, hti⟩)
    · exact .inl hi
    · rcases Nat.eq_zero_or_pos t with rfl | hpos
      · rw [h.base.idlePid] at hti
        exact .inl (by omega)
      · exact .inr ⟨t, ⟨hpos, hlt, hlive⟩, hti⟩

theorem Steady.not_holds_one (h : s.Steady l L p) (hpids : s.Pids) : ¬ ∃ t, s.Holds t 1 := by
  rintro ⟨t, hlt, -, hti⟩
  rcases Nat.eq_zero_or_pos t with rfl | hpos
  · rw [h.base.idlePid] at hti
    exact absurd hti (by decide)
  · have := (hpids.range t hpos hlt).1
    omega

/-- **The identifier 1 is lost.** In every state of a run the bitmap marks the identifiers 0 and 1 and
those of the tasks that have not ended, and no task has the identifier 1; so the bitmap is never
exact, and `pid_alloc` fails when the other identifiers are in use. -/
theorem pid_one_leaked {memory : Nat → Task} {idle : Word} {env : Outside} {s₀ : Sched}
    (h₀ : taskInit memory idle env = .ok s₀)
    (h : Machine.Reach next (fun s op => op.Valid s) s₀ s) :
    ¬ s.ExactBitmap ∧ (¬ ∃ t, s.Holds t 1) ∧
      (∀ i, s.pidBitmap i = true ↔ i ≤ 1 ∨ ∃ t, s.Holds t i) ∧
      (pidFree? s.pidBitmap = none ↔ ∀ i : Nat, 2 ≤ i → i < maxPid → ∃ t, s.Holds t i) := by
  obtain ⟨⟨l, L, p, hsteady⟩, hpids⟩ := reach_pids (taskInit_started h₀) h
  have hmarked := hsteady.marked hpids
  have hone := hsteady.not_holds_one hpids
  refine ⟨fun hexact => ?_, hone, hmarked, ?_⟩
  · rcases (hexact 1 (by simp [maxPid])).mp ((hmarked 1).mpr (.inl (Nat.le_refl 1))) with h1 | h1
    · exact absurd h1 (by decide)
    · exact hone h1
  · rw [pidFree?_eq_none]
    constructor
    · intro hall i hi hmax
      rcases (hmarked i).mp (hall i (by omega) hmax) with hle | hheld
      · omega
      · exact hheld
    · intro hall i hi hmax
      refine (hmarked i).mpr ?_
      by_cases hle : i ≤ 1
      · exact .inl hle
      · exact .inr (hall i (by omega) hmax)

theorem pid_one_leaked_create :
    ∃ s₀ s, taskInit (fun _ => blankTask) 0x1000 sampleOutside = .ok s₀ ∧
      Machine.Reach next (fun s op => op.Valid s) s₀ s ∧ (s.task 1).pid = 2 ∧ ¬ s.ExactBitmap := by
  obtain ⟨s₀, s, hs₀, hreach, hs⟩ := exists_sampleRun next id Op.valid_of_check
    [.create 0x2000 0 none sampleOutside]
    (fun s => decide ((s.task 1).pid = 2)) (by decide +kernel)
  exact ⟨s₀, s, hs₀, hreach, of_decide_eq_true hs, (pid_one_leaked hs₀ hreach).1⟩

/-- Right after `task_init` the identifier 1 is taken, and no task has it. -/
theorem taskInit_marks_one :
    ∃ s₀, taskInit (fun _ => blankTask) 0x1000 sampleOutside = .ok s₀ ∧
      s₀.pidBitmap 1 = true ∧ s₀.objects = 1 ∧ (s₀.task 0).pid = 0 ∧ ¬ s₀.ExactBitmap := by
  obtain ⟨s₀, hs₀, hstart⟩ := taskInit_some (fun _ => blankTask) 0x1000
    (show sampleOutside.object = true from rfl) rfl
  have hbit : s₀.pidBitmap 1 = true := by
    rw [hstart.pidBitmap]
    rfl
  refine ⟨s₀, hs₀, hbit, hstart.objects, hstart.steady.base.idlePid, fun hexact => ?_⟩
  rcases (hexact 1 (by simp [maxPid])).mp hbit with h1 | ⟨t, hlt, -, hpid⟩
  · exact absurd h1 (by decide)
  · obtain rfl : t = 0 := by
      rw [hstart.objects] at hlt
      omega
    rw [hstart.steady.base.idlePid] at hpid
    exact absurd hpid (by decide)

/-! ## Zombies -/

/-- The call is made with a task, and `task_exit` is not called by the idle task. -/
structure Op.SparesIdle (s : Sched) (op : Op) : Prop where
  valid : op.Valid s
  exit : ∀ now cpu label t, op = .exit now cpu label → s.currentTask = some t → (s.task t).pid ≠ 0

theorem Steps.idle_alive (hs : Steps s l L p op s' out) (h : s.Steady l L p)
    (hspares : op.SparesIdle s) (hidle : (s.task 0).state ≠ .zombie) :
    (s'.task 0).state ≠ .zombie := by
  have hpos := h.base.pos
  cases hs with
  | refused | spared => exact hidle
  | created _ _ _ _ hc =>
      rw [hc.field Task.state (fun _ _ => rfl) (Nat.ne_of_lt hpos)]
      exact hidle
  | scheduled _ hh | preempted _ hh =>
      rw [ne_eq, hh.zombie_iff hpos (fun _ => hidle) fun _ => hidle]
      exact hidle
  | killed ht _ _ _ he =>
      rw [he.state, if_neg (Nat.ne_of_lt ht)]
      exact hidle
  | @exited now cpu label n s₁ _ he hn hh =>
      have hp : 0 ≠ p := by
        rintro rfl
        exact hspares.exit now cpu label 0 rfl h.current h.base.idlePid
      have hidle₁ : (s₁.task 0).state ≠ .zombie := by
        rw [he.state, if_neg hp]
        exact hidle
      rw [ne_eq, hh.zombie_iff (he.objects ▸ hpos) (fun _ => hidle₁) fun _ => hidle₁]
      exact hidle₁
  | @killedCurrent now cpu label n s₁ _ hp he hn hh =>
      have hidle₁ : (s₁.task 0).state ≠ .zombie := by
        rw [he.state, if_neg (Nat.ne_of_lt hp)]
        exact hidle
      rw [ne_eq, hh.zombie_iff (he.objects ▸ hpos) (fun _ => hidle₁) fun _ => hidle₁]
      exact hidle₁

theorem Started.idle_alive (h : s.Started) : (s.task 0).state ≠ .zombie := by
  simp [(h.steady.mem_of_running).1]

theorem reach_idle_alive {s₁ : Sched} (hsteady : ∃ l L p, s₁.Steady l L p)
    (hidle : (s₁.task 0).state ≠ .zombie)
    (h : Machine.Reach next (fun s op => op.SparesIdle s) s₁ s) :
    (∃ l L p, s.Steady l L p) ∧ (s.task 0).state ≠ .zombie :=
  reach_invariant (fun _ _ hop => hop.valid) hsteady hidle
    (fun hsteady hspares hsteps hidle => hsteps.idle_alive hsteady hspares hidle) h

/-- A task other than the idle task stays a zombie. -/
theorem reach_zombie {s₁ : Sched} (hsteady : ∃ l L p, s₁.Steady l L p) (hpos : 0 < t)
    (hlt : t < s₁.objects) (hz : (s₁.task t).state = .zombie)
    (h : Machine.Reach next (fun s op => op.Valid s) s₁ s) :
    t < s.objects ∧ (s.task t).state = .zombie := by
  have hinv := reach_invariant (P := fun s => t < s.objects ∧ (s.task t).state = .zombie)
    (fun _ _ hop => hop) hsteady ⟨hlt, hz⟩
    (fun hsteady _ hsteps ⟨hlt, hz⟩ =>
      ⟨hlt.trans_le hsteps.objects_le, (hsteps.zombie_iff hsteady hpos hlt).mpr (.inl hz)⟩) h
  exact hinv.2

/-- **The dead stay dead.** In runs in which the idle task does not call `task_exit`, a task that is a
zombie is one in every later state, and not the current task. -/
theorem zombie_stays_dead {memory : Nat → Task} {idle : Word} {env : Outside} {s₀ : Sched}
    (h₀ : taskInit memory idle env = .ok s₀)
    (h : Machine.Reach next (fun s op => op.SparesIdle s) s₀ s) (hlt : t < s.objects)
    (hz : (s.task t).state = .zombie)
    (h' : Machine.Reach next (fun s op => op.SparesIdle s) s s') :
    (s'.task t).state = .zombie ∧ s'.currentTask ≠ some t := by
  have hstart := taskInit_started h₀
  obtain ⟨hsteady, hidle⟩ := reach_idle_alive ⟨_, _, _, hstart.steady⟩ hstart.idle_alive h
  have hpos : 0 < t := by
    rcases Nat.eq_zero_or_pos t with rfl | hpos
    · exact absurd hz hidle
    · exact hpos
  obtain ⟨hlt', hz'⟩ := reach_zombie hsteady hpos hlt hz (h'.mono fun _ _ hop => hop.valid)
  obtain ⟨⟨l, L, p, hsteady'⟩, -⟩ := reach_idle_alive hsteady hidle h'
  refine ⟨hz', fun hcur => ?_⟩
  rw [hsteady'.current] at hcur
  rw [(hsteady'.running t hlt').mpr hcur] at hz'
  exact absurd hz' (by simp)

/-- The check that a call is made with a task and is not an exit of the idle task. -/
def Op.sparesIdle (s : Sched) (op : Op) : Bool :=
  op.valid s &&
    match op with
    | .exit _ _ _ => s.currentTask.all fun t => decide ((s.task t).pid ≠ 0)
    | _ => true

theorem Op.sparesIdle_of_check (s : Sched) (op : Op) (h : op.sparesIdle s = true) :
    op.SparesIdle s := by
  unfold Op.sparesIdle at h
  rw [Bool.and_eq_true] at h
  refine ⟨Op.valid_of_check s op h.1, ?_⟩
  rintro now cpu label t rfl hcur
  have h' : (s.currentTask.all fun t => decide ((s.task t).pid ≠ 0)) = true := h.2
  rw [hcur] at h'
  exact of_decide_eq_true h'

theorem zombie_stays_dead_first :
    ∃ s₀ s s', taskInit (fun _ => blankTask) 0x1000 sampleOutside = .ok s₀ ∧
      Machine.Reach next (fun s op => op.SparesIdle s) s₀ s ∧ (s.task 1).state = .zombie ∧
      Machine.Reach next (fun s op => op.SparesIdle s) s s' ∧ s'.currentTask = some 2 ∧
      (s'.task 1).state = .zombie := by
  obtain ⟨s₀, s, hs₀, hreach, hs⟩ := exists_sampleRun next id Op.sparesIdle_of_check
    [.create 0x2000 0 none sampleOutside, .schedule 5 .zero 0x5000, .exit 9 .zero 0x5000]
    (fun s => decide (s.objects = 2 ∧ (s.task 1).state = .zombie) &&
      (Machine.runWhile next (fun s op => op.sparesIdle s) s
        [.create 0x2000 0 none sampleOutside, .schedule 5 .zero 0x5000]).any fun s' : Sched =>
          decide (s'.currentTask = some 2)) (by decide +kernel)
  rw [Bool.and_eq_true, Option.any_eq_true] at hs
  obtain ⟨hz, s', hs', hcur⟩ := hs
  obtain ⟨hobjects, hz⟩ := of_decide_eq_true hz
  have hreach' := Machine.reach_of_runWhile Op.sparesIdle_of_check hs'
  exact ⟨s₀, s, s', hs₀, hreach, hz, hreach', of_decide_eq_true hcur,
    (zombie_stays_dead hs₀ hreach (by omega) hz hreach').1⟩

/-- The idle task exits, and is the current task again when the queue is empty. -/
theorem idle_zombie_runs_again :
    ∃ s₀ s s', taskInit (fun _ => blankTask) 0x1000 sampleOutside = .ok s₀ ∧
      Machine.Reach next (fun s op => op.Valid s) s₀ s ∧ (s.task 0).state = .zombie ∧
      s.next (.exit 9 .zero 0x5000) = some s' ∧ (s'.task 0).state = .running ∧
      s'.currentTask = some 0 := by
  obtain ⟨s₀, s, hs₀, hreach, hs⟩ := exists_sampleRun next id Op.valid_of_check
    [.create 0x2000 0 none sampleOutside, .exit 5 .zero 0x5000]
    (fun s => decide ((s.task 0).state = .zombie) &&
      (s.next (.exit 9 .zero 0x5000)).any fun s' : Sched =>
        decide ((s'.task 0).state = .running ∧ s'.currentTask = some 0)) (by decide +kernel)
  rw [Bool.and_eq_true, Option.any_eq_true] at hs
  obtain ⟨hz, s', hs', hrun⟩ := hs
  exact ⟨s₀, s, s', hs₀, hreach, of_decide_eq_true hz, hs', of_decide_eq_true hrun⟩

end Sched

end Arcline
