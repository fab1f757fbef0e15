import Arcline.Sched.Runs
import Mathlib.Data.Finset.Card

set_option autoImplicit false

/-! # Admission of tasks

The node pool of the run queue has 64 nodes, there are 32767 identifiers, and `task_create` asks for
an identifier and for memory, but not for a node. As long as no task is created while 64 are alive,
the idle task apart, every task that is created is queued, it is never lost, and the current task can
always be put back.
-/

namespace Arcline

namespace Sched

variable {s s' : Sched} {l l' L : List Nat} {t p : Nat} {op : Op} {out : Option CpuContext}

/-- The tasks that are alive, without the idle task. -/
def liveTasks (s : Sched) : Finset Nat :=
  (Finset.range s.objects).filter fun t => (s.task t).pid ≠ 0 ∧ (s.task t).state ≠ .zombie

theorem mem_liveTasks :
    t ∈ s.liveTasks ↔ t < s.objects ∧ (s.task t).pid ≠ 0 ∧ (s.task t).state ≠ .zombie := by
  rw [liveTasks, Finset.mem_filter, Finset.mem_range]

/-- The queued tasks and the current one are alive. -/
theorem Steady.length_le_live (h : s.Steady l L p) :
    l.length ≤ s.liveTasks.card ∧ ((s.task p).pid ≠ 0 → l.length < s.liveTasks.card) := by
  have hsub : l.toFinset ⊆ s.liveTasks := by
    intro t ht
    obtain ⟨hpos, hlt, hready⟩ := h.base.queued t (List.mem_toFinset.mp ht)
    refine mem_liveTasks.mpr ⟨hlt, ?_, by simp [hready]⟩
    have := h.base.pids t hpos hlt
    omega
  have hcard : l.toFinset.card = l.length := List.toFinset_card_of_nodup h.base.queue.nodup
  obtain ⟨hrunning, -, hpl⟩ := h.mem_of_running
  constructor
  · rw [← hcard]
    exact Finset.card_le_card hsub
  · intro hpid
    have hp : p ∈ s.liveTasks := mem_liveTasks.mpr ⟨h.lt, hpid, by simp [hrunning]⟩
    have hp' : p ∉ l.toFinset := by simpa using hpl
    calc l.length = l.toFinset.card := hcard.symm
      _ < (insert p l.toFinset).card := by rw [Finset.card_insert_of_notMem hp']; omega
      _ ≤ s.liveTasks.card := Finset.card_le_card (Finset.insert_subset hp hsub)

theorem Steps.liveTasks_of_lt (hs : Steps s l L p op s' out) (h : s.Steady l L p)
    (ht : t ∈ s'.liveTasks) (hlt : t < s.objects) : t ∈ s.liveTasks := by
  obtain ⟨-, hpid, hlive⟩ := mem_liveTasks.mp ht
  rw [hs.pid hlt] at hpid
  refine mem_liveTasks.mpr ⟨hlt, hpid, fun hz => hlive ?_⟩
  exact (hs.zombie_iff h (Nat.pos_of_ne_zero (mt (h.base.pid_eq_zero hlt).mpr hpid)) hlt).mpr
    (.inl hz)

/-- The call is made with a task, and no task is created while 64 are alive. -/
structure Op.Modest (s : Sched) (op : Op) : Prop where
  valid : op.Valid s
  room : ∀ entry priority args env, op = .create entry priority args env → s.CanCreate env →
    s.liveTasks.card < nodePoolSize

theorem Steps.card_liveTasks (hs : Steps s l L p op s' out) (h : s.Steady l L p)
    (hmodest : op.Modest s) (hle : s.liveTasks.card ≤ nodePoolSize) :
    s'.liveTasks.card ≤ nodePoolSize := by
  rcases hs.objects with hobjects | ⟨hobjects, entry, priority, args, env, hop, hcan⟩
  · refine (Finset.card_le_card fun t ht => ?_).trans hle
    exact hs.liveTasks_of_lt h ht (hobjects ▸ (mem_liveTasks.mp ht).1)
  · have hsub : s'.liveTasks ⊆ insert s.objects s.liveTasks := by
      intro t ht
      have hlt := (mem_liveTasks.mp ht).1
      rw [hobjects] at hlt
      rcases Nat.lt_or_eq_of_le (Nat.le_of_lt_succ hlt) with hlt | rfl
      · exact Finset.mem_insert_of_mem (hs.liveTasks_of_lt h ht hlt)
      · exact Finset.mem_insert_self _ _
    have hroom := hmodest.room entry priority args env hop hcan
    have hle' := (Finset.card_le_card hsub).trans (Finset.card_insert_le _ _)
    omega

theorem reach_modest {s₀ : Sched} (h₀ : s₀.Started)
    (h : Machine.Reach next (fun s op => op.Modest s) s₀ s) :
    (∃ l L p, s.Steady l L p) ∧ s.liveTasks.card ≤ nodePoolSize := by
  refine reach_invariant (fun _ _ hop => hop.valid) ⟨_, _, _, h₀.steady⟩ ?_
    (fun hsteady hmodest hsteps hle => hsteps.card_liveTasks hsteady hmodest hle) h
  have hempty : s₀.liveTasks = ∅ := by
    refine Finset.eq_empty_of_forall_notMem fun t ht => ?_
    obtain ⟨hlt, hpid, -⟩ := mem_liveTasks.mp ht
    obtain rfl : t = 0 := by
      rw [h₀.objects] at hlt
      omega
    exact hpid h₀.steady.base.idlePid
  simp [hempty]

/-! ## No task is lost -/

/-- The task is where it should be: in the queue, on the processor, or dead. -/
def Placed (s : Sched) (t : Nat) : Prop :=
  s.isQueued t = true ∨ s.currentTask = some t ∨ (s.task t).state = .zombie

theorem Handover.placed {n : Nat} {v m : Word} {a b : CpuContext} {l₁ : List Nat}
    (h : Handover s s' (l₁.erase n) L p n v m a b) (ht : t ∈ l₁) : s'.Placed t := by
  by_cases htn : t = n
  · subst htn
    exact .inr (.inl h.current)
  · exact .inl (h.base.queue.isQueued.mpr ((List.mem_erase_of_ne htn).mpr ht))

/-- The task that has ended is dead, and the others are where they were, up to the next one. -/
theorem Handover.placed_ended {s₁ : Sched} {n : Nat} {v m : Word} {a b : CpuContext} {L₁ : List Nat}
    (h : Handover s₁ s' (l.erase n) L₁ n n v m a b) (hsteady : s.Steady l L p) (he : Ended s s₁ p)
    (hn : n = nextOf l) (hpos : 0 < t) (ht : t ∈ l ∨ t = p) : s'.Placed t := by
  rcases ht with hl | rfl
  · exact h.placed hl
  · have htn : t ≠ n := by
      rintro rfl
      have htl := (hsteady.mem_of_running).2.2
      rcases nextOf_cases l with hmem | ⟨-, h0⟩
      · exact htl (hn ▸ hmem)
      · omega
    refine .inr (.inr ?_)
    rw [h.other t htn htn, he.state, if_pos rfl]

/-- A task that is where it should be stays so. -/
theorem Steps.placed (hs : Steps s l L p op s' out) (h : s.Steady l L p) (hpos : 0 < t)
    (hlt : t < s.objects) (ht : s.Placed t) : s'.Placed t := by
  have hcases : t ∈ l ∨ t = p ∨ (s.task t).state = .zombie := by
    rcases ht with hq | hcur | hz
    · exact .inl (h.base.queue.isQueued.mp hq)
    · rw [h.current] at hcur
      exact .inr (.inl (Option.some.inj hcur).symm)
    · exact .inr (.inr hz)
  by_cases hz : (s.task t).state = .zombie
  · exact .inr (.inr ((hs.zombie_iff h hpos hlt).mpr (.inl hz)))
  have hcases : t ∈ l ∨ t = p := by
    rcases hcases with hl | htp | hz'
    · exact .inl hl
    · exact .inr htp
    · exact absurd hz' hz
  cases hs with
  | refused | spared => exact ht
  | @created entry priority args env pid stack _ l' hcan hpid hstack hqueue hc hin hout =>
      rcases hcases with hl | rfl
      · refine .inl (hqueue.isQueued.mpr ?_)
        by_cases hroom : entry ≠ 0 ∧ l.length < nodePoolSize
        · exact (hin hroom).mem_iff.mpr (List.mem_cons_of_mem _ hl)
        · rw [hout hroom]
          exact hl
      · exact .inr (.inl (hc.currentTask.trans h.current))
  | @scheduled now cpu label n _ hn hh =>
      refine hh.placed ((h.base.mem_returnQueue h.lt now t).mpr ?_)
      exact hcases.imp_right fun htp => ⟨htp, htp ▸ hpos⟩
  | @preempted regs now now' n _ hn hh =>
      have hbase := (h.setContext regs).base
      refine hh.placed ((hbase.mem_returnQueue (p := p) h.lt now t).mpr ?_)
      exact hcases.imp_right fun htp => ⟨htp, htp ▸ hpos⟩
  | @killed u now cpu label _ hu hult hlive hup he hbase hcur =>
      rcases hcases with hl | rfl
      · by_cases htu : t = u
        · refine .inr (.inr ?_)
          rw [he.state, if_pos htu]
        · exact .inl (hbase.queue.isQueued.mpr ((List.mem_erase_of_ne htu).mpr hl))
      · exact .inr (.inl hcur)
  | exited he hn hh | killedCurrent _ he hn hh => exact hh.placed_ended h he hn hpos hcases

theorem reach_placed {s₁ : Sched} (hsteady : ∃ l L p, s₁.Steady l L p) (hpos : 0 < t)
    (hlt : t < s₁.objects) (ht : s₁.Placed t)
    (h : Machine.Reach next (fun s op => op.Valid s) s₁ s) : s.Placed t := by
  have hinv := reach_invariant (P := fun s => t < s.objects ∧ s.Placed t) (fun _ _ hop => hop)
    hsteady ⟨hlt, ht⟩
    (fun hsteady _ hsteps ⟨hlt, ht⟩ =>
      ⟨hlt.trans_le hsteps.objects_le, hsteps.placed hsteady hpos hlt ht⟩) h
  exact hinv.2.2

/-! ## Admission -/

/-- The task is in the task list. -/
def Listed (s : Sched) (t : Nat) : Prop :=
  ∃ L, Linked.Chain (fun u => (s.task u).next) s.taskList L ∧ t ∈ L

/-- Where the queue has room, a new task with an entry point is ready, listed and queued. -/
theorem Steady.taskCreate_queued (h : s.Steady l L p) {entry : Word} (hentry : entry ≠ 0)
    {env : Outside} (hcan : s.CanCreate env) (hroom : l.length < nodePoolSize) (priority : Int)
    (args : Option TaskArgs) :
    ∃ s', s.taskCreate entry priority args env = .ok (some s.objects, s') ∧
      s.next (.create entry priority args env) = some s' ∧ s'.objects = s.objects + 1 ∧
      (s'.task s.objects).state = .ready ∧ s'.Listed s.objects ∧ s'.isQueued s.objects = true := by
  obtain ⟨s', l', pid, stack, hs', hpid, hstack, hqueue, hc, hin, hout⟩ :=
    h.taskCreate_some hcan entry priority args
  have hperm := hin ⟨hentry, hroom⟩
  have hsteady := h.created hpid hc hqueue fun u hu => List.mem_cons.mp (hperm.mem_iff.mp hu)
  obtain ⟨v, hnew⟩ := hc.new
  refine ⟨s', hs', next_eq_some.mpr ⟨none, ?_⟩, hc.objects, by rw [hnew]; rfl,
    ⟨_, hsteady.base.list.chain, List.mem_cons_self⟩, ?_⟩
  · rw [step, hs']
    rfl
  · exact hqueue.isQueued.mpr (hperm.mem_iff.mpr List.mem_cons_self)

/-- **Admission.** Let no task be created while 64 are alive, the idle task apart. Then in every
state of a run a call of `task_create` with an entry point fails and changes nothing, or returns a
task that is ready, listed and queued, and that is never lost after that; and `schedule` and
`schedule_preempt` can always put the current task back. -/
theorem create_admits {memory : Nat → Task} {idle : Word} {env₀ : Outside} {s₀ : Sched}
    (h₀ : taskInit memory idle env₀ = .ok s₀)
    (h : Machine.Reach next (fun s op => op.Modest s) s₀ s) :
    (∀ entry priority args env, entry ≠ 0 →
      Op.Modest s (.create entry priority args env) →
        s.taskCreate entry priority args env = .ok (none, s) ∨
        ∃ t s', s.taskCreate entry priority args env = .ok (some t, s') ∧
          (s'.task t).state = .ready ∧ s'.Listed t ∧ s'.isQueued t = true ∧
          ∀ s'', Machine.Reach next (fun s op => op.Modest s) s' s'' → s''.Placed t) ∧
    ∀ op : Op, op.PutsBack → ∃ s' out, s.step op = .ok (s', out) := by
  obtain ⟨⟨l, L, p, hsteady⟩, hle⟩ := reach_modest (taskInit_started h₀) h
  obtain ⟨hlive, hlive'⟩ := hsteady.length_le_live
  constructor
  · intro entry priority args env hentry hmodest
    by_cases hcan : s.CanCreate env
    · have hroom : l.length < nodePoolSize :=
        Nat.lt_of_le_of_lt hlive (hmodest.room entry priority args env rfl hcan)
      obtain ⟨s', hs', hnext, hobjects, hready, hlisted, hqueued⟩ :=
        hsteady.taskCreate_queued hentry hcan hroom priority args
      refine .inr ⟨s.objects, s', hs', hready, hlisted, hqueued, fun s'' hreach => ?_⟩
      have hsteady' := (reach_modest (taskInit_started h₀) (h.next _ hmodest hnext)).1
      exact reach_placed hsteady' hsteady.base.pos (by omega) (.inl hqueued)
        (hreach.mono fun _ _ hop => hop.valid)
    · exact .inl (taskCreate_refused hcan entry priority args)
  · intro op hback
    have hvalid : op.Valid s := by
      cases op with
      | kill => exact absurd hback id
      | create | schedule | preempt | exit => exact trivial
    obtain ⟨s', out, hs', -⟩ := hsteady.step_ok hvalid fun _ hpid =>
      Nat.lt_of_lt_of_le (hlive' hpid) hle
    exact ⟨s', out, hs'⟩

/-- The check that a call is made with a task while there are fewer than 64. -/
def Op.modest (s : Sched) (op : Op) : Bool := op.valid s && decide (s.objects < nodePoolSize)

theorem Op.modest_of_check (s : Sched) (op : Op) (h : op.modest s = true) : op.Modest s := by
  rw [Op.modest, Bool.and_eq_true, decide_eq_true_eq] at h
  refine ⟨Op.valid_of_check s op h.1, fun _ _ _ _ _ _ => Nat.lt_of_le_of_lt ?_ h.2⟩
  exact (Finset.card_filter_le _ _).trans_eq (Finset.card_range _)

theorem create_admits_fourth :
    ∃ s₀ s, taskInit (fun _ => blankTask) 0x1000 sampleOutside = .ok s₀ ∧
      Machine.Reach next (fun s op => op.Modest s) s₀ s ∧ s.objects = 4 ∧
      (∃ t s', s.taskCreate 0x2000 0 none sampleOutside = .ok (some t, s') ∧
        (s'.task t).state = .ready ∧ s'.isQueued t = true) ∧
      ∃ s' out, s.step (.schedule 5 .zero 0x5000) = .ok (s', out) := by
  obtain ⟨s₀, s, hs₀, hreach, hs⟩ := exists_sampleRun next id Op.modest_of_check
    (List.replicate 3 (.create 0x2000 0 none sampleOutside))
    (fun s => decide (s.objects = 4) &&
      (s.taskCreate 0x2000 0 none sampleOutside).toOption.any fun r => r.1.isSome) (by decide +kernel)
  rw [Bool.and_eq_true, decide_eq_true_eq, Option.any_eq_true] at hs
  obtain ⟨hobjects, r, hr, hsome⟩ := hs
  have hmodest : Op.Modest s (.create 0x2000 0 none sampleOutside) := by
    refine Op.modest_of_check s _ ?_
    rw [Op.modest, hobjects]
    rfl
  obtain ⟨hcreate, hback⟩ := create_admits hs₀ hreach
  refine ⟨s₀, s, hs₀, hreach, hobjects, ?_, hback _ trivial⟩
  rcases hcreate 0x2000 0 none sampleOutside (by decide) hmodest with
    hnone | ⟨t, s', hs', hready, -, hqueued, -⟩
  · rw [Except.ok.inj ((Fault.ok_of_toOption hr).symm.trans hnone)] at hsome
    exact absurd hsome (by simp)
  · exact ⟨t, s', hs', hready, hqueued⟩

/-- With 64 tasks in the queue, `task_create` returns a task that is ready, and not queued. -/
theorem create_loses_task :
    ∃ s₀ s s', taskInit (fun _ => blankTask) 0x1000 sampleOutside = .ok s₀ ∧
      Machine.Reach next (fun s op => op.Valid s) s₀ s ∧ s.objects = 65 ∧
      s.taskCreate 0x2000 0 none sampleOutside = .ok (some 65, s') ∧
      (s'.task 65).state = .ready ∧ s'.isQueued 65 = false := by
  obtain ⟨s₀, s, hs₀, hreach, hs⟩ := exists_sampleRun next id Op.valid_of_check
    (List.replicate 64 (.create 0x2000 0 none sampleOutside))
    (fun s => decide (s.objects = 65) &&
      (s.taskCreate 0x2000 0 none sampleOutside).toOption.any fun r : Option Nat × Sched =>
        decide (r.1 = some 65 ∧ (r.2.task 65).state = .ready ∧ r.2.isQueued 65 = false))
    (by decide +kernel)
  rw [Bool.and_eq_true, Option.any_eq_true] at hs
  obtain ⟨hobjects, ⟨t, s'⟩, hs', hlost⟩ := hs
  obtain ⟨rfl, hready, hqueued⟩ := of_decide_eq_true hlost
  exact ⟨s₀, s, s', hs₀, hreach, of_decide_eq_true hobjects, Fault.ok_of_toOption hs', hready, hqueued⟩

end Sched

end Arcline
