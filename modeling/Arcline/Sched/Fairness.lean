import Arcline.Sched.Runs

set_option autoImplicit false

/-! # Which task runs next

A scheduling point charges the outgoing task for the time it ran and puts it back in the queue; the
first task of the queue runs next. Before that, the charge has set the minimum of the queue to the
`vruntime` of its first task, and a task that enters the queue is raised to the minimum. So an
outgoing task that is ahead of all others, with a smaller `vruntime` than each of them, is raised to
the first of them and placed behind it, as soon as it is charged for any time at all.
-/

namespace Arcline

namespace Sched

variable {s s' : Sched} {l l' L : List Nat} {t p : Nat} {op : Op} {out : Option CpuContext}

/-! ## The minimum -/

/-- No queued task is below the minimum, and no current one but the idle task. -/
structure Least (s : Sched) : Prop where
  queued : ∀ t, s.isQueued t = true → s.minVruntime ≤ (s.task t).vruntime
  current : ∀ t, s.currentTask = some t → (s.task t).pid ≠ 0 → s.minVruntime ≤ (s.task t).vruntime

theorem Started.least (h : s.Started) : s.Least := by
  constructor
  · intro t ht
    exact absurd (h.steady.base.queue.isQueued.mp ht) List.not_mem_nil
  · intro t ht hpid
    obtain rfl : 0 = t := Option.some.inj (h.steady.current.symm.trans ht)
    exact absurd h.steady.base.idlePid hpid

/-- After a charge the minimum is still below all queued tasks. -/
theorem Base.charge_least (h : s.Base l L) (hp : p ∉ l)
    (hleast : ∀ u ∈ l, s.minVruntime ≤ (s.task u).vruntime) (now : Word) :
    ∀ u ∈ l, (s.toEevdf.updateCurr p now).minVruntime ≤ (s.task u).vruntime := by
  intro u hu
  rw [h.queue.updateCurr_minVruntime hp now]
  split
  · exact hleast u hu
  · cases l with
    | nil => exact absurd hu List.not_mem_nil
    | cons b l =>
        show (s.task b).vruntime ≤ (s.task u).vruntime
        rcases List.mem_cons.mp hu with rfl | hu
        · exact BitVec.le_refl _
        · exact (List.pairwise_cons.mp h.queue.sorted).1 u hu

/-- A task that is put back is at the minimum at least. -/
theorem least_returnVruntime (hpid : (s.task p).pid ≠ 0) (now : Word) :
    (s.toEevdf.updateCurr p now).minVruntime ≤ s.returnVruntime p now := by
  rw [returnVruntime, if_pos hpid]
  exact Eevdf.le_entryVruntime _ _

theorem Handover.least {n : Nat} {v m : Word} {a b : CpuContext} {l₁ : List Nat}
    (h : Handover s s' (l₁.erase n) L p n v m a b) (hl₁ : ∀ u, u ∈ l₁ ↔ u ∈ l ∨ u = p ∧ 0 < p)
    (hn : n ∈ l₁ ∨ n = 0) (hmin : ∀ u ∈ l, m ≤ (s.task u).vruntime) (hv : 0 < p → m ≤ v) :
    s'.Least := by
  have hmem : ∀ u ∈ l₁, u ≠ p → u ∈ l := by
    intro u hu hup
    rcases (hl₁ u).mp hu with hu | ⟨hup', -⟩
    · exact hu
    · exact absurd hup' hup
  constructor
  · intro t ht
    rw [h.minVruntime]
    have htl := h.base.queue.isQueued.mp ht
    have htn : t ≠ n := by
      rintro rfl
      exact absurd (h.base.queued t htl).2.2 (by
        simp [(h.running t (h.base.queued t htl).2.1).mpr rfl])
    have htl₁ := List.mem_of_mem_erase htl
    by_cases htp : t = p
    · rw [htp, h.vruntime]
      exact hv (htp ▸ (h.base.queued t htl).1)
    · rw [h.other t htp htn]
      exact hmin t (hmem t htl₁ htp)
  · intro t ht hpid
    obtain rfl : n = t := Option.some.inj (h.current.symm.trans ht)
    have hn0 : n ≠ 0 := by
      rintro rfl
      exact hpid h.base.idlePid
    rw [h.minVruntime]
    have hnl₁ : n ∈ l₁ := hn.resolve_right hn0
    by_cases hpn : p = n
    · rw [← hpn, h.vruntime]
      exact hv (by omega)
    · rw [h.incoming hpn]
      exact hmin n (hmem n hnl₁ (Ne.symm hpn))

theorem Steps.least (hs : Steps s l L p op s' out) (h : s.Steady l L p) (hleast : s.Least) :
    s'.Least := by
  have hmin : ∀ u ∈ l, s.minVruntime ≤ (s.task u).vruntime := fun u hu =>
    hleast.queued u (h.base.queue.isQueued.mpr hu)
  have hp : p ∉ l := (h.mem_of_running).2.2
  have hpid : 0 < p → (s.task p).pid ≠ 0 := fun hpos => by
    have := h.base.pids p hpos h.lt
    omega
  -- where the current task has ended, the next one comes from the queue
  have hended {s₁ : Sched} {L₁ : List Nat} {n : Nat} {a b : CpuContext} (he : Ended s s₁ p)
      (hn : n = nextOf l)
      (hh : Handover s₁ s' (l.erase n) L₁ n n (s.task n).vruntime s.minVruntime a b) : s'.Least := by
    have hv : ∀ u, (s₁.task u).vruntime = (s.task u).vruntime :=
      he.field Task.vruntime fun _ _ _ _ => rfl
    have hcases : n ∈ l ∨ n = 0 := hn ▸ (nextOf_cases l).imp_right And.right
    refine hh.least (fun u => ⟨.inl, ?_⟩) hcases (fun u hu => by rw [hv u]; exact hmin u hu)
      fun hpos => ?_
    · rintro (hu | ⟨rfl, hpos⟩)
      · exact hu
      · exact hcases.resolve_right (by omega)
    · exact hmin n (hcases.resolve_right (by omega))
  cases hs with
  | refused | spared => exact hleast
  | @created entry priority args env pid stack _ l' hcan hpid hstack hqueue hc hin hout =>
      have hold : ∀ u, u ≠ s.objects → (s'.task u).vruntime = (s.task u).vruntime := fun u hu =>
        hc.field Task.vruntime (fun _ _ => rfl) hu
      constructor
      · intro t ht
        rw [hc.minVruntime]
        by_cases hnew : t = s.objects
        · subst hnew
          exact hc.least ht
        · have htl := (mem_of_created hin hout (hqueue.isQueued.mp ht)).resolve_left hnew
          rw [hold t hnew]
          exact hmin t htl
      · intro t ht hpid
        rw [hc.currentTask, h.current] at ht
        obtain rfl : p = t := Option.some.inj ht
        have hne : p ≠ s.objects := Nat.ne_of_lt h.lt
        rw [hc.field Task.pid (fun _ _ => rfl) hne] at hpid
        rw [hc.minVruntime, hold p hne]
        exact hleast.current p h.current hpid
  | @scheduled now cpu label n _ hn hh =>
      refine hh.least (h.base.mem_returnQueue h.lt now) ?_ (h.base.charge_least hp hmin now)
        fun hpos => least_returnVruntime (hpid hpos) now
      rw [hn]
      exact (nextOf_cases _).imp_right And.right
  | @preempted regs now now' n _ hn hh =>
      have hbase := (h.setContext regs).base
      have hother : ∀ u ∈ l, (s.setContext p regs).task u = s.task u := fun u hu =>
        (setContext_moved s p regs).other u fun e => hp (e ▸ hu)
      have hpid' : 0 < p → ((s.setContext p regs).task p).pid ≠ 0 := fun hpos => by
        rw [(setContext_moved s p regs).keeps.pid p]
        exact hpid hpos
      have hmin' := hbase.charge_least hp (fun u hu => by rw [hother u hu]; exact hmin u hu) now
      refine hh.least (hbase.mem_returnQueue (p := p) h.lt now) ?_
        (fun u hu => by rw [← hother u hu]; exact hmin' u hu)
        fun hpos => least_returnVruntime (hpid' hpos) now
      rw [hn]
      exact (nextOf_cases _).imp_right And.right
  | @killed t now cpu label _ hpos hlt hlive htp he hbase hcur =>
      have hv : ∀ u, (s'.task u).vruntime = (s.task u).vruntime :=
        he.field Task.vruntime fun _ _ _ _ => rfl
      constructor
      · intro u hu
        rw [he.minVruntime, hv u]
        exact hmin u (List.mem_of_mem_erase (hbase.queue.isQueued.mp hu))
      · intro u hu hpid
        rw [he.field Task.pid (fun _ _ _ _ => rfl)] at hpid
        rw [he.minVruntime, hv u]
        exact hleast.current u (h.current.trans (hcur.symm.trans hu)) hpid
  | exited he hn hh | killedCurrent _ he hn hh => exact hended he hn hh

theorem reach_least {s₀ : Sched} (h₀ : s₀.Started)
    (h : Machine.Reach next (fun s op => op.Valid s) s₀ s) :
    (∃ l L p, s.Steady l L p) ∧ s.Least :=
  reach_invariant (fun _ _ hop => hop) ⟨_, _, _, h₀.steady⟩ h₀.least
    (fun hsteady _ hsteps hleast => hsteps.least hsteady hleast) h

/-! ## The choice -/

theorem nextOf_place_of_lt {f : Nat → Word} {v : Word} (h : ∀ b ∈ l, v < f b) (a : Nat) :
    nextOf (Eevdf.place f l a v) = a := by
  have hnil : l.filter (fun b => !decide (v < f b)) = [] := by
    rw [List.filter_eq_nil_iff]
    intro b hb
    simp [h b hb]
  rw [Eevdf.place, hnil]
  rfl

theorem nextOf_place_of_le {f : Nat → Word} {v : Word} {b : Nat} (h : f b ≤ v) (a : Nat) :
    nextOf (Eevdf.place f (b :: l) a v) = b := by
  have hb : (!decide (v < f b)) = true := by
    simpa using BitVec.not_lt.mpr h
  rw [Eevdf.place, List.filter_cons, if_pos hb]
  rfl

/-- The outgoing task `p` is ahead of all queued ones. -/
def Ahead (s : Sched) (v : Word) : Prop := ∀ t, s.isQueued t = true → v < (s.task t).vruntime

/-- **Who is next**, when the outgoing task is put back: if it is ahead, it goes on unchanged just
when the queue is empty or no time has passed since its last charge; and if it is not, the first
task of the queue is next. -/
theorem Base.nextOf_returnQueue (h : s.Base l L) (hp : p ∉ l) (hpid : (s.task p).pid ≠ 0)
    (hleast : s.minVruntime ≤ (s.task p).vruntime) (now : Word) :
    (s.Ahead (s.toEevdf.chargedVruntime p now) →
      ((nextOf (s.returnQueue l p now) = p ∧
        s.returnVruntime p now = s.toEevdf.chargedVruntime p now) ↔
        l = [] ∨ now = (s.task p).context.x 23)) ∧
    (¬ s.Ahead (s.toEevdf.chargedVruntime p now) →
      some (nextOf (s.returnQueue l p now)) = l.head?) := by
  set v := s.toEevdf.chargedVruntime p now with hv
  have hahead : s.Ahead v ↔ ∀ b ∈ l, v < (s.task b).vruntime :=
    forall_congr' fun b => by rw [h.queue.isQueued]
  have hreturn : s.returnVruntime p now =
      if v < (s.toEevdf.updateCurr p now).minVruntime then (s.toEevdf.updateCurr p now).minVruntime
      else v := by
    rw [returnVruntime, if_pos hpid, Eevdf.entryVruntime, Eevdf.updateCurr_task,
      Function.update_self]
  have hle : v ≤ s.returnVruntime p now := by
    rw [hreturn]
    split
    · exact BitVec.le_of_lt ‹_›
    · exact BitVec.le_refl _
  have hqueue : s.returnQueue l p now =
      Eevdf.place (fun b => (s.task b).vruntime) l p (s.returnVruntime p now) := by
    rw [returnQueue, if_pos hpid]
  have hmin := h.queue.updateCurr_minVruntime hp now
  -- without time to charge, the task is at the minimum already
  have hstill : now = (s.task p).context.x 23 → s.returnVruntime p now = v := by
    intro hnow
    have hdelta : now - (s.task p).context.x 23 = 0 := by bv_omega
    rw [hreturn, hmin, if_pos hdelta, hv, Eevdf.chargedVruntime, if_pos hdelta,
      if_neg (BitVec.not_lt.mpr hleast)]
  rw [hqueue]
  constructor
  · intro hlt
    rw [hahead] at hlt
    by_cases hnow : now = (s.task p).context.x 23
    · rw [hstill hnow]
      exact ⟨fun _ => .inr hnow, fun _ => ⟨nextOf_place_of_lt hlt p, rfl⟩⟩
    · have hdelta : ¬ now - (s.task p).context.x 23 = 0 := fun h0 => hnow (by bv_omega)
      rw [if_neg hdelta] at hmin
      cases l with
      | nil =>
          have hmin' : (s.toEevdf.updateCurr p now).minVruntime = v := hmin
          have hsame : s.returnVruntime p now = v := by
            rw [hreturn, hmin']
            split <;> rfl
          rw [hsame]
          exact ⟨fun _ => .inl rfl, fun _ => ⟨rfl, rfl⟩⟩
      | cons b l =>
          -- the minimum is now the `vruntime` of the first task, and the outgoing one is raised to it
          have hmin' : (s.toEevdf.updateCurr p now).minVruntime = (s.task b).vruntime := hmin
          have hraised : s.returnVruntime p now = (s.task b).vruntime := by
            rw [hreturn, hmin', if_pos (hlt b List.mem_cons_self)]
          have hnext := nextOf_place_of_le (l := l) (f := fun b => (s.task b).vruntime)
            (BitVec.le_refl (s.task b).vruntime) p
          rw [hraised, hnext]
          refine ⟨fun hstay => absurd hstay.1 ?_, ?_⟩
          · rintro rfl
            exact hp List.mem_cons_self
          · rintro (hnil | hnow')
            · exact absurd hnil (by simp)
            · exact absurd hnow' hnow
  · intro hnot
    rw [hahead] at hnot
    cases l with
    | nil => exact absurd (by simp) hnot
    | cons b l =>
        have hb : (s.task b).vruntime ≤ v := by
          by_contra hgt
          refine hnot fun u hu => ?_
          have hbv := BitVec.not_le.mp hgt
          rcases List.mem_cons.mp hu with rfl | hu
          · exact hbv
          · have hbu := (List.pairwise_cons.mp h.queue.sorted).1 u hu
            bv_omega
        rw [nextOf_place_of_le (f := fun b => (s.task b).vruntime) (BitVec.le_trans hb hle) p]
        rfl

/-- The task with the least `vruntime` runs: the outgoing task `p`, charged up to `v`, if it is ahead
of all queued ones, and then unchanged; else the first of these. -/
def LeastRuns (s s' : Sched) (p : Nat) (v : Word) : Prop :=
  (s.Ahead v → s'.currentTask = some p ∧ (s'.task p).vruntime = v) ∧
  (¬ s.Ahead v → s'.currentTask = s.pickNext)

theorem Handover.leastRuns_iff {n : Nat} {v v' m : Word} {a b : CpuContext} {l₁ : List Nat}
    {C : Prop} (hh : Handover s s' (l₁.erase n) L p n v' m a b) (hn : n = nextOf l₁)
    (hpick : s.pickNext = l.head?) (hahead : s.Ahead v → ((nextOf l₁ = p ∧ v' = v) ↔ C))
    (hnot : ¬ s.Ahead v → some (nextOf l₁) = l.head?) : LeastRuns s s' p v ↔ (s.Ahead v → C) := by
  subst hn
  unfold LeastRuns
  rw [hh.current, hh.vruntime, hpick, and_iff_left hnot]
  refine forall_congr' fun h => ?_
  rw [← hahead h, Option.some.injEq]

theorem setContext_ahead {regs : CpuContext} {v : Word} :
    (s.setContext p regs).Ahead v ↔ s.Ahead v := by
  refine forall_congr' fun t => ?_
  have hm := setContext_moved s p regs
  have hv : ((s.setContext p regs).task t).vruntime = (s.task t).vruntime := by
    by_cases htp : t = p
    · rw [htp, hm.vruntime]
    · rw [hm.other t htp]
  rw [hv]
  exact Iff.rfl

theorem exists_ok_iff {x : Except Fault (Sched × CpuContext)} {c : CpuContext}
    (hx : x = .ok (s', c)) (P : Sched → Prop) : (∃ s₁ c₁, x = .ok (s₁, c₁) ∧ P s₁) ↔ P s' := by
  constructor
  · rintro ⟨s₁, c₁, hs₁, hP⟩
    rw [hx] at hs₁
    obtain ⟨rfl, -⟩ := Prod.mk.inj (Except.ok.inj hs₁)
    exact hP
  · intro hP
    exact ⟨s', c, hx, hP⟩

/-- **When the least task runs.** In every state of a run whose current task is not the idle task,
`schedule` and `schedule_preempt` let the task with the least `vruntime` run just when a node is free
for the outgoing task and, if that is ahead of all queued tasks, the queue is empty or no time has
passed since it was last charged. -/
theorem least_runs_iff {memory : Nat → Task} {idle : Word} {env : Outside} {s₀ : Sched}
    (h₀ : taskInit memory idle env = .ok s₀)
    (h : Machine.Reach next (fun s op => op.Valid s) s₀ s) (hcur : s.currentTask = some p)
    (hpid : (s.task p).pid ≠ 0) :
    (∀ now cpu label,
      (∃ s' cpu', s.schedule now cpu label = .ok (s', cpu') ∧
        LeastRuns s s' p ((s.toEevdf.updateCurr p now).task p).vruntime) ↔
      s.freeNode? ≠ none ∧ (s.Ahead ((s.toEevdf.updateCurr p now).task p).vruntime →
        s.pickNext = none ∨ now = (s.task p).context.x 23)) ∧
    ∀ regs now now',
      (∃ s' regs', s.schedulePreempt regs now now' = .ok (s', regs') ∧
        LeastRuns s s' p (((s.setContext p regs).toEevdf.updateCurr p now).task p).vruntime) ↔
      s.freeNode? ≠ none ∧
        (s.Ahead (((s.setContext p regs).toEevdf.updateCurr p now).task p).vruntime →
          s.pickNext = none ∨ now = regs.x 23) := by
  obtain ⟨⟨l, L, p', hsteady⟩, hleast⟩ := reach_least (taskInit_started h₀) h
  obtain rfl : p' = p := Option.some.inj (hsteady.current.symm.trans hcur)
  obtain ⟨-, -, hpl⟩ := hsteady.mem_of_running
  have hmin := hleast.current p' hcur hpid
  have hpick : s.pickNext = l.head? := hsteady.base.queue.pickNext
  have hnil : s.pickNext = none ↔ l = [] := by
    rw [hpick, List.head?_eq_none_iff]
  have hfree : s.freeNode? ≠ none ↔ l.length < nodePoolSize := by
    rw [ne_eq, hsteady.base.queue.members.freeNode_eq_none]
    have := hsteady.base.queue.length_le
    omega
  have hfull : ¬ l.length < nodePoolSize → l.length = nodePoolSize := fun hroom =>
    Nat.le_antisymm hsteady.base.queue.length_le (Nat.le_of_not_lt hroom)
  have hcharged : ∀ (q : Eevdf) now, ((q.updateCurr p' now).task p').vruntime =
      q.chargedVruntime p' now := fun q now => by
    rw [Eevdf.updateCurr_task, Function.update_self]
  constructor
  · intro now cpu label
    rw [hcharged, hnil, hfree]
    obtain ⟨hahead, hnot⟩ := hsteady.base.nextOf_returnQueue hpl hpid hmin now
    by_cases hroom : l.length < nodePoolSize
    · obtain ⟨s', hs', hh⟩ := hsteady.schedule_ok now cpu label
        (fun _ => hroom) rfl
      rw [exists_ok_iff hs', hh.leastRuns_iff rfl hpick hahead hnot, and_iff_right hroom]
    · rw [hsteady.schedule_full now cpu label hpid
        (hfull hroom)]
      simp [hroom]
  · intro regs now now'
    have hbase := (hsteady.setContext regs).base
    have hm := setContext_moved s p' regs
    have hmin' : (s.setContext p' regs).minVruntime ≤ ((s.setContext p' regs).task p').vruntime := by
      rw [hm.vruntime]
      exact hmin
    have hpid' : ((s.setContext p' regs).task p').pid ≠ 0 := by
      rw [hm.keeps.pid]
      exact hpid
    rw [hcharged, hnil, hfree]
    obtain ⟨hahead, hnot⟩ := hbase.nextOf_returnQueue hpl hpid' hmin' now
    rw [setContext_ahead, hm.context] at hahead
    rw [setContext_ahead] at hnot
    by_cases hroom : l.length < nodePoolSize
    · obtain ⟨s', hs', hh⟩ := hsteady.schedulePreempt_ok regs now
        now' (fun _ => hroom) rfl
      rw [exists_ok_iff hs', hh.leastRuns_iff rfl hpick hahead hnot, and_iff_right hroom]
    · rw [hsteady.schedulePreempt_full regs now now' hpid
        (hfull hroom)]
      simp [hroom]

/-- The first task has run for 100 ns, the second not yet, and the second is next. -/
theorem least_runs_second :
    ∃ s₀ s s' cpu', taskInit (fun _ => blankTask) 0x1000 sampleOutside = .ok s₀ ∧
      Machine.Reach next (fun s op => op.Valid s) s₀ s ∧ s.currentTask = some 1 ∧
      ((s.toEevdf.updateCurr 1 105).task 1).vruntime = 100 ∧ s.schedule 105 .zero 0x5000 = .ok (s', cpu') ∧
      LeastRuns s s' 1 100 ∧ s'.currentTask = some 2 := by
  obtain ⟨s₀, s, hs₀, hreach, hs⟩ := exists_sampleRun next id Op.valid_of_check
    [.create 0x2000 0 none sampleOutside, .create 0x2000 0 none sampleOutside, .schedule 5 .zero 0x5000]
    (fun s => decide (s.currentTask = some 1 ∧ (s.task 1).pid ≠ 0 ∧ s.freeNode? ≠ none ∧
      ((s.toEevdf.updateCurr 1 105).task 1).vruntime = 100 ∧ s.isQueued 2 = true ∧
      (s.task 2).vruntime = 0 ∧ s.pickNext = some 2)) (by decide +kernel)
  obtain ⟨hcur, hpid, hfree, hcharged, hqueued, hzero, hpick⟩ := of_decide_eq_true hs
  have hnot : ¬ s.Ahead 100 := by
    intro hahead
    have hlt := hahead 2 hqueued
    rw [hzero] at hlt
    exact absurd hlt (by decide)
  have hleast := ((least_runs_iff hs₀ hreach hcur hpid).1 105 .zero 0x5000).mpr
  rw [hcharged] at hleast
  obtain ⟨s', cpu', hs', hruns⟩ := hleast ⟨hfree, fun hahead => absurd hahead hnot⟩
  exact ⟨s₀, s, s', cpu', hs₀, hreach, hcur, hcharged, hs', hruns, (hruns.2 hnot).trans hpick⟩

/-- The second task has run for 20 ns and the first for 100 ns, and the first is next. -/
theorem least_task_loses_processor :
    ∃ s₀ s s' cpu', taskInit (fun _ => blankTask) 0x1000 sampleOutside = .ok s₀ ∧
      Machine.Reach next (fun s op => op.Valid s) s₀ s ∧ s.currentTask = some 2 ∧
      (s.task 2).pid ≠ 0 ∧ ((s.toEevdf.updateCurr 2 125).task 2).vruntime = 20 ∧
      (s.task 1).vruntime = 100 ∧ s.Ahead ((s.toEevdf.updateCurr 2 125).task 2).vruntime ∧
      s.schedule 125 .zero 0x5000 = .ok (s', cpu') ∧ s'.currentTask = some 1 ∧
      (s'.task 2).vruntime = 100 := by
  obtain ⟨s₀, s, hs₀, hreach, hs⟩ := exists_sampleRun next id Op.valid_of_check
    [.create 0x2000 0 none sampleOutside, .create 0x2000 0 none sampleOutside,
      .schedule 5 .zero 0x5000, .schedule 105 .zero 0x5000]
    (fun s => decide (s.objects = 3 ∧ s.currentTask = some 2 ∧ (s.task 2).pid ≠ 0 ∧
        ((s.toEevdf.updateCurr 2 125).task 2).vruntime = 20 ∧ (s.task 1).vruntime = 100 ∧
        s.isQueued 2 = false) &&
      (s.schedule 125 .zero 0x5000).toOption.any fun r : Sched × CpuContext =>
        decide (r.1.currentTask = some 1 ∧ (r.1.task 2).vruntime = 100)) (by decide +kernel)
  rw [Bool.and_eq_true, Option.any_eq_true] at hs
  obtain ⟨hs, ⟨s', cpu'⟩, hs', hnext⟩ := hs
  obtain ⟨hobjects, hcur, hpid, hcharged, hfirst, hsecond⟩ := of_decide_eq_true hs
  obtain ⟨hnext, hraised⟩ := of_decide_eq_true hnext
  obtain ⟨⟨l, L, p, hsteady⟩, -⟩ := reach_least (taskInit_started hs₀) hreach
  refine ⟨s₀, s, s', cpu', hs₀, hreach, hcur, hpid, hcharged, hfirst, fun t ht => ?_,
    Fault.ok_of_toOption hs', hnext, hraised⟩
  obtain ⟨hpos, hlt, -⟩ := hsteady.base.queued t (hsteady.base.queue.isQueued.mp ht)
  have ht2 : t ≠ 2 := by
    rintro rfl
    rw [hsecond] at ht
    exact absurd ht (by simp)
  obtain rfl : t = 1 := by omega
  rw [hcharged, hfirst]
  decide

end Sched

end Arcline
