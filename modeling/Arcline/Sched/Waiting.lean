import Arcline.Sched.Fairness
import Mathlib.Algebra.BigOperators.Group.List.Basic
import Mathlib.Algebra.Group.Action.Defs
import Mathlib.Algebra.Order.Ring.Nat

set_option autoImplicit false

/-! # How long a queued task waits

A task in the queue does not wait for ever. Each time the processor is handed over, the first task of the
queue leaves it, and the outgoing one, which has been charged, comes back with a larger `vruntime` than
it had. So a task waits at most for as many turns as there is `vruntime` to be charged to those in front
of it; and each task created meanwhile adds no more than what lies between the minimum of the queue and
the waiting task.
-/

namespace Arcline

namespace Sched

/-! ## The turns ahead

Of the tasks `l` with `vruntime` `v`, the turns that may come before that of `t`. A task `u` counts with
the turns it may have until it is behind `t`, and the one that is running, `p`, with one less. -/

def turnsAhead (v : Nat → Nat) (l : List Nat) (p t : Nat) : Nat :=
  ((l.erase t).map fun u => v t + 1 - v u).sum + (v t - v p)

section Turns

variable {v v' : Nat → Nat} {l l' : List Nat} {a b n p t : Nat}

theorem turnsAhead_perm (h : l.Perm l') (v : Nat → Nat) (p t : Nat) :
    turnsAhead v l p t = turnsAhead v l' p t := by
  rw [turnsAhead, turnsAhead, List.Perm.sum_eq ((h.erase t).map _)]

theorem turnsAhead_congr (hl : ∀ u ∈ l, v' u = v u) (hp : v' p = v p) (ht : t ∈ l) :
    turnsAhead v' l p t = turnsAhead v l p t := by
  have hmap : (l.erase t).map (fun u => v' t + 1 - v' u) = (l.erase t).map fun u => v t + 1 - v u :=
    List.map_congr_left fun u hu => by rw [hl t ht, hl u (List.mem_of_mem_erase hu)]
  rw [turnsAhead, turnsAhead, hmap, hl t ht, hp]

/-- A task more. -/
theorem turnsAhead_cons (hat : a ≠ t) :
    turnsAhead v (a :: l) p t = turnsAhead v l p t + (v t + 1 - v a) := by
  rw [turnsAhead, turnsAhead, List.erase_cons_tail (by simpa using hat), List.map_cons, List.sum_cons]
  omega

/-- A task less. -/
theorem turnsAhead_erase (hb : b ∈ l) (hbt : b ≠ t) :
    turnsAhead v l p t = turnsAhead v (l.erase b) p t + (v t + 1 - v b) := by
  rw [turnsAhead_perm (List.perm_cons_erase hb), turnsAhead_cons hbt]

/-- Another task is running. -/
theorem turnsAhead_running (v : Nat → Nat) (l : List Nat) (p q t : Nat) :
    turnsAhead v l q t + (v t - v p) = turnsAhead v l p t + (v t - v q) := by
  rw [turnsAhead, turnsAhead]
  omega

/-- The first task `b` takes over, and the one before it is gone. -/
theorem turnsAhead_leave (hb : b ∈ l) (hbt : b ≠ t) (hle : v b ≤ v t) :
    turnsAhead v (l.erase b) b t + 1 ≤ turnsAhead v l p t := by
  have herase := turnsAhead_erase (v := v) (p := p) hb hbt
  have hrun := turnsAhead_running v (l.erase b) p b t
  omega

/-- The first task `b` takes over, and the one before it comes back charged. -/
theorem turnsAhead_switch (hb : b ∈ l) (hbt : b ≠ t) (hle : v b ≤ v t) (hpt : p ≠ t)
    (hcharged : v p < a) (ht : t ∈ l) (hpl : p ∉ l) :
    turnsAhead (Function.update v p a) (p :: l.erase b) b t + 1 ≤ turnsAhead v l p t := by
  have hbp : b ≠ p := fun e => hpl (e ▸ hb)
  have hmem : t ∈ l.erase b := (List.mem_erase_of_ne (Ne.symm hbt)).mpr ht
  have hrest : ∀ u ∈ l.erase b, Function.update v p a u = v u := fun u hu =>
    Function.update_of_ne (fun e : u = p => hpl (e ▸ List.mem_of_mem_erase hu)) ..
  have hcongr := turnsAhead_congr (v := v) (p := b) hrest (Function.update_of_ne hbp ..) hmem
  rw [turnsAhead_cons hpt, hcongr, hrest t hmem, Function.update_self]
  have herase := turnsAhead_erase (v := v) (p := p) hb hbt
  have hrun := turnsAhead_running v (l.erase b) p b t
  -- what `p` still had to be charged is now less by one at least
  omega

end Turns

/-! ## Turns of the scheduler -/

variable {s s' : Sched} {l l' L : List Nat} {b n p t : Nat} {op : Op} {out : Option CpuContext}

def vruntimes (s : Sched) (u : Nat) : Nat := (s.task u).vruntime.toNat

/-- The turns that may come before that of the queued task `t`. -/
def turnsBefore (s : Sched) (t : Nat) : Nat :=
  turnsAhead s.vruntimes ((List.range s.objects).filter fun u => s.isQueued u)
    (s.currentTask.getD 0) t

theorem Base.turnsBefore (h : s.Base l L) (hcur : s.currentTask = some p) (t : Nat) :
    s.turnsBefore t = turnsAhead s.vruntimes l p t := by
  rw [Sched.turnsBefore, hcur, Option.getD_some]
  apply turnsAhead_perm
  rw [List.perm_ext_iff_of_nodup (List.nodup_range.filter _) h.queue.nodup]
  intro u
  rw [List.mem_filter, List.mem_range, h.queue.isQueued]
  exact ⟨And.right, fun hu => ⟨(h.queued u hu).2.1, hu⟩⟩

/-- The call charges the task it takes the processor from, unless that is the idle task: some time has
passed, enough for a charge, and the sum does not wrap. -/
def Op.Charges (s : Sched) : Op → Prop
  | .schedule now _ _ => ∀ p, s.currentTask = some p → (s.task p).pid ≠ 0 →
      (s.task p).vruntime < s.toEevdf.chargedVruntime p now
  | .preempt regs now _ => ∀ p, s.currentTask = some p → (s.task p).pid ≠ 0 →
      (s.task p).vruntime < (s.setContext p regs).toEevdf.chargedVruntime p now
  | _ => True

/-- The times a call hands the processor over. -/
def Op.turns (s : Sched) : Op → Nat
  | .schedule _ _ _ | .preempt _ _ _ | .exit _ _ _ => 1
  | .kill (some t) _ _ _ => if s.currentTask = some t ∧ (s.task t).pid ≠ 0 then 1 else 0
  | .kill none _ _ _ | .create _ _ _ _ => 0

/-- The tasks a call may create. -/
def Op.births : Op → Nat
  | .create _ _ _ _ => 1
  | _ => 0

/-! ### The charge -/

variable {v now m : Word} {x y : CpuContext}

theorem Base.head_le (h : s.Base (b :: l) L) (ht : t ∈ b :: l) : s.vruntimes b ≤ s.vruntimes t := by
  rcases List.mem_cons.mp ht with rfl | hmem
  · exact Nat.le_refl _
  · exact BitVec.le_def.mp ((List.pairwise_cons.mp h.queue.sorted).1 t hmem)

/-- The task that has got the processor is not queued. -/
theorem Handover.ne_current (hh : Handover s s' l L p n v m x y) (ht : t ∈ l) : n ≠ t := by
  rintro rfl
  obtain ⟨-, hlt, hready⟩ := hh.base.queued n ht
  have hrunning := (hh.running n hlt).mpr rfl
  exact absurd (hready.symm.trans hrunning) (by decide)

/-- The outgoing task comes back, or is the idle task, and the first one is next. -/
theorem Handover.turnsBefore {l₁ : List Nat} (hh : Handover s s' (l₁.erase b) L p b v m x y)
    (h : s.Steady (b :: l) L p) (hback : 0 < p → l₁.Perm (p :: b :: l) ∧ (s.task p).vruntime < v)
    (hidle : p = 0 → l₁ = b :: l) (ht : t ∈ b :: l) (ht' : t ∈ l₁.erase b) :
    s'.turnsBefore t + 1 ≤ s.turnsBefore t ∧ s'.vruntimes t = s.vruntimes t := by
  obtain ⟨-, -, hpl⟩ := h.mem_of_running
  have hpb : p ≠ b := fun e => hpl (e ▸ List.mem_cons_self)
  have hpt : p ≠ t := fun e => hpl (e ▸ ht)
  have hbt := hh.ne_current ht'
  have hle := h.base.head_le ht
  have hsame : ∀ u, u ≠ p → s'.vruntimes u = s.vruntimes u := by
    intro u hup
    by_cases hub : u = b
    · rw [hub, vruntimes, hh.incoming hpb]
      rfl
    · rw [vruntimes, hh.other u hup hub]
      rfl
  refine ⟨?_, hsame t (Ne.symm hpt)⟩
  rw [hh.base.turnsBefore hh.current, h.base.turnsBefore h.current]
  rcases Nat.eq_zero_or_pos p with hp0 | hpos
  · rw [hidle hp0] at ht' ⊢
    have hcongr : turnsAhead s'.vruntimes ((b :: l).erase b) b t =
        turnsAhead s.vruntimes ((b :: l).erase b) b t := by
      refine turnsAhead_congr (fun u hu => hsame u ?_) (hsame b (Ne.symm hpb)) ht'
      exact fun e => hpl (e ▸ List.mem_of_mem_erase hu)
    rw [hcongr]
    exact turnsAhead_leave List.mem_cons_self hbt hle
  · obtain ⟨hperm, hcharged⟩ := hback hpos
    have hperm' : (l₁.erase b).Perm (p :: (b :: l).erase b) := by
      have := hperm.erase b
      rwa [List.erase_cons_tail (by simpa using hpb)] at this
    have hcongr : turnsAhead s'.vruntimes (p :: (b :: l).erase b) b t =
        turnsAhead (Function.update s.vruntimes p v.toNat) (p :: (b :: l).erase b) b t := by
      have hupdate : ∀ u, s'.vruntimes u = Function.update s.vruntimes p v.toNat u := by
        intro u
        by_cases hup : u = p
        · rw [hup, Function.update_self, vruntimes, hh.vruntime]
        · rw [Function.update_of_ne hup, hsame u hup]
      exact turnsAhead_congr (fun u _ => hupdate u) (hupdate b) (hperm'.mem_iff.mp ht')
    rw [turnsAhead_perm hperm', hcongr]
    exact turnsAhead_switch List.mem_cons_self hbt hle hpt (BitVec.lt_def.mp hcharged) ht hpl

/-- A new task, if it is queued, is at the minimum at least. -/
theorem Created.turnsBefore {pid : Nat} {entry : Word} {priority : Int} {stack : Word}
    {args : Option TaskArgs} {env : Outside}
    (hc : Created s s' pid (newTask pid entry priority stack args env)) (h : s.Steady l L p)
    (hpid : pidFree? s.pidBitmap = some pid) (hqueue : s'.Queue l')
    (hin : entry ≠ 0 ∧ l.length < nodePoolSize → l'.Perm (s.objects :: l))
    (hout : ¬ (entry ≠ 0 ∧ l.length < nodePoolSize) → l' = l) (ht : t ∈ l) :
    s'.turnsBefore t ≤ s.turnsBefore t + (s.vruntimes t + 1 - s.minVruntime.toNat) ∧
      s'.vruntimes t = s.vruntimes t := by
  have hold : ∀ u, u ≠ s.objects → s'.vruntimes u = s.vruntimes u := fun u hu =>
    congrArg BitVec.toNat (hc.field Task.vruntime (fun _ _ => rfl) hu)
  have hne : ∀ u ∈ l, u ≠ s.objects := fun u hu => Nat.ne_of_lt (h.base.queued u hu).2.1
  have hcongr : turnsAhead s'.vruntimes l p t = turnsAhead s.vruntimes l p t :=
    turnsAhead_congr (fun u hu => hold u (hne u hu)) (hold p (Nat.ne_of_lt h.lt)) ht
  have hsteady := h.created hpid hc hqueue fun _ => mem_of_created hin hout
  refine ⟨?_, hold t (hne t ht)⟩
  rw [hsteady.base.turnsBefore hsteady.current, h.base.turnsBefore h.current]
  by_cases hroom : entry ≠ 0 ∧ l.length < nodePoolSize
  · have hmem : s.objects ∈ l' := (hin hroom).mem_iff.mpr List.mem_cons_self
    have hleast : s.minVruntime.toNat ≤ s'.vruntimes s.objects :=
      BitVec.le_def.mp (hc.least (hqueue.isQueued.mpr hmem))
    rw [turnsAhead_perm (hin hroom), turnsAhead_cons (Ne.symm (hne t ht)), hcongr,
      hold t (hne t ht)]
    omega
  · rw [hout hroom, hcongr]
    exact Nat.le_add_right _ _

/-- Runs from `s` in which the task `t` stays in the queue and every task is charged for its turn, with
the number of turns and of calls of `task_create`. -/
inductive Waiting (t : Nat) (s : Sched) : Nat → Nat → Sched → Prop
  | start : s.isQueued t = true → Waiting t s 0 0 s
  | next {turns births : Nat} {s₁ s₂ : Sched} (op : Op) : Waiting t s turns births s₁ →
      op.Valid s₁ → op.Charges s₁ → s₁.next op = some s₂ → s₂.isQueued t = true →
      Waiting t s (turns + op.turns s₁) (births + op.births) s₂

theorem Waiting.reach {turns births : Nat} (h : Waiting t s turns births s') :
    Machine.Reach Sched.next (fun s op => op.Valid s) s s' := by
  induction h with
  | start => exact .start
  | next op _ hvalid _ hs _ ih => exact .next op ih hvalid hs

theorem Waiting.queued {turns births : Nat} (h : Waiting t s turns births s') :
    s'.isQueued t = true := by
  cases h with
  | start hq => exact hq
  | next op _ _ _ _ hq => exact hq

end Sched

end Arcline
