import Arcline.Arch.Irq
import Arcline.Sched.Trace

set_option autoImplicit false

/-! # Resuming a suspended task

A task is suspended by an interrupt or in `switch_to`, or it is new. Three paths resume it: the exit of
the interrupt, from the frame that `schedule_preempt` has filled; `switch_to`; and, where the task that
ran before has ended, the jump at the end of `schedule`. Each loads another part of the context. For
each path and each kind of suspension this module says when the task gets back the registers it needs.
-/

namespace Arcline

namespace Suspension

/-- The registers `c` are what the suspended task needs to go on, leaving `x23` aside. -/
def Gets : Suspension → CpuContext → Prop
  | .interrupted regs, c =>
      (∀ i, i ≠ 23 → c.x i = regs.x i) ∧ c.sp = regs.sp ∧ c.pc = regs.pc ∧ c.pstate = regs.pstate
  | .yielded cpu, c => (∀ i, 19 ≤ i → i ≠ 23 → c.x i = cpu.x i) ∧ c.sp = cpu.sp
  | .fresh ctx, c => c.sp = ctx.sp ∧ c.pc = ctx.pc ∧ c.pstate = ctx.pstate

/-- The exit of the interrupt overwrites `x9` with the stack pointer. -/
def SuitsFrame : Suspension → Prop
  | .interrupted regs => regs.x 9 = regs.sp
  | .yielded _ | .fresh _ => True

/-- `switch_to` loads `x19` to `x30` and the stack pointer, and goes through `x9` to the program
counter; all else is what the processor held. -/
def SuitsSwitch (cpu : CpuContext) : Suspension → Prop
  | .interrupted regs =>
      (∀ i, i < 19 → i ≠ 9 → cpu.x i = regs.x i) ∧ regs.x 9 = regs.pc ∧ cpu.pstate = regs.pstate
  | .yielded _ => True
  | .fresh ctx => cpu.pstate = ctx.pstate

/-- The jump loads `x29`, `x30`, the stack pointer and the program counter. -/
def SuitsJump (cpu : CpuContext) : Suspension → Prop
  | .interrupted regs => (∀ i, i < 29 → i ≠ 23 → cpu.x i = regs.x i) ∧ cpu.pstate = regs.pstate
  | .yielded c => ∀ i, 19 ≤ i → i < 29 → i ≠ 23 → cpu.x i = c.x i
  | .fresh ctx => cpu.pstate = ctx.pstate

variable {x : Suspension} {ctx : CpuContext}

theorem setX_of_ne (ctx : CpuContext) {i j : Fin 31} (hij : i ≠ j) (w : Word) :
    (ctx.setX j w).x i = ctx.x i := Function.update_of_ne hij _ _

theorem setX_setX (ctx : CpuContext) (i : Fin 31) (v w : Word) :
    (ctx.setX i v).setX i w = ctx.setX i w := by
  simp [CpuContext.setX]

/-- The exit of the interrupt, from the frame of the task with its new start time. -/
theorem gets_irqReturn (h : x.Matches ctx) (w : Word) :
    x.Gets (ctx.setX 23 w).irqReturn ↔ x.SuitsFrame := by
  cases x with
  | interrupted regs =>
      obtain ⟨v, rfl⟩ := h
      rw [setX_setX]
      have hx : ∀ i, i ≠ 23 → ((regs.setX 23 w).irqReturn.x i = regs.x i ↔
          (i = 9 → regs.sp = regs.x 9)) := by
        intro i hi
        by_cases h9 : i = 9
        · subst h9
          simp [CpuContext.irqReturn, CpuContext.setX]
        · rw [CpuContext.irqReturn, setX_of_ne _ h9, setX_of_ne _ hi]
          simp [h9]
      constructor
      · rintro ⟨hgets, -⟩
        exact ((hx 9 (by decide)).mp (hgets 9 (by decide)) rfl).symm
      · intro hsuits
        exact ⟨fun i hi => (hx i hi).mpr fun _ => hsuits.symm, rfl, rfl, rfl⟩
  | yielded cpu =>
      refine ⟨fun _ => trivial, fun _ => ⟨fun i h19 hi => ?_, h.2⟩⟩
      have h9 : i ≠ 9 := by
        rintro rfl
        exact absurd h19 (by decide)
      rw [CpuContext.irqReturn, setX_of_ne _ h9, setX_of_ne _ hi]
      exact h.1 i h19
  | fresh c =>
      obtain rfl : ctx = c := h
      exact ⟨fun _ => trivial, fun _ => ⟨rfl, rfl, rfl⟩⟩

/-- `switch_to`, from the context of the task with its new start time. -/
theorem gets_switchIn (h : x.Matches ctx) (cpu : CpuContext) (w : Word) :
    x.Gets (cpu.switchIn (ctx.setX 23 w)) ↔ x.SuitsSwitch cpu := by
  have hhigh : ∀ i : Fin 31, 19 ≤ i → i ≠ 23 → (cpu.switchIn (ctx.setX 23 w)).x i = ctx.x i := by
    intro i h19 hi
    rw [← setX_of_ne ctx hi w]
    exact if_pos h19
  cases x with
  | interrupted regs =>
      obtain ⟨v, rfl⟩ := h
      have hlow : ∀ i : Fin 31, i < 19 → (cpu.switchIn ((regs.setX 23 v).setX 23 w)).x i =
          if i = 9 then regs.pc else cpu.x i :=
        fun i h19 => if_neg (Fin.not_le.mpr h19)
      constructor
      · rintro ⟨hgets, -, -, hpstate⟩
        refine ⟨fun i h19 h9 => ?_, ?_, hpstate⟩
        · have hi : i ≠ 23 := by
            rintro rfl
            exact absurd h19 (by decide)
          rw [← hgets i hi, hlow i h19, if_neg h9]
        · rw [← hgets 9 (by decide), hlow 9 (by decide), if_pos rfl]
      · rintro ⟨hregs, h9, hpstate⟩
        refine ⟨fun i hi => ?_, rfl, rfl, hpstate⟩
        by_cases h19 : 19 ≤ i
        · rw [hhigh i h19 hi, setX_of_ne _ hi]
        · rw [hlow i (Fin.not_le.mp h19)]
          split
          · rename_i hi9
            rw [hi9, h9]
          · rename_i hi9
            exact hregs i (Fin.not_le.mp h19) hi9
  | yielded c =>
      refine ⟨fun _ => trivial, fun _ => ⟨fun i h19 hi => ?_, h.2⟩⟩
      rw [hhigh i h19 hi]
      exact h.1 i h19
  | fresh c =>
      obtain rfl : ctx = c := h
      exact ⟨fun hgets => hgets.2.2, fun hpstate => ⟨rfl, rfl, hpstate⟩⟩

/-- The jump, to the context of the task with its new start time. -/
theorem gets_jumpIn (h : x.Matches ctx) (cpu : CpuContext) (w : Word) :
    x.Gets (cpu.jumpIn (ctx.setX 23 w)) ↔ x.SuitsJump cpu := by
  have hhigh : ∀ i : Fin 31, 29 ≤ i → (cpu.jumpIn (ctx.setX 23 w)).x i = ctx.x i := by
    intro i h29
    have hi : i ≠ 23 := by
      rintro rfl
      exact absurd h29 (by decide)
    rw [← setX_of_ne ctx hi w]
    exact if_pos h29
  have hlow : ∀ i : Fin 31, i < 29 → (cpu.jumpIn (ctx.setX 23 w)).x i = cpu.x i :=
    fun i h29 => if_neg (Fin.not_le.mpr h29)
  cases x with
  | interrupted regs =>
      obtain ⟨v, rfl⟩ := h
      constructor
      · rintro ⟨hgets, -, -, hpstate⟩
        exact ⟨fun i h29 hi => by rw [← hgets i hi, hlow i h29], hpstate⟩
      · rintro ⟨hregs, hpstate⟩
        refine ⟨fun i hi => ?_, rfl, rfl, hpstate⟩
        by_cases h29 : 29 ≤ i
        · rw [hhigh i h29, setX_of_ne _ hi]
        · rw [hlow i (Fin.not_le.mp h29)]
          exact hregs i (Fin.not_le.mp h29) hi
  | yielded c =>
      constructor
      · rintro ⟨hgets, -⟩ i h19 h29 hi
        rw [← hgets i h19 hi, hlow i h29]
      · intro hregs
        refine ⟨fun i h19 hi => ?_, h.2⟩
        by_cases h29 : 29 ≤ i
        · rw [hhigh i h29]
          exact h.1 i h19
        · rw [hlow i (Fin.not_le.mp h29)]
          exact hregs i h19 (Fin.not_le.mp h29) hi
  | fresh c =>
      obtain rfl : ctx = c := h
      exact ⟨fun hgets => hgets.2.2, fun hpstate => ⟨rfl, rfl, hpstate⟩⟩

end Suspension

namespace Sched

/-- The registers with which the processor goes on after a call that ends with the registers `c`: the
interrupt has its exit path still before it. -/
def Op.resumed (c : CpuContext) : Op → CpuContext
  | .preempt _ _ _ => c.irqReturn
  | _ => c

/-- The path on which a call resumes a task suits its suspension. -/
def Op.Suits (x : Suspension) : Op → Prop
  | .preempt _ _ _ => x.SuitsFrame
  | .schedule _ cpu _ => x.SuitsSwitch cpu
  | .exit _ cpu _ | .kill _ _ cpu _ => x.SuitsJump cpu
  | .create _ _ _ _ => True

namespace Trace

variable {τ : Trace} {s₀ s' : Sched} {l L : List Nat} {p n : Nat} {op : Op} {x : Suspension}
  {memory : Nat → Task} {idle : Word} {env : Outside}

/-- How the task that runs after the call was suspended: the current task by the call itself. -/
def resumes (τ : Trace) (op : Op) (n : Nat) : Option Suspension :=
  if τ.sched.currentTask = some n then op.suspends else τ.suspended n

/-- The suspension of a task that is switched to, and what is left of it in the context. -/
theorem Follows.matches_of_ne (hf : τ.Follows l L p) (hnp : n ≠ p)
    (hx : τ.resumes op n = some x) : x.Matches (τ.sched.task n).context := by
  unfold resumes at hx
  rw [hf.steady.current, if_neg fun e => hnp (Option.some.inj e).symm] at hx
  exact (hf.context n x hx).2

theorem Follows.resumes_self (hf : τ.Follows l L p) : τ.resumes op p = op.suspends :=
  if_pos hf.steady.current

/-- The task that runs after one call. -/
theorem Follows.gets_iff {c : CpuContext} (hf : τ.Follows l L p)
    (hs : Steps τ.sched l L p op s' (some c)) (hn : s'.currentTask = some n)
    (hx : τ.resumes op n = some x) : x.Gets (op.resumed c) ↔ op.Suits x := by
  -- a task that a jump resumes is not the one that has ended
  have hjump : op.suspends = none → n ≠ p := by
    rintro hnone rfl
    rw [hf.resumes_self, hnone] at hx
    exact absurd hx (by simp)
  cases hs with
  | @scheduled now cpu label n' _ hn' hh =>
      obtain rfl : n' = n := Option.some.inj (hh.current.symm.trans hn)
      by_cases hnp : n' = p
      · -- the task goes on with the registers it has
        rw [hnp, hf.resumes_self] at hx
        obtain rfl : .yielded cpu = x := Option.some.inj hx
        rw [if_pos hnp]
        exact ⟨fun _ => trivial, fun _ => ⟨fun _ _ _ => rfl, rfl⟩⟩
      · rw [if_neg hnp]
        exact Suspension.gets_switchIn (hf.matches_of_ne hnp hx) cpu now
  | @preempted regs now now' n' _ hn' hh =>
      obtain rfl : n' = n := Option.some.inj (hh.current.symm.trans hn)
      by_cases hnp : n' = p
      · rw [hnp, hf.resumes_self] at hx
        obtain rfl : .interrupted regs = x := Option.some.inj hx
        have hregs : regs.setX 23 (regs.x 23) = regs := by
          simp [CpuContext.setX]
        rw [if_pos hnp]
        have hgets := Suspension.gets_irqReturn (x := .interrupted regs)
          ⟨regs.x 23, hregs.symm⟩ (regs.x 23)
        rw [hregs] at hgets
        exact hgets
      · rw [if_neg hnp]
        exact Suspension.gets_irqReturn (hf.matches_of_ne hnp hx) now'
  | @exited now cpu label n' s₁ _ he hn' hh =>
      obtain rfl : n' = n := Option.some.inj (hh.current.symm.trans hn)
      exact Suspension.gets_jumpIn (hf.matches_of_ne (hjump rfl) hx) cpu now
  | spared hspared => exact absurd (Option.some.inj (hn.symm.trans hf.steady.current)) (hjump rfl)
  | killed hpos hlt hlive htp he hbase hcur =>
      exact absurd (Option.some.inj (hn.symm.trans hcur)) (hjump rfl)
  | @killedCurrent now cpu label n' s₁ _ hpos he hn' hh =>
      obtain rfl : n' = n := Option.some.inj (hh.current.symm.trans hn)
      exact Suspension.gets_jumpIn (hf.matches_of_ne (hjump rfl) hx) cpu now

theorem step_preempt_eq_ok {regs c : CpuContext} {now now' : Word} :
    τ.sched.step (.preempt regs now now') = .ok (s', some c) ↔
      τ.sched.schedulePreempt regs now now' = .ok (s', c) := by
  rw [Sched.step]
  cases τ.sched.schedulePreempt regs now now' with
  | error e => exact ⟨fun h => absurd h (by simp [bind, Except.bind]), fun h => absurd h (by simp)⟩
  | ok r =>
      rcases r with ⟨s₁, c₁⟩
      simp [bind, Except.bind, pure, Except.pure]

/-! ## Runs that resume a task -/

/-- The task `n`, if the call resumes it: how it was suspended, and the registers the call ends with. -/
def resumption (τ : Trace) (op : Op) (n : Nat) : Option (Suspension × CpuContext) :=
  match τ.sched.step op with
  | .ok (s', some c) =>
      if s'.currentTask = some n then (τ.resumes op n).map fun x => (x, c) else none
  | _ => none

theorem of_resumption_eq_some {c : CpuContext} (h : τ.resumption op n = some (x, c)) :
    ∃ s', τ.sched.step op = .ok (s', some c) ∧ s'.currentTask = some n ∧
      τ.resumes op n = some x := by
  unfold resumption at h
  split at h
  · rename_i s' c' hstep
    split at h
    · obtain ⟨y, hy, heq⟩ := Option.map_eq_some_iff.mp h
      obtain ⟨rfl, rfl⟩ : y = x ∧ c' = c := Prod.ext_iff.mp heq
      exact ⟨s', hstep, ‹_›, hy⟩
    · exact absurd h (by simp)
  · exact absurd h (by simp)

/-- A run with its history, in the surroundings of `sampleRun`, and a call after it that resumes the
task `n`. -/
theorem exists_sampleResumption (ops : List Op) (op : Op) (n : Nat)
    (f : Trace → Suspension → CpuContext → Bool)
    (h : (sampleRun step start (fun τ op => op.valid τ.sched) ops).any
      (fun τ => (τ.resumption op n).any fun r => f τ r.1 r.2) = true) :
    ∃ s₀ τ s' x c, taskInit (fun _ => blankTask) 0x1000 sampleOutside = .ok s₀ ∧
      Machine.Reach step (fun τ op => op.Valid τ.sched) (start s₀) τ ∧
      τ.sched.step op = .ok (s', some c) ∧ s'.currentTask = some n ∧ τ.resumes op n = some x ∧
      f τ x c = true := by
  obtain ⟨s₀, τ, hs₀, hreach, hτ⟩ :=
    exists_sampleRun step start (fun τ => Op.valid_of_check τ.sched) ops _ h
  obtain ⟨⟨x, c⟩, hr, hf⟩ := (Option.any_eq_true _ _).mp hτ
  obtain ⟨s', hstep, hn, hx⟩ := of_resumption_eq_some hr
  exact ⟨s₀, τ, s', x, c, hs₀, hreach, hstep, hn, hx, hf⟩

/-! ## The two results -/

/-- **What a resumed task gets back**: in every run, a task that a call resumes gets the registers its
suspension needs if and only if the path that resumes it suits the suspension. Only a task that has
yielded and is resumed by `switch_to` or a frame, and a new task that is started by a frame, are safe
on their path alone. -/
theorem resumed_gets_iff (h₀ : taskInit memory idle env = .ok s₀)
    (h : Machine.Reach step (fun τ op => op.Valid τ.sched) (start s₀) τ) {c : CpuContext}
    (hvalid : op.Valid τ.sched) (hs : τ.sched.step op = .ok (s', some c))
    (hn : s'.currentTask = some n) (hx : τ.resumes op n = some x) :
    x.Gets (op.resumed c) ↔ op.Suits x := by
  obtain ⟨l, L, p, hf⟩ := reach_follows (taskInit_started h₀) h
  exact hf.gets_iff (hf.steady.steps hvalid hs) hn hx

/-- A task that has yielded with 3 in `x19` is switched to. -/
theorem resumed_gets_yielded :
    ∃ s₀ τ s' cpu c, taskInit (fun _ => blankTask) 0x1000 sampleOutside = .ok s₀ ∧
      Machine.Reach step (fun τ op => op.Valid τ.sched) (start s₀) τ ∧
      τ.sched.step (.schedule 205 .zero 0x5000) = .ok (s', some c) ∧ s'.currentTask = some 1 ∧
      τ.resumes (.schedule 205 .zero 0x5000) 1 = some (.yielded cpu) ∧ cpu.x 19 = 3 ∧
      (Suspension.yielded cpu).Gets c := by
  obtain ⟨s₀, τ, s', x, c, hs₀, hreach, hstep, hn, hx, hf⟩ := exists_sampleResumption
    [.create 0x2000 0 none sampleOutside, .create 0x3000 0 none sampleOutside,
      .schedule 5 .zero 0x5000, .schedule 105 (CpuContext.zero.setX 19 3) 0x5000]
    (.schedule 205 .zero 0x5000) 1
    (fun _ x _ => match x with
      | .yielded cpu => decide (cpu.x 19 = 3)
      | _ => false) (by decide +kernel)
  cases x with
  | yielded cpu =>
      have hvalid : (Op.schedule 205 .zero 0x5000).Valid τ.sched := trivial
      exact ⟨s₀, τ, s', cpu, c, hs₀, hreach, hstep, hn, hx, of_decide_eq_true hf,
        (resumed_gets_iff hs₀ hreach hvalid hstep hn hx).mpr trivial⟩
  | interrupted regs => exact absurd hf (by simp)
  | fresh ctx => exact absurd hf (by simp)

/-- The idle task is interrupted with 7 in `x0`; the task that takes over ends, and the jump resumes the
idle task with what that task had in `x0`. -/
theorem jump_loses_register :
    ∃ s₀ τ s' regs c, taskInit (fun _ => blankTask) 0x1000 sampleOutside = .ok s₀ ∧
      Machine.Reach step (fun τ op => op.Valid τ.sched) (start s₀) τ ∧
      τ.sched.step (.exit 105 .zero 0x5000) = .ok (s', some c) ∧ s'.currentTask = some 0 ∧
      τ.resumes (.exit 105 .zero 0x5000) 0 = some (.interrupted regs) ∧
      regs.x 0 = 7 ∧ c.x 0 = 0 ∧ ¬ (Suspension.interrupted regs).Gets c := by
  obtain ⟨s₀, τ, s', x, c, hs₀, hreach, hstep, hn, hx, hf⟩ := exists_sampleResumption
    [.create 0x2000 0 none sampleOutside, .preempt (CpuContext.zero.setX 0 7) 5 10]
    (.exit 105 .zero 0x5000) 0
    (fun _ x c => match x with
      | .interrupted regs => decide (regs.x 0 = 7 ∧ c.x 0 = 0)
      | _ => false) (by decide +kernel)
  cases x with
  | interrupted regs =>
      obtain ⟨h7, h0⟩ := of_decide_eq_true hf
      refine ⟨s₀, τ, s', regs, c, hs₀, hreach, hstep, hn, hx, h7, h0, fun hgets => ?_⟩
      have hx0 := hgets.1 0 (by decide)
      rw [h7, h0] at hx0
      exact absurd hx0 (by decide)
  | yielded cpu => exact absurd hf (by simp)
  | fresh ctx => exact absurd hf (by simp)

/-- **A preempted task gets its frame back** just when the frame held, in `x23`, the time at which the
task is switched in again: the start time is kept in that place of the saved context. -/
theorem preempt_restores_iff (h₀ : taskInit memory idle env = .ok s₀)
    (h : Machine.Reach step (fun τ op => op.Valid τ.sched) (start s₀) τ)
    {regs regs' saved : CpuContext} {now now' : Word}
    (hs : τ.sched.schedulePreempt regs now now' = .ok (s', regs'))
    (hn : s'.currentTask = some n) (hne : τ.sched.currentTask ≠ some n)
    (hsaved : τ.suspended n = some (.interrupted saved)) :
    regs' = saved ↔ saved.x 23 = now' := by
  obtain ⟨l, L, p, hf⟩ := reach_follows (taskInit_started h₀) h
  obtain ⟨w, hctx⟩ := (hf.context n _ hsaved).2
  have hvalid : (Op.preempt regs now now').Valid τ.sched := trivial
  have hregs : regs' = saved.setX 23 now' := by
    cases hf.steady.steps hvalid (step_preempt_eq_ok.mpr hs) with
    | @preempted _ _ _ n' _ hn' hh =>
        obtain rfl : n' = n := Option.some.inj (hh.current.symm.trans hn)
        have hnp : n' ≠ p := by
          rintro rfl
          exact hne hf.steady.current
        rw [if_neg hnp, hctx, Suspension.setX_setX]
  rw [hregs, CpuContext.ext_iff]
  simp only [CpuContext.setX, Function.update_eq_self_iff, and_self, and_true]
  exact eq_comm

/-- The preempted task holds in `x23` the very time at which it is switched in again. -/
theorem preempt_restores_same_time :
    ∃ s₀ τ s' saved, taskInit (fun _ => blankTask) 0x1000 sampleOutside = .ok s₀ ∧
      Machine.Reach step (fun τ op => op.Valid τ.sched) (start s₀) τ ∧
      τ.sched.schedulePreempt .zero 205 210 = .ok (s', saved) ∧ s'.currentTask = some 1 ∧
      τ.sched.currentTask ≠ some 1 ∧ τ.suspended 1 = some (.interrupted saved) := by
  obtain ⟨s₀, τ, s', x, c, hs₀, hreach, hstep, hn, hx, hf⟩ := exists_sampleResumption
    [.create 0x2000 0 none sampleOutside, .create 0x3000 0 none sampleOutside,
      .schedule 5 .zero 0x5000, .preempt (CpuContext.zero.setX 23 210) 105 110]
    (.preempt .zero 205 210) 1
    (fun τ x _ => match x with
      | .interrupted saved => decide (τ.sched.currentTask ≠ some 1 ∧ saved.x 23 = 210)
      | _ => false) (by decide +kernel)
  cases x with
  | interrupted saved =>
      obtain ⟨hne, h210⟩ := of_decide_eq_true hf
      have hsaved : τ.suspended 1 = some (.interrupted saved) := (if_neg hne).symm.trans hx
      have hs := step_preempt_eq_ok.mp hstep
      obtain rfl := (preempt_restores_iff hs₀ hreach hs hn hne hsaved).mpr h210
      exact ⟨s₀, τ, s', c, hs₀, hreach, hs, hn, hne, hsaved⟩
  | yielded cpu => exact absurd hf (by simp)
  | fresh ctx => exact absurd hf (by simp)

/-- A task is preempted with 7 in `x23` and resumed at 210 ns, with 210 there. -/
theorem preempt_loses_x23 :
    ∃ s₀ τ s' saved c, taskInit (fun _ => blankTask) 0x1000 sampleOutside = .ok s₀ ∧
      Machine.Reach step (fun τ op => op.Valid τ.sched) (start s₀) τ ∧
      τ.sched.schedulePreempt .zero 205 210 = .ok (s', c) ∧ s'.currentTask = some 1 ∧
      τ.sched.currentTask ≠ some 1 ∧ τ.suspended 1 = some (.interrupted saved) ∧
      saved.x 23 = 7 ∧ c.x 23 = 210 ∧ c ≠ saved := by
  obtain ⟨s₀, τ, s', x, c, hs₀, hreach, hstep, hn, hx, hf⟩ := exists_sampleResumption
    [.create 0x2000 0 none sampleOutside, .create 0x3000 0 none sampleOutside,
      .schedule 5 .zero 0x5000, .preempt (CpuContext.zero.setX 23 7) 105 110]
    (.preempt .zero 205 210) 1
    (fun τ x c => match x with
      | .interrupted saved =>
          decide (τ.sched.currentTask ≠ some 1 ∧ saved.x 23 = 7 ∧ c.x 23 = 210)
      | _ => false) (by decide +kernel)
  cases x with
  | interrupted saved =>
      obtain ⟨hne, h7, h210⟩ := of_decide_eq_true hf
      have hsaved : τ.suspended 1 = some (.interrupted saved) := (if_neg hne).symm.trans hx
      refine ⟨s₀, τ, s', saved, c, hs₀, hreach, step_preempt_eq_ok.mp hstep, hn, hne, hsaved, h7,
        h210, ?_⟩
      rintro rfl
      exact absurd (h7.symm.trans h210) (by decide)
  | yielded cpu => exact absurd hf (by simp)
  | fresh ctx => exact absurd hf (by simp)

end Trace

end Sched

end Arcline
