import Arcline.Sched.Runs

set_option autoImplicit false

/-! # Runs with their history

Beside the state of the scheduler a trace keeps what the code does not: how each task that does not
run was suspended, with the registers it had then, and when each task was last switched in or charged.
The contexts of the tasks are compared with this history: how the context of a suspended task relates
to the registers it had, and whether the start time in the context of the running task, its `x23`, is
the right one.
-/

namespace Arcline

/-- How a task that does not run was suspended: by an interrupt, with the registers that were in the
frame; in `switch_to`, with the registers it was called with; or not at all, since it is new, with the
context `task_create` has given it. -/
inductive Suspension
  | interrupted (regs : CpuContext)
  | yielded (cpu : CpuContext)
  | fresh (context : CpuContext)

/-- What is left of the registers in the context of the task. -/
def Suspension.Matches : Suspension → CpuContext → Prop
  | .interrupted regs, ctx => ∃ w, ctx = regs.setX 23 w
  | .yielded cpu, ctx => (∀ i, 19 ≤ i → ctx.x i = cpu.x i) ∧ ctx.sp = cpu.sp
  | .fresh c, ctx => ctx = c

namespace Sched

/-- How a call suspends the task that makes it, if another one runs next. -/
def Op.suspends : Op → Option Suspension
  | .schedule _ cpu _ => some (.yielded cpu)
  | .preempt regs _ _ => some (.interrupted regs)
  | _ => none

/-- A state of the scheduler with its history. -/
structure Trace where
  sched : Sched
  suspended : Nat → Option Suspension
  /-- when the task was last switched in or charged -/
  last : Nat → Option Word

namespace Trace

variable {τ τ' : Trace} {s s₁ s' : Sched} {l l' L L' : List Nat} {p n : Nat} {op : Op}
  {out : Option CpuContext}

/-- The suspended tasks after a call that leads to `s'`. -/
def suspend (τ : Trace) (s' : Sched) (op : Op) (t : Nat) : Option Suspension :=
  if s'.currentTask = some t then none
  else if τ.sched.currentTask = some t then op.suspends
  else if τ.sched.objects ≤ t ∧ t < s'.objects then some (.fresh (s'.task t).context)
  else τ.suspended t

/-- The times after a call that leads to `s'`. -/
def clock (τ : Trace) (s' : Sched) (op : Op) (t : Nat) : Option Word :=
  match op with
  | .schedule now _ _ =>
      if s'.currentTask = some t ∨ τ.sched.currentTask = some t then some now else τ.last t
  | .preempt _ now now' =>
      if τ.sched.currentTask = some t then some now
      else if s'.currentTask = some t then some now' else τ.last t
  | .exit now _ _ => if s'.currentTask = some t then some now else τ.last t
  | .kill _ now _ _ =>
      if s'.currentTask = some t ∧ τ.sched.currentTask ≠ some t then some now else τ.last t
  | .create _ _ _ _ => τ.last t

def step (τ : Trace) (op : Op) : Option Trace :=
  match τ.sched.step op with
  | .error _ => none
  | .ok (s', _) => some { sched := s', suspended := τ.suspend s' op, last := τ.clock s' op }

/-- The start of a run: the idle task is running, and no other task is there. -/
def start (s : Sched) : Trace where
  sched := s
  suspended _ := none
  last _ := none

theorem step_eq_some : τ.step op = some τ' ↔
    ∃ s' out, τ.sched.step op = .ok (s', out) ∧
      τ' = { sched := s', suspended := τ.suspend s' op, last := τ.clock s' op } := by
  unfold step
  cases hs : τ.sched.step op with
  | error e => simp
  | ok r =>
      rcases r with ⟨s₁, out₁⟩
      simp [eq_comm]

/-- The contexts of the tasks follow the history. -/
structure Follows (τ : Trace) (l L : List Nat) (p : Nat) : Prop where
  steady : τ.sched.Steady l L p
  running : τ.suspended p = none
  context : ∀ t x, τ.suspended t = some x →
    t < τ.sched.objects ∧ x.Matches (τ.sched.task t).context
  queued : ∀ t ∈ l, τ.suspended t ≠ none
  clock : (τ.sched.task p).context.x 23 = (τ.last p).getD 0

theorem follows_start (h : s.Started) : (start s).Follows [] [0] 0 :=
  ⟨h.steady, rfl, fun _ _ hx => absurd hx (by simp [start]), fun _ ht => absurd ht (by simp), h.start⟩

/-- After a call that may hand the processor over to `n`. -/
theorem Follows.handover (hf : τ.Follows l L p) (hsteady : s'.Steady l' L' n)
    (hobjects : s'.objects = τ.sched.objects)
    (hother : ∀ u, u ≠ p → u ≠ n → (s'.task u).context = (τ.sched.task u).context)
    (hleft : p ≠ n → ∀ x, op.suspends = some x → x.Matches (s'.task p).context)
    (hl' : ∀ t ∈ l', t ∈ l ∨ t = p ∧ op.suspends ≠ none)
    (hclock : (s'.task n).context.x 23 = (τ.clock s' op n).getD 0) :
    Follows { sched := s', suspended := τ.suspend s' op, last := τ.clock s' op } l' L' n := by
  have hnew : ∀ t, ¬ (τ.sched.objects ≤ t ∧ t < s'.objects) := fun t => by omega
  have hsuspend : ∀ t, t ≠ n → τ.suspend s' op t =
      if t = p then op.suspends else τ.suspended t := by
    intro t htn
    unfold suspend
    rw [hsteady.current, hf.steady.current, if_neg (by simpa using htn.symm), if_neg (hnew t)]
    by_cases htp : t = p
    · simp [htp]
    · simp [htp, Ne.symm htp]
  have hn : τ.suspend s' op n = none := by
    unfold suspend
    rw [if_pos hsteady.current]
  refine ⟨hsteady, hn, fun t x hx => ?_, fun t ht => ?_, hclock⟩
  · have htn : t ≠ n := by
      rintro rfl
      have hx' : τ.suspend s' op t = some x := hx
      rw [hn] at hx'
      exact absurd hx' (by simp)
    have hx' : τ.suspend s' op t = some x := hx
    rw [hsuspend t htn] at hx'
    by_cases htp : t = p
    · subst htp
      rw [if_pos rfl] at hx'
      exact ⟨hobjects ▸ hf.steady.lt, hleft htn x hx'⟩
    · rw [if_neg htp] at hx'
      obtain ⟨hlt, hmatch⟩ := hf.context t x hx'
      refine ⟨hobjects ▸ hlt, ?_⟩
      show x.Matches (s'.task t).context
      rw [hother t htp htn]
      exact hmatch
  · have htn : t ≠ n := by
      rintro rfl
      exact (hsteady.mem_of_running).2.2 ht
    show τ.suspend s' op t ≠ none
    rw [hsuspend t htn]
    rcases hl' t ht with htl | ⟨rfl, hsome⟩
    · have htp : t ≠ p := by
        rintro rfl
        exact (hf.steady.mem_of_running).2.2 htl
      rw [if_neg htp]
      exact hf.queued t htl
    · rw [if_pos rfl]
      exact hsome

theorem saveCallee_matches (ctx cpu : CpuContext) (label : Word) :
    (Suspension.yielded cpu).Matches (ctx.saveCallee cpu label) :=
  ⟨fun _ hi => if_pos hi, rfl⟩

/-- The new start time of a context. -/
theorem setX_start (ctx : CpuContext) (now : Word) : (ctx.setX 23 now).x 23 = now := by
  simp [CpuContext.setX]

/-- Where the current task has ended, the next one is resumed by the jump. -/
theorem Follows.ended {v m : Word} {a b : CpuContext} (hf : τ.Follows l L p) {now : Word}
    (he : Ended τ.sched s₁ p) (hn : n = nextOf l)
    (hh : Handover s₁ s' (l.erase n) L' n n v m a b)
    (hb : b = (τ.sched.task n).context.setX 23 now) (hnone : op.suspends = none)
    (hclock : τ.clock s' op n = some now) :
    Follows { sched := s', suspended := τ.suspend s' op, last := τ.clock s' op } (l.erase n) L' n := by
  have hctx : ∀ u, (s₁.task u).context = (τ.sched.task u).context :=
    he.field Task.context fun _ _ _ _ => rfl
  have hlt : n < s₁.objects := by
    rw [he.objects, hn]
    exact hf.steady.base.nextOf_lt
  refine hf.handover (hh.steady hlt) (hh.keeps.objects.trans he.objects) (fun u _ hun => ?_)
    (fun _ x hx => ?_) (fun t ht => .inl (List.mem_of_mem_erase ht)) ?_
  · rw [hh.other u hun hun, hctx u]
  · rw [hnone] at hx
    exact absurd hx (by simp)
  · rw [hh.entered, hb, hclock, setX_start]
    rfl

/-- A new task is suspended with the context it was created with. -/
theorem Follows.created (hf : τ.Follows l L p) {pid : Nat} {entry : Word} {priority : Int}
    {stack : Word} {args : Option TaskArgs} {env : Outside}
    (hsteady : s'.Steady l' L' p)
    (hc : Created τ.sched s' pid (newTask pid entry priority stack args env))
    (hsub : ∀ u ∈ l', u = τ.sched.objects ∨ u ∈ l)
    (hclock : ∀ t, τ.clock s' op t = τ.last t) :
    Follows { sched := s', suspended := τ.suspend s' op, last := τ.clock s' op } l' L' p := by
  have hp : τ.suspend s' op p = none := by
    unfold suspend
    rw [if_pos hsteady.current]
  have hsuspend : ∀ t, t ≠ p → τ.suspend s' op t =
      if t = τ.sched.objects then some (.fresh (s'.task t).context) else τ.suspended t := by
    intro t htp
    unfold suspend
    rw [hsteady.current, hf.steady.current, if_neg (by simpa using htp.symm),
      if_neg (by simpa using htp.symm), hc.objects]
    by_cases ht : t = τ.sched.objects
    · rw [if_pos (by omega), if_pos ht]
    · rw [if_neg (by omega), if_neg ht]
  have hctx : ∀ u, u ≠ τ.sched.objects → (s'.task u).context = (τ.sched.task u).context :=
    fun u hu => hc.field Task.context (fun _ _ => rfl) hu
  refine ⟨hsteady, hp, fun t x hx => ?_, fun t ht => ?_, ?_⟩
  · have hx' : τ.suspend s' op t = some x := hx
    have htp : t ≠ p := by
      rintro rfl
      rw [hp] at hx'
      exact absurd hx' (by simp)
    rw [hsuspend t htp] at hx'
    show t < s'.objects ∧ x.Matches (s'.task t).context
    rw [hc.objects]
    by_cases ht : t = τ.sched.objects
    · rw [if_pos ht] at hx'
      obtain rfl := Option.some.inj hx'
      exact ⟨by omega, rfl⟩
    · rw [if_neg ht] at hx'
      obtain ⟨hlt, hmatch⟩ := hf.context t x hx'
      rw [hctx t ht]
      exact ⟨by omega, hmatch⟩
  · have htp : t ≠ p := by
      rintro rfl
      exact (hsteady.mem_of_running).2.2 ht
    show τ.suspend s' op t ≠ none
    rw [hsuspend t htp]
    rcases hsub t ht with rfl | htl
    · rw [if_pos rfl]
      simp
    · rw [if_neg (Nat.ne_of_lt (hf.steady.base.queued t htl).2.1)]
      exact hf.queued t htl
  · show (s'.task p).context.x 23 = (τ.clock s' op p).getD 0
    rw [hclock, hctx p (Nat.ne_of_lt hf.steady.lt)]
    exact hf.clock

/-- **One call** keeps the contexts in accord with the history. -/
theorem Follows.step (hf : τ.Follows l L p) (hs : Steps τ.sched l L p op s' out) :
    ∃ l' L' p',
      Follows { sched := s', suspended := τ.suspend s' op, last := τ.clock s' op } l' L' p' := by
  have hsteady := hf.steady
  cases hs with
  | refused hcan =>
      refine ⟨l, L, p, hf.handover hsteady rfl (fun _ _ _ => rfl) (fun hne => absurd rfl hne)
        (fun t ht => .inl ht) hf.clock⟩
  | @created entry priority args env pid stack _ l' hcan hpid hstack hqueue hc hin hout =>
      have hsub : ∀ u ∈ l', u = τ.sched.objects ∨ u ∈ l := fun _ => mem_of_created hin hout
      exact ⟨_, _, p, hf.created (hsteady.created hpid hc hqueue hsub) hc hsub fun _ => rfl⟩
  | @scheduled now cpu label n _ hn hh =>
      have hlt := hsteady.base.nextOf_returnQueue_lt hsteady.lt now
      rw [← hn] at hlt
      refine ⟨_, _, n, hf.handover (hh.steady hlt) hh.keeps.objects (fun u hup hun => ?_)
        (fun hpn x hx => ?_) (fun t ht => ?_) ?_⟩
      · rw [hh.other u hup hun]
      · obtain rfl : .yielded cpu = x := Option.some.inj hx
        rw [(hh.left hpn).2]
        exact saveCallee_matches _ cpu label
      · refine ((hsteady.base.mem_returnQueue hsteady.lt now t).mp (List.mem_of_mem_erase ht)).imp_right
          fun htp => ⟨htp.1, by simp [Op.suspends]⟩
      · have hlast : τ.clock s' (.schedule now cpu label) n = some now := if_pos (.inl hh.current)
        rw [hh.entered, hlast, setX_start]
        rfl
  | @preempted regs now now' n _ hn hh =>
      have hbase := (hsteady.setContext regs).base
      have hlt := hbase.nextOf_returnQueue_lt (p := p) hsteady.lt now
      rw [← hn] at hlt
      refine ⟨_, _, n, hf.handover (hh.steady hlt) hh.keeps.objects (fun u hup hun => ?_)
        (fun hpn x hx => ?_) (fun t ht => ?_) ?_⟩
      · rw [hh.other u hup hun]
      · obtain rfl : .interrupted regs = x := Option.some.inj hx
        rw [(hh.left hpn).2]
        exact ⟨now, rfl⟩
      · refine ((hbase.mem_returnQueue (p := p) hsteady.lt now t).mp
          (List.mem_of_mem_erase ht)).imp_right fun htp => ⟨htp.1, by simp [Op.suspends]⟩
      · rw [hh.entered]
        show _ = (if τ.sched.currentTask = some n then some now
          else if s'.currentTask = some n then some now' else τ.last n).getD 0
        rw [hsteady.current, hh.current]
        by_cases hnp : n = p
        · simp [hnp, setX_start]
        · simp [hnp, Ne.symm hnp, setX_start]
  | @exited now cpu label n s₁ _ he hn hh =>
      exact ⟨_, _, n, hf.ended he hn hh rfl rfl (if_pos hh.current)⟩
  | @spared task now cpu label hspared =>
      refine ⟨l, L, p, hf.handover hsteady rfl (fun _ _ _ => rfl) (fun hne => absurd rfl hne)
        (fun t ht => .inl ht) ?_⟩
      have hlast : τ.clock τ.sched (.kill task now cpu label) p = τ.last p :=
        if_neg fun hc => hc.2 hsteady.current
      rw [hlast]
      exact hf.clock
  | @killed t now cpu label _ hpos hlt hlive htp he hbase hcur =>
      have hrunning := hsteady.running.ended he
      rw [if_neg htp] at hrunning
      have hctx : ∀ u, (s'.task u).context = (τ.sched.task u).context :=
        he.field Task.context fun _ _ _ _ => rfl
      refine ⟨_, _, p, hf.handover ⟨hbase, hcur, by rw [he.objects]; exact hsteady.lt, hrunning⟩
        he.objects (fun u _ _ => hctx u) (fun hne => absurd rfl hne)
        (fun u hu => .inl (List.mem_of_mem_erase hu)) ?_⟩
      have hlast : τ.clock s' (.kill (some t) now cpu label) p = τ.last p :=
        if_neg fun hc => hc.2 hsteady.current
      rw [hlast, hctx p]
      exact hf.clock
  | @killedCurrent now cpu label n s₁ _ hpos he hn hh =>
      refine ⟨_, _, n, hf.ended he hn hh rfl rfl (if_pos ⟨hh.current, ?_⟩)⟩
      rw [hsteady.current]
      rintro e
      obtain rfl : p = n := Option.some.inj e
      have hpl := (hsteady.mem_of_running).2.2
      rcases nextOf_cases l with hmem | ⟨-, h0⟩
      · exact hpl (hn ▸ hmem)
      · omega

theorem reach_follows {s₀ : Sched} (h₀ : s₀.Started)
    (h : Machine.Reach step (fun τ op => op.Valid τ.sched) (start s₀) τ) :
    ∃ l L p, τ.Follows l L p := by
  refine Machine.Reach.invariant (P := fun τ => ∃ l L p, τ.Follows l L p)
    ⟨_, _, _, follows_start h₀⟩ ?_ h
  rintro τ op τ' ⟨l, L, p, hf⟩ hvalid hs
  obtain ⟨s', out, hok, rfl⟩ := step_eq_some.mp hs
  exact hf.step (hf.steady.steps hvalid hok)

/-! ## The time that is charged -/

/-- **The right time is charged**: `schedule`, which charges the current task by the start time in its
context, charges it for the time since it was last switched in or charged, unless that was in
`task_init`, which records no time; `schedule_preempt`, which has overwritten the context with the
frame before, does so just when the interrupted program happened to hold that time in `x23`. The time
of `task_init` is `boot`. -/
theorem delta_exact_iff {memory : Nat → Task} {idle : Word} {env : Outside} {s₀ : Sched}
    (h₀ : taskInit memory idle env = .ok s₀)
    (h : Machine.Reach step (fun τ op => op.Valid τ.sched) (start s₀) τ)
    (hcur : τ.sched.currentTask = some p) (boot : Word) :
    (∀ now, τ.sched.toEevdf.delta p now = now - (τ.last p).getD boot ↔
      τ.last p ≠ none ∨ boot = 0) ∧
    ∀ regs now, (τ.sched.setContext p regs).toEevdf.delta p now = now - (τ.last p).getD boot ↔
      regs.x 23 = (τ.last p).getD boot := by
  obtain ⟨l, L, p', hf⟩ := reach_follows (taskInit_started h₀) h
  obtain rfl : p' = p := Option.some.inj (hf.steady.current.symm.trans hcur)
  have hsub : ∀ now a b : Word, now - a = now - b ↔ a = b := by
    intro now a b
    constructor
    · intro hab
      bv_omega
    · rintro rfl
      rfl
  constructor
  · intro now
    unfold Eevdf.delta
    rw [hsub, hf.clock]
    cases τ.last p' with
    | none => exact ⟨fun h0 => .inr h0.symm, fun h0 => (h0.resolve_left (· rfl)).symm⟩
    | some w => simp
  · intro regs now
    unfold Eevdf.delta
    rw [hsub, (setContext_moved τ.sched p' regs).context]

theorem delta_exact_schedule :
    ∃ s₀ τ, taskInit (fun _ => blankTask) 0x1000 sampleOutside = .ok s₀ ∧
      Machine.Reach step (fun τ op => op.Valid τ.sched) (start s₀) τ ∧
      τ.sched.currentTask = some 1 ∧ τ.last 1 = some 5 ∧ τ.sched.toEevdf.delta 1 105 = 100 := by
  obtain ⟨s₀, τ, hs₀, hreach, hτ⟩ := exists_sampleRun step start
    (fun τ => Op.valid_of_check τ.sched)
    [.create 0x2000 0 none sampleOutside, .schedule 5 .zero 0x5000]
    (fun τ => decide (τ.sched.currentTask = some 1 ∧ τ.last 1 = some 5)) (by decide +kernel)
  obtain ⟨hcur, hlast⟩ := of_decide_eq_true hτ
  refine ⟨s₀, τ, hs₀, hreach, hcur, hlast, ?_⟩
  rw [((delta_exact_iff hs₀ hreach hcur 0).1 105).mpr (.inl (by simp [hlast])), hlast]
  rfl

/-- The program that is interrupted at 105 ns holds 7 in `x23`; it was switched in at 5 ns and is
charged for 98 ns. -/
theorem preempt_charges_register :
    ∃ s₀ τ, taskInit (fun _ => blankTask) 0x1000 sampleOutside = .ok s₀ ∧
      Machine.Reach step (fun τ op => op.Valid τ.sched) (start s₀) τ ∧
      τ.sched.currentTask = some 1 ∧ τ.last 1 = some 5 ∧
      (τ.sched.setContext 1 (CpuContext.zero.setX 23 7)).toEevdf.delta 1 105 = 98 := by
  obtain ⟨s₀, τ, hs₀, hreach, hτ⟩ := exists_sampleRun step start
    (fun τ => Op.valid_of_check τ.sched)
    [.create 0x2000 0 none sampleOutside, .schedule 5 .zero 0x5000]
    (fun τ => decide (τ.sched.currentTask = some 1 ∧ τ.last 1 = some 5 ∧
      (τ.sched.setContext 1 (CpuContext.zero.setX 23 7)).toEevdf.delta 1 105 = 98))
    (by decide +kernel)
  exact ⟨s₀, τ, hs₀, hreach, of_decide_eq_true hτ⟩

end Trace

end Sched

end Arcline
