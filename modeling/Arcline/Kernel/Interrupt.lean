import Arcline.Kernel.Gic
import Arcline.Kernel.Syscall
import Arcline.Run

set_option autoImplicit false

/-! # Interrupts

The driver of the timer, and `handle_irq` with the handlers it calls. A run interleaves the processor,
which is in the interrupted program or at one of the calls of `handle_irq`, with the devices: lines are
asserted and time passes at any moment. The controller is a GICv2.
-/

namespace Arcline

open Arm (Gic Timer)

/-! ## The system -/

/-- `TIMER_IRQ` -/
def timerIrq : Nat := 30

/-- Where the processor is: in the interrupted program, or in `handle_irq`, with the frame it was given,
before `gic_ack_irq`, `irq_dispatch` or `gic_eoi_irq`. -/
inductive IrqPoint
  | running
  | entered (ctx : CpuContext)
  | acked (ctx : CpuContext) (irq : BitVec 32)
  | dispatched (ctx : CpuContext) (irq : BitVec 32)

/-- The interrupts that have been acknowledged and not ended. -/
def IrqPoint.active : IrqPoint → Finset Nat
  | .acked _ irq | .dispatched _ irq => if irq.toNat < 1020 then {irq.toNat} else ∅
  | .running | .entered _ => ∅

/-- The controller, the timer, the lines of the other devices, the variables of `irq.c` and `timer.c`, the
data of the kernel that the handlers work on, and the processor. -/
structure IrqSys (H : Type) where
  gic : Gic
  timer : Timer
  lines : Nat → Bool
  table : IrqTable H
  jiffies : Word
  timerFreq : BitVec 32
  kern : Kern
  masked : Bool
  point : IrqPoint

namespace IrqSys

variable {H : Type}

/-- The lines of all interrupts. -/
def line (s : IrqSys H) (i : Nat) : Bool := if i = timerIrq then s.timer.line else s.lines i

/-- `timer_init` -/
def timerInit (s : IrqSys H) (freqHz : BitVec 32) (cntfrq : Word) : IrqSys H :=
  let s := { s with timerFreq := cntfrq.setWidth 32 }
  let s := { s with table := (irqInstallHandler s.table timerIrq (some .timer) 0).2 }
  let s := { s with timer := { s.timer with enabled := false } }
  let s := { s with timer := s.timer.writeTval (s.timerFreq / freqHz) }
  let s := { s with timer := { s.timer with enabled := true } }
  { s with gic := gicEnableIrq s.gic timerIrq }

/-- `irq_init`, `gic_init` and `timer_init`, as `kmain` calls them. -/
def boot (s : IrqSys H) (freqHz : BitVec 32) (cntfrq : Word) : IrqSys H :=
  { s with table := irqInit, gic := gicInit s.gic, masked := false }.timerInit freqHz cntfrq

/-- `timer_irq_handler`. `elapsed` counts pass before the timer is set again. -/
def timerIrqHandler (s : IrqSys H) (ctx : CpuContext) (now now' : Word) (elapsed : Nat) :
    Except Fault (IrqSys H × CpuContext) := do
  let s := { s with jiffies := s.jiffies + 1 }
  let (sched, ctx) ← s.kern.sched.schedulePreempt ctx now now'
  let timer := { s.timer with count := s.timer.count + elapsed }
  let s := { s with kern := { s.kern with sched := sched }, timer := timer.writeTval (s.timerFreq / 100) }
  if s.jiffies.toNat % 10 = 0 then
    let (_, kern) ← s.kern.printk "." []
    return ({ s with kern := kern }, ctx)
  else
    return (s, ctx)

/-- What can happen: time passes; another device asserts or deasserts its line, or latches an edge; the
running program changes the mask, the data of the kernel, or calls a function of `irq.c`; the processor
takes an interrupt and makes the calls of `handle_irq`. -/
inductive Act (H : Type)
  | pass (n : Nat)
  | setLine (i : Nat) (level : Bool)
  | edge (i : Nat)
  | mask (masked : Bool)
  | work (kern : Kern)
  | enable (irq : Int)
  | disable (irq : Int)
  | install (irq : Int) (handler : H) (dev : Word)
  | uninstall (irq : Int)
  | take (ctx : CpuContext)
  | ack (choice : Option Nat)
  | dispatch (now now' : Word) (elapsed : Nat)
  | eoi

section Step

variable (serve : H → Kern → CpuContext → Int → Word → Except Fault (Kern × CpuContext))

/-- `irq_dispatch` with the handler it calls. -/
def runHandler (s : IrqSys H) (ctx : CpuContext) (irq : Int) (now now' : Word) (elapsed : Nat) :
    Except Fault (IrqSys H × CpuContext) :=
  match irqDispatch s.table irq with
  | none => .ok (s, ctx)
  | some (.timer, _) => s.timerIrqHandler ctx now now' elapsed
  | some (.device h, dev) => do
      let (kern, ctx) ← serve h s.kern ctx irq dev
      return ({ s with kern := kern }, ctx)

/-- What only the interrupted program does. -/
def whileRunning (s s' : IrqSys H) : Option (IrqSys H) :=
  match s.point with
  | .running => some s'
  | _ => none

/-- The next state. The program is interrupted only where it is not masked, by an interrupt that the
controller signals, and an acknowledgement is answered with one of these, or with 1023 if there is none. -/
def step (s : IrqSys H) : Act H → Option (IrqSys H)
  | .pass n => some { s with timer := { s.timer with count := s.timer.count + n } }
  | .setLine i level => some { s with lines := Function.update s.lines i level }
  | .edge i =>
      if i = timerIrq then none
      else some { s with gic := { s.gic with latch := Function.update s.gic.latch i true } }
  | .mask masked => s.whileRunning { s with masked := masked }
  | .work kern => s.whileRunning { s with kern := kern }
  | .enable irq => s.whileRunning { s with gic := gicEnableIrq s.gic irq }
  | .disable irq => s.whileRunning { s with gic := gicDisableIrq s.gic irq }
  | .install irq handler dev =>
      s.whileRunning { s with table := (irqInstallHandler s.table irq (some (.device handler)) dev).2 }
  | .uninstall irq => s.whileRunning { s with table := irqUninstallHandler s.table irq }
  | .take ctx =>
      if s.masked = false ∧ ctx.pstate.getLsbD 7 = false ∧ s.gic.interrupts s.line = true then
        s.whileRunning { s with masked := true, point := .entered ctx }
      else none
  | .ack choice =>
      match s.point, choice with
      | .entered ctx, some i =>
          if i < 1020 ∧ s.gic.Signals s.line i then
            some { s with gic := s.gic.acknowledge i, point := .acked ctx (BitVec.ofNat 32 i) }
          else none
      | .entered ctx, none =>
          if s.gic.interrupts s.line = true then none else some { s with point := .acked ctx 1023 }
      | _, _ => none
  | .dispatch now now' elapsed =>
      match s.point with
      | .acked ctx irq =>
          -- `if (irq < 1020)`
          if irq.toNat < 1020 then
            (s.runHandler serve ctx irq.toInt now now' elapsed).toOption.map fun r =>
              { r.1 with point := .dispatched r.2 irq }
          else some { s with point := .dispatched ctx irq }
      | _ => none
  | .eoi =>
      match s.point with
      | .dispatched ctx irq =>
          -- the `eret` gives the frame's mask back
          some { s with gic := gicEoiIrq s.gic irq, masked := ctx.pstate.getLsbD 7, point := .running }
      | _ => none

end Step

/-! ## What a step does -/

section Runs

variable {serve : H → Kern → CpuContext → Int → Word → Except Fault (Kern × CpuContext)} {s s' : IrqSys H}

theorem whileRunning_eq_some {s₁ : IrqSys H} (h : s.whileRunning s₁ = some s') :
    s.point = .running ∧ s' = s₁ := by
  unfold whileRunning at h
  split at h
  · rename_i hpoint
    exact ⟨hpoint, (Option.some.inj h).symm⟩
  · exact absurd h (by simp)

/-- The state after the handler of the timer. -/
def ticked (s : IrqSys H) (kern : Kern) (elapsed : Nat) : IrqSys H :=
  { s with
    jiffies := s.jiffies + 1
    kern := kern
    timer := { s.timer with count := s.timer.count + elapsed }.writeTval (s.timerFreq / 100) }

variable {ctx : CpuContext} {now now' : Word} {elapsed : Nat} {act : Act H} {table : IrqTable H}

theorem timerIrqHandler_spec {ctx' : CpuContext}
    (h : s.timerIrqHandler ctx now now' elapsed = .ok (s', ctx')) :
    ∃ kern, s' = s.ticked kern elapsed := by
  obtain ⟨⟨sched, ctx₁⟩, -, h⟩ := Kern.exists_of_bind h
  dsimp only at h
  split at h
  · obtain ⟨⟨v, kern⟩, -, h⟩ := Kern.exists_of_bind h
    exact ⟨kern, (Prod.mk.inj (Except.ok.inj h)).1.symm⟩
  · exact ⟨_, (Prod.mk.inj (Except.ok.inj h)).1.symm⟩

/-- A handler changes the data of the kernel, and that of the timer also sets the timer. -/
theorem runHandler_cases {ctx' : CpuContext} {irq : Int}
    (h : s.runHandler serve ctx irq now now' elapsed = .ok (s', ctx')) :
    (∃ kern, s' = { s with kern := kern }) ∨
      ∃ kern dev, irqDispatch s.table irq = some (.timer, dev) ∧ s' = s.ticked kern elapsed := by
  unfold runHandler at h
  split at h
  · exact .inl ⟨s.kern, (Prod.mk.inj (Except.ok.inj h)).1.symm⟩
  · rename_i dev hdispatch
    obtain ⟨kern, hs'⟩ := timerIrqHandler_spec h
    exact .inr ⟨kern, dev, hdispatch, hs'⟩
  · obtain ⟨⟨kern, ctx₁⟩, -, h⟩ := Kern.exists_of_bind h
    exact .inl ⟨kern, (Prod.mk.inj (Except.ok.inj h)).1.symm⟩

/-- What each act does. -/
inductive Steps (s : IrqSys H) : Act H → IrqSys H → Prop
  | pass (n : Nat) : Steps s (.pass n) { s with timer := { s.timer with count := s.timer.count + n } }
  | setLine (i : Nat) (level : Bool) :
      Steps s (.setLine i level) { s with lines := Function.update s.lines i level }
  | edge {i : Nat} : i ≠ timerIrq →
      Steps s (.edge i) { s with gic := { s.gic with latch := Function.update s.gic.latch i true } }
  | mask (masked : Bool) : Steps s (.mask masked) { s with masked := masked }
  | work (kern : Kern) : Steps s (.work kern) { s with kern := kern }
  | enable (irq : Int) : s.point = .running →
      Steps s (.enable irq)
        { s with gic := { s.gic with enabled := fun i => s.gic.enabled i || decide (Selects irq i) } }
  | disable (irq : Int) : s.point = .running →
      Steps s (.disable irq)
        { s with gic := { s.gic with enabled := fun i => s.gic.enabled i && !decide (Selects irq i) } }
  | install (irq : Int) (handler : H) (dev : Word) :
      Steps s (.install irq handler dev)
        { s with table := (irqInstallHandler s.table irq (some (.device handler)) dev).2 }
  | uninstall (irq : Int) : Steps s (.uninstall irq) { s with table := irqUninstallHandler s.table irq }
  | take (ctx : CpuContext) : s.point = .running →
      Steps s (.take ctx) { s with masked := true, point := .entered ctx }
  | ack {ctx : CpuContext} {i : Nat} : s.point = .entered ctx → i < 1020 → s.gic.Signals s.line i →
      Steps s (.ack (some i))
        { s with gic := s.gic.acknowledge i, point := .acked ctx (BitVec.ofNat 32 i) }
  | spurious {ctx : CpuContext} : s.point = .entered ctx →
      Steps s (.ack none) { s with point := .acked ctx 1023 }
  | served {now now' : Word} {elapsed : Nat} {ctx : CpuContext} {irq : BitVec 32} (ctx' : CpuContext)
      (kern : Kern) : s.point = .acked ctx irq →
      Steps s (.dispatch now now' elapsed) { s with kern := kern, point := .dispatched ctx' irq }
  | tick {now now' : Word} {elapsed : Nat} {ctx : CpuContext} {irq : BitVec 32} {dev : Word}
      (ctx' : CpuContext) (kern : Kern) : s.point = .acked ctx irq → irq.toNat < 1020 →
      irqDispatch s.table irq.toInt = some (.timer, dev) →
      Steps s (.dispatch now now' elapsed) { s.ticked kern elapsed with point := .dispatched ctx' irq }
  | eoi {ctx : CpuContext} {irq : BitVec 32} : s.point = .dispatched ctx irq →
      Steps s .eoi
        { s with
          gic := { s.gic with active := s.gic.active.erase (irq.toNat % 1024) }
          masked := ctx.pstate.getLsbD 7
          point := .running }

theorem steps_of_dispatch (h : s.step serve (.dispatch now now' elapsed) = some s') :
    s.Steps (.dispatch now now' elapsed) s' := by
  unfold step at h
  dsimp only at h
  split at h
  · rename_i ctx irq hpoint
    split at h
    · rename_i hlt
      obtain ⟨⟨s₁, ctx'⟩, hrun, rfl⟩ := Option.map_eq_some_iff.mp h
      rcases runHandler_cases (Fault.ok_of_toOption hrun) with ⟨kern, rfl⟩ | ⟨kern, dev, hdispatch, rfl⟩
      · exact .served ctx' kern hpoint
      · exact .tick ctx' kern hpoint hlt hdispatch
    · obtain rfl := Option.some.inj h
      exact .served ctx s.kern hpoint
  · exact absurd h (by simp)

theorem steps_of_step (h : s.step serve act = some s') : s.Steps act s' := by
  cases act with
  | pass n =>
      obtain rfl := Option.some.inj h
      exact .pass n
  | setLine i level =>
      obtain rfl := Option.some.inj h
      exact .setLine i level
  | edge i =>
      rw [step] at h
      split at h
      · exact absurd h (by simp)
      · rename_i hi
        obtain rfl := Option.some.inj h
        exact .edge hi
  | mask masked =>
      obtain ⟨-, rfl⟩ := whileRunning_eq_some h
      exact .mask masked
  | work kern =>
      obtain ⟨-, rfl⟩ := whileRunning_eq_some h
      exact .work kern
  | enable irq =>
      obtain ⟨hpoint, rfl⟩ := whileRunning_eq_some h
      rw [gicEnableIrq_eq]
      exact .enable irq hpoint
  | disable irq =>
      obtain ⟨hpoint, rfl⟩ := whileRunning_eq_some h
      rw [gicDisableIrq_eq]
      exact .disable irq hpoint
  | install irq handler dev =>
      obtain ⟨-, rfl⟩ := whileRunning_eq_some h
      exact .install irq handler dev
  | uninstall irq =>
      obtain ⟨-, rfl⟩ := whileRunning_eq_some h
      exact .uninstall irq
  | take ctx =>
      rw [step] at h
      split at h
      · obtain ⟨hpoint, rfl⟩ := whileRunning_eq_some h
        exact .take ctx hpoint
      · exact absurd h (by simp)
  | ack choice =>
      unfold step at h
      dsimp only at h
      split at h
      · rename_i ctx i hpoint
        split at h
        · rename_i hi
          obtain rfl := Option.some.inj h
          exact .ack hpoint hi.1 hi.2
        · exact absurd h (by simp)
      · rename_i ctx hpoint
        split at h
        · exact absurd h (by simp)
        · obtain rfl := Option.some.inj h
          exact .spurious hpoint
      · exact absurd h (by simp)
  | dispatch now now' elapsed => exact steps_of_dispatch h
  | eoi =>
      unfold step at h
      dsimp only at h
      split at h
      · rename_i ctx irq hpoint
        obtain rfl := Option.some.inj h
        exact .eoi hpoint
      · exact absurd h (by simp)

/-! ## Delivery -/

/-- The interrupts that the running program wants, after another act. -/
def wants (w : Nat → Bool) : Act H → Nat → Bool
  | .enable irq => fun i => w i || decide (Selects irq i)
  | .disable irq => fun i => w i && !decide (Selects irq i)
  | _ => w

/-- A run in which the wanted interrupts are recorded. -/
def stepWanted (serve : H → Kern → CpuContext → Int → Word → Except Fault (Kern × CpuContext))
    (r : IrqSys H × (Nat → Bool)) (act : Act H) : Option (IrqSys H × (Nat → Bool)) :=
  (r.1.step serve act).map fun s => (s, wants r.2 act)

/-- The controller is on, the wanted interrupts are enabled, and the active ones are those that
`handle_irq` has acknowledged and not ended. -/
structure Delivers (s : IrqSys H) (w : Nat → Bool) : Prop where
  forwards : s.gic.Forwards
  enabled : ∀ i < 1020, s.gic.enabled i = w i
  active : s.gic.active = s.point.active
  acked : ∀ ctx irq, s.point = .acked ctx irq → irq.toNat < 1020 → w irq.toNat = true

theorem boot_delivers (hactive : s.gic.active = ∅) (hpoint : s.point = .running) (freqHz : BitVec 32)
    (cntfrq : Word) : (s.boot freqHz cntfrq).Delivers fun i => decide (i = timerIrq) := by
  have hgic : (s.boot freqHz cntfrq).gic = gicEnableIrq (gicInit s.gic) timerIrq := rfl
  have hpoint' : (s.boot freqHz cntfrq).point = .running := hpoint
  refine ⟨?_, fun i hi => ?_, ?_, fun ctx irq h => ?_⟩
  · rw [hgic, gicEnableIrq_eq, gicInit_eq]
    show (1 : BitVec 32).getLsbD 0 = true ∧ (1 : BitVec 32).getLsbD 0 = true ∧ 0 < (0xFF : BitVec 32).toNat
    decide
  · rw [hgic, gicEnableIrq_eq, gicInit_eq]
    have hdisabled : i / 32 < 32 := by omega
    have hsel : Selects timerIrq i ↔ i = timerIrq := by
      rw [Selects]
      omega
    simp [hdisabled, hsel]
  · rw [hgic, gicEnableIrq_eq, gicInit_eq, hpoint']
    exact hactive
  · rw [hpoint'] at h
    exact absurd h (by simp)

theorem Delivers.steps {w : Nat → Bool} (h : s.Delivers w) (hs : s.Steps act s') :
    s'.Delivers (wants w act) := by
  -- what is active while the processor is at a point
  have hactive {point : IrqPoint} (hpoint : s.point = point) : s.gic.active = point.active := by
    rw [← hpoint]
    exact h.active
  cases hs with
  | pass | setLine | edge | mask | work | install | uninstall =>
      exact ⟨h.forwards, h.enabled, h.active, h.acked⟩
  | enable irq hpoint =>
      refine ⟨h.forwards, fun i hi => ?_, h.active, fun ctx irq' hacked => ?_⟩
      · show (s.gic.enabled i || _) = (w i || _)
        rw [h.enabled i hi]
      · exact absurd (hpoint.symm.trans hacked) (by simp)
  | disable irq hpoint =>
      refine ⟨h.forwards, fun i hi => ?_, h.active, fun ctx irq' hacked => ?_⟩
      · show (s.gic.enabled i && _) = (w i && _)
        rw [h.enabled i hi]
      · exact absurd (hpoint.symm.trans hacked) (by simp)
  | take ctx hpoint =>
      have hsame := hactive hpoint
      exact ⟨h.forwards, h.enabled, hsame, fun _ _ hacked => absurd hacked (by simp)⟩
  | @ack ctx i hpoint hi hsignals =>
      have hirq : (BitVec.ofNat 32 i).toNat = i := by
        rw [BitVec.toNat_ofNat]
        omega
      refine ⟨h.forwards, h.enabled, ?_, ?_⟩
      · show insert i s.gic.active = if (BitVec.ofNat 32 i).toNat < 1020 then _ else _
        rw [hirq, if_pos hi, hactive hpoint]
        rfl
      · intro ctx' irq hacked hlt
        obtain ⟨-, rfl⟩ := IrqPoint.acked.inj hacked
        show w (BitVec.ofNat 32 i).toNat = true
        rw [hirq, ← h.enabled i hi]
        exact hsignals.2.2.1
  | spurious hpoint =>
      have hsame := hactive hpoint
      refine ⟨h.forwards, h.enabled, hsame, fun ctx' irq hacked hlt => ?_⟩
      obtain ⟨-, rfl⟩ := IrqPoint.acked.inj hacked
      exact absurd hlt (by decide)
  | served _ _ hpoint | tick _ _ hpoint =>
      have hsame := hactive hpoint
      exact ⟨h.forwards, h.enabled, hsame, fun _ _ hacked => absurd hacked (by simp)⟩
  | @eoi ctx irq hpoint =>
      refine ⟨h.forwards, h.enabled, ?_, fun _ _ hacked => absurd hacked (by simp)⟩
      show s.gic.active.erase (irq.toNat % 1024) = ∅
      rw [hactive hpoint, IrqPoint.active]
      split
      · rename_i hlt
        rw [Nat.mod_eq_of_lt (by omega), Finset.erase_singleton]
      · exact Finset.erase_empty _

/-- **Delivery.** From `gic_init` and `timer_init` on, however the program, the interrupts and the devices
are interleaved: the interrupts that are enabled are those that the calls of `irq_enable` and `irq_disable`
leave wanted. While no interrupt is being handled none is active, so every wanted interrupt that is pending
is signalled at once. And an interrupt that `handle_irq` hands to `irq_dispatch` is a wanted one, and the
only one that is active. -/
theorem interrupts_delivered {s₀ : IrqSys H} (hactive : s₀.gic.active = ∅) (hpoint : s₀.point = .running)
    {freqHz : BitVec 32} {cntfrq : Word} {w : Nat → Bool}
    (h : Machine.Reach (stepWanted serve) (fun _ _ => True)
      (s₀.boot freqHz cntfrq, fun i => decide (i = timerIrq)) (s, w)) :
    (∀ i < 1020, s.gic.enabled i = w i) ∧
    (s.point = .running → s.gic.active = ∅ ∧
      ∀ i < 1020, w i = true → s.gic.latch i = true ∨ s.line i = true → s.gic.Signals s.line i) ∧
    (∀ ctx irq, s.point = .acked ctx irq → irq.toNat < 1020 →
      w irq.toNat = true ∧ s.gic.active = {irq.toNat}) := by
  have hinv : s.Delivers w := by
    refine Machine.Reach.invariant (P := fun r : IrqSys H × (Nat → Bool) => r.1.Delivers r.2)
      (boot_delivers hactive hpoint freqHz cntfrq) ?_ h
    rintro ⟨s₁, w₁⟩ act r hr - hstep
    obtain ⟨s₂, hs₂, rfl⟩ := Option.map_eq_some_iff.mp hstep
    exact hr.steps (steps_of_step hs₂)
  refine ⟨hinv.enabled, fun hrunning => ?_, fun ctx irq hacked hlt => ⟨hinv.acked ctx irq hacked hlt, ?_⟩⟩
  · have hidle : s.gic.active = ∅ := by
      rw [hinv.active, hrunning]
      rfl
    refine ⟨hidle, fun i hi hw hpending => ⟨hinv.forwards, hidle, ?_, hpending⟩⟩
    rw [hinv.enabled i hi]
    exact hw
  · rw [hinv.active, hacked]
    exact if_pos hlt

/-- No device but the timer has a handler. -/
def noDevice : Empty → Kern → CpuContext → Int → Word → Except Fault (Kern × CpuContext) := Empty.elim

/-- A system before `irq_init`, with the controller as after a reset. -/
def reset : IrqSys Empty where
  gic := ⟨0, 0, 0, fun _ => false, fun _ => false, ∅⟩
  timer := ⟨0, 0, false⟩
  lines _ := false
  table := irqInit
  jiffies := 0
  timerFreq := 0
  kern := .around (.empty fun _ => Sched.blankTask)
  masked := true
  point := .running

/-- `handle_irq` is about to dispatch this interrupt. -/
def dispatches (s : IrqSys Empty) (irq : BitVec 32) : Bool :=
  match s.point with
  | .acked _ irq' => decide (irq' = irq)
  | _ => false

theorem of_dispatches {s : IrqSys Empty} {irq : BitVec 32} (h : s.dispatches irq = true) :
    ∃ ctx, s.point = .acked ctx irq := by
  unfold dispatches at h
  split at h
  · rename_i ctx irq' hpoint
    obtain rfl := of_decide_eq_true h
    exact ⟨ctx, hpoint⟩
  · exact absurd h (by simp)

/-- A device asserts its line, and its interrupt is enabled and acknowledged. -/
theorem interrupts_delivered_device :
    ∃ (s : IrqSys Empty) (w : Nat → Bool) (ctx : CpuContext),
      Machine.Reach (stepWanted noDevice) (fun _ _ => True)
        (reset.boot 100 1000, fun i => decide (i = timerIrq)) (s, w) ∧
      s.point = .acked ctx 33 ∧ w 33 = true ∧ s.gic.active = {33} := by
  have hrun : (Machine.runWhile (stepWanted noDevice) (fun _ _ => true)
      (reset.boot 100 1000, fun i => decide (i = timerIrq))
      [.setLine 33 true, .enable 33, .take .zero, .ack (some 33)]).any (fun r => r.1.dispatches 33) =
        true := by decide +kernel
  obtain ⟨⟨s, w⟩, hreach, hpoint⟩ := Machine.exists_of_runWhile hrun fun _ _ _ => trivial
  obtain ⟨ctx, hacked⟩ := of_dispatches hpoint
  have hserved := (interrupts_delivered rfl rfl hreach).2.2 ctx 33 hacked (by decide)
  exact ⟨s, w, ctx, hreach, hacked, hserved.1, hserved.2⟩

/-! ## Ticks -/

/-- The timer has its own entry of the table only. -/
def OneTimer (table : IrqTable H) : Prop := ∀ i dev, table i = some (.timer, dev) → i = timerIrq

theorem OneTimer.update (h : OneTimer table) (n : Nat) {v : Option (IrqHandler H × Word)}
    (hv : ∀ dev, v ≠ some (.timer, dev)) : OneTimer (Function.update table n v) := by
  intro i dev hi
  by_cases heq : i = n
  · rw [heq, Function.update_self] at hi
    exact absurd hi (hv dev)
  · rw [Function.update_of_ne heq] at hi
    exact h i dev hi

theorem OneTimer.install (h : OneTimer table) (irq : Int) (handler : H) (dev : Word) :
    OneTimer (irqInstallHandler table irq (some (.device handler)) dev).2 := by
  unfold irqInstallHandler
  dsimp only
  split
  · exact h
  · split
    · exact h
    · exact h.update irq.toNat (by simp)

theorem OneTimer.uninstall (h : OneTimer table) (irq : Int) :
    OneTimer (irqUninstallHandler table irq) := by
  unfold irqUninstallHandler
  split
  · exact h
  · exact h.update irq.toNat (by simp)

/-- The timer is set again within `d` counts after it expires. -/
def Prompt (d : Nat) (s : IrqSys H) : Act H → Prop
  | .pass n => s.timer.count + n ≤ s.timer.cval + d
  | .dispatch _ _ n => s.timer.count + n ≤ s.timer.cval + d
  | _ => True

/-- The count and the expiry after `jiffies` ticks, from a first expiry at `t₀` and with the period `p`. An
acknowledged interrupt of the timer is one of a timer that has expired. -/
structure Ticks (t₀ p d : Nat) (s : IrqSys H) : Prop where
  period : (s.timerFreq / 100).toNat = p
  on : s.timer.enabled = true
  latch : s.gic.latch timerIrq = false
  only : OneTimer s.table
  expired : ∀ ctx irq, s.point = .acked ctx irq → irq.toNat = timerIrq → s.timer.cval ≤ s.timer.count
  early : t₀ + s.jiffies.toNat * p ≤ s.timer.cval
  past : 0 < s.jiffies.toNat → t₀ + (s.jiffies.toNat - 1) * p ≤ s.timer.count
  late : s.timer.cval ≤ t₀ + s.jiffies.toNat * (p + d)
  prompt : s.timer.count ≤ s.timer.cval + d

variable {t₀ p d : Nat}

/-- A tick: the timer has expired and is set again. -/
theorem Ticks.ticked (h : s.Ticks t₀ p d) (ht₀ : 0 < t₀) (hp : 0 < p)
    (hexpired : s.timer.cval ≤ s.timer.count) {kern : Kern}
    (hprompt : s.timer.count + elapsed ≤ s.timer.cval + d) (hcount : s.timer.count + elapsed < 2 ^ 64)
    {irq : BitVec 32} : ({ s.ticked kern elapsed with point := .dispatched ctx irq }).Ticks t₀ p d := by
  have hlt : p < 2 ^ 31 := by
    rw [← h.period, BitVec.toNat_udiv]
    have := s.timerFreq.isLt
    show s.timerFreq.toNat / 100 < _
    omega
  have hcval : ({ s.timer with count := s.timer.count + elapsed } : Timer).writeTval (s.timerFreq / 100) =
      { s.timer with count := s.timer.count + elapsed, cval := s.timer.count + elapsed + p } := by
    have hsmall : (s.timerFreq / 100).toNat < 2 ^ 31 := by
      rw [h.period]
      exact hlt
    have hval := Timer.writeTval_cval { s.timer with count := s.timer.count + elapsed } hsmall
    rw [h.period] at hval
    rw [Timer.writeTval] at hval ⊢
    dsimp only at hval ⊢
    rw [hval]
  -- there are no more ticks than counts
  have hjiffies : (s.jiffies + 1).toNat = s.jiffies.toNat + 1 := by
    have hearly := h.early
    have hle : s.jiffies.toNat ≤ s.jiffies.toNat * p := Nat.le_mul_of_pos_right _ hp
    rw [BitVec.toNat_add]
    show (s.jiffies.toNat + 1) % 2 ^ 64 = _
    omega
  have hearly := h.early
  have hlate := h.late
  refine ⟨h.period, ?_, h.latch, h.only, fun _ _ hacked => absurd hacked (by simp), ?_, fun _ => ?_, ?_, ?_⟩
  · show (({ s.timer with count := s.timer.count + elapsed } : Timer).writeTval _).enabled = true
    exact h.on
  · show t₀ + (s.jiffies + 1).toNat * p ≤
      (({ s.timer with count := s.timer.count + elapsed } : Timer).writeTval _).cval
    rw [hcval, hjiffies, Nat.add_mul]
    show t₀ + (s.jiffies.toNat * p + 1 * p) ≤ s.timer.count + elapsed + p
    omega
  · show t₀ + ((s.jiffies + 1).toNat - 1) * p ≤ s.timer.count + elapsed
    rw [hjiffies, Nat.add_sub_cancel]
    omega
  · show (({ s.timer with count := s.timer.count + elapsed } : Timer).writeTval _).cval ≤
      t₀ + (s.jiffies + 1).toNat * (p + d)
    rw [hcval, hjiffies, Nat.add_mul]
    show s.timer.count + elapsed + p ≤ t₀ + (s.jiffies.toNat * (p + d) + 1 * (p + d))
    omega
  · show s.timer.count + elapsed ≤
      (({ s.timer with count := s.timer.count + elapsed } : Timer).writeTval _).cval + d
    rw [hcval]
    show s.timer.count + elapsed ≤ s.timer.count + elapsed + p + d
    omega

theorem Ticks.steps (h : s.Ticks t₀ p d) (ht₀ : 0 < t₀) (hp : 0 < p) (hok : s.Prompt d act)
    (hs : s.Steps act s') (hcount : s'.timer.count < 2 ^ 64) : s'.Ticks t₀ p d := by
  cases hs with
  | pass n =>
      have hle : s.timer.count ≤ s.timer.count + n := Nat.le_add_right ..
      exact { h with
        expired := fun ctx irq ha hi => (h.expired ctx irq ha hi).trans hle
        past := fun hpos => (h.past hpos).trans hle
        prompt := hok }
  | edge hi =>
      exact { h with latch := (Function.update_of_ne (Ne.symm hi) _ _).trans h.latch }
  | setLine | mask | work | enable | disable => exact { h with }
  | install irq handler dev => exact { h with only := h.only.install irq handler dev }
  | uninstall irq => exact { h with only := h.only.uninstall irq }
  | @ack ctx i _ hi hsignals =>
      refine { h with latch := ?_, expired := fun ctx' irq hacked hirq => ?_ }
      · show Function.update s.gic.latch i false timerIrq = false
        rw [Function.update_apply, h.latch, ite_self]
      · -- nothing but the line of the timer makes its interrupt pending
        obtain ⟨-, rfl⟩ := IrqPoint.acked.inj hacked
        obtain rfl : i = timerIrq := by
          rw [BitVec.toNat_ofNat] at hirq
          omega
        have hline : s.line timerIrq = true := by
          refine hsignals.2.2.2.resolve_left ?_
          rw [h.latch]
          simp
        rw [line, if_pos rfl, Timer.line, Bool.and_eq_true] at hline
        exact of_decide_eq_true hline.2
  | spurious =>
      refine { h with expired := fun ctx' irq hacked hirq => ?_ }
      obtain ⟨-, rfl⟩ := IrqPoint.acked.inj hacked
      exact absurd hirq (by decide)
  | take | served | eoi =>
      exact { h with expired := fun _ _ hacked => absurd hacked (by simp) }
  | @tick _ _ elapsed ctx irq dev ctx' kern hpoint hlt hdispatch =>
      have hirq : irq.toNat = timerIrq := by
        have hint : irq.toInt = irq.toNat := by
          rw [BitVec.toInt_eq_toNat_cond, if_pos (by omega)]
        rw [irqDispatch, hint] at hdispatch
        split at hdispatch
        · exact absurd hdispatch (by simp)
        · exact h.only irq.toNat dev hdispatch
      exact h.ticked ht₀ hp (h.expired ctx irq hpoint hirq) hok hcount

theorem boot_ticks {s₀ : IrqSys H} (hjiffies : s₀.jiffies = 0) (hlatch : s₀.gic.latch timerIrq = false)
    (hpoint : s₀.point = .running) {freqHz : BitVec 32} {cntfrq : Word}
    (hfirst : (cntfrq.setWidth 32 / freqHz).toNat < 2 ^ 31) (d : Nat) :
    (s₀.boot freqHz cntfrq).Ticks (s₀.timer.count + (cntfrq.setWidth 32 / freqHz).toNat)
      (cntfrq.setWidth 32 / 100).toNat d := by
  have hgic : (s₀.boot freqHz cntfrq).gic = gicEnableIrq (gicInit s₀.gic) timerIrq := rfl
  have hzero : (s₀.boot freqHz cntfrq).jiffies.toNat = 0 := by
    show s₀.jiffies.toNat = 0
    rw [hjiffies]
    rfl
  have hcval : (s₀.boot freqHz cntfrq).timer.cval =
      s₀.timer.count + (cntfrq.setWidth 32 / freqHz).toNat :=
    Timer.writeTval_cval { s₀.timer with enabled := false } hfirst
  have hcount : (s₀.boot freqHz cntfrq).timer.count = s₀.timer.count := rfl
  refine ⟨rfl, rfl, ?_, ?_, fun ctx irq hacked => ?_, ?_, fun hpos => ?_, ?_, ?_⟩
  · rw [hgic, gicEnableIrq_eq, gicInit_eq]
    exact hlatch
  · intro i dev hi
    by_contra hne
    have hnone : (s₀.boot freqHz cntfrq).table i = none := Function.update_of_ne hne _ _
    rw [hnone] at hi
    exact absurd hi (by simp)
  · exact absurd (hpoint.symm.trans hacked) (by simp)
  · rw [hzero, hcval]
    omega
  · omega
  · rw [hzero, hcval]
    omega
  · rw [hcval, hcount]
    omega

theorem Steps.count_le (hs : s.Steps act s') : s.timer.count ≤ s'.timer.count := by
  cases hs with
  | pass | tick => exact Nat.le_add_right ..
  | setLine | edge | mask | work | enable | disable | install | uninstall | take | ack | spurious | served
    | eoi => exact Nat.le_refl _

/-- **Ticks follow the counter.** From `timer_init` on, in every interleaving in which the timer is set
again within `d` counts after it expires: each expiry is counted once, so that with the period `p` the `n`th
tick does not come before its time, and `n` ticks account for all but `n` delays and a last one. -/
theorem ticks_follow_counter {s₀ : IrqSys H} (hjiffies : s₀.jiffies = 0)
    (hlatch : s₀.gic.latch timerIrq = false) (hpoint : s₀.point = .running) {freqHz : BitVec 32}
    {cntfrq : Word} (hpos : 0 < (cntfrq.setWidth 32 / freqHz).toNat)
    (hfirst : (cntfrq.setWidth 32 / freqHz).toNat < 2 ^ 31) (hfreq : 100 ≤ (cntfrq.setWidth 32).toNat)
    {d : Nat} (h : Machine.Reach (IrqSys.step serve) (Prompt d) (s₀.boot freqHz cntfrq) s)
    (hcount : s.timer.count < 2 ^ 64) :
    let t₀ := s₀.timer.count + (cntfrq.setWidth 32 / freqHz).toNat
    let p := (cntfrq.setWidth 32 / 100).toNat
    let n := s.jiffies.toNat
    (0 < n → t₀ + (n - 1) * p ≤ s.timer.count) ∧ s.timer.count ≤ t₀ + n * (p + d) + d := by
  intro t₀ p n
  have hp : 0 < p := by
    show 0 < (cntfrq.setWidth 32 / 100).toNat
    rw [BitVec.toNat_udiv]
    show 0 < (cntfrq.setWidth 32).toNat / 100
    omega
  have ht₀ : 0 < t₀ := Nat.lt_of_lt_of_le hpos (Nat.le_add_left ..)
  have hticks : s.Ticks t₀ p d := by
    refine Machine.Reach.invariant (P := fun s => s.timer.count < 2 ^ 64 → s.Ticks t₀ p d)
      (fun _ => boot_ticks hjiffies hlatch hpoint hfirst d) ?_ h hcount
    intro s₁ act s₂ hs₁ hok hstep hlt
    have hsteps := steps_of_step hstep
    exact (hs₁ (Nat.lt_of_le_of_lt hsteps.count_le hlt)).steps ht₀ hp hok hsteps hlt
  refine ⟨hticks.past, ?_⟩
  have hlate := hticks.late
  have hprompt := hticks.prompt
  calc s.timer.count ≤ s.timer.cval + d := hprompt
    _ ≤ t₀ + n * (p + d) + d := Nat.add_le_add_right hlate d

instance decidablePrompt (d : Nat) (s : IrqSys H) : (act : Act H) → Decidable (s.Prompt d act)
  | .pass _ | .dispatch _ _ _ => inferInstanceAs (Decidable (_ ≤ _))
  | .setLine _ _ | .edge _ | .mask _ | .work _ | .enable _ | .disable _ | .install _ _ _ | .uninstall _
  | .take _ | .ack _ | .eoi => .isTrue trivial

/-- A timer of 1000 Hz expires after 10 counts; its handler runs 2 counts later and takes 3. -/
theorem ticks_follow_counter_one :
    ∃ s : IrqSys Empty, Machine.Reach (step noDevice) (Prompt 5) (reset.boot 100 1000) s ∧
      s.jiffies = 1 ∧ s.timer.count = 15 ∧ 10 + 0 * 10 ≤ s.timer.count ∧
      s.timer.count ≤ 10 + 1 * (10 + 5) + 5 := by
  have hrun : (Machine.runWhile (step noDevice) (fun s act => decide (s.Prompt 5 act)) (reset.boot 100 1000)
      [.pass 12, .take .zero, .ack (some 30), .dispatch 0 0 3, .eoi]).any
      (fun s => decide (s.jiffies = 1 ∧ s.timer.count = 15)) = true := by decide +kernel
  obtain ⟨s, hreach, hs⟩ := Machine.exists_of_runWhile hrun fun _ _ => of_decide_eq_true
  obtain ⟨hjiffies, hcount⟩ := of_decide_eq_true hs
  have hlt : s.timer.count < 2 ^ 64 := by
    rw [hcount]
    decide
  have hticks := ticks_follow_counter rfl rfl rfl (by decide) (by decide) (by decide) hreach hlt
  dsimp only at hticks
  rw [hjiffies] at hticks
  exact ⟨s, hreach, hjiffies, hcount, hticks.1 (by decide), hticks.2⟩

end Runs

end IrqSys

end Arcline
