import Mathlib.Data.BitVec
import Mathlib.Data.Finset.Insert
import Mathlib.Tactic.Common

set_option autoImplicit false

/-! # A GICv2 interrupt controller, and the timer of a processor

The controller as one processor sees it: the registers of the distributor and of the CPU interface that
decide which interrupts are forwarded, and the states of the interrupts. Priorities are left at their reset
value, the highest one, so an interrupt that is active holds back all others.
-/

namespace Arm

/-- The state of the controller. An interrupt is pending while its latch is set, by an edge, or its line is
asserted. -/
structure Gic where
  ctlr : BitVec 32
  cpuCtlr : BitVec 32
  pmr : BitVec 32
  enabled : Nat → Bool
  latch : Nat → Bool
  active : Finset Nat

namespace Gic

variable (g : Gic) (line : Nat → Bool)

/-- A store to the word of the distributor with this index: the control register, a set-enable or a
clear-enable register. -/
def writeDist (index : Nat) (val : BitVec 32) : Gic :=
  if index = 0 then { g with ctlr := val }
  else if 64 ≤ index ∧ index < 96 then
    { g with enabled := fun i => g.enabled i || (decide (i / 32 = index - 64) && val.getLsbD (i % 32)) }
  else if 96 ≤ index ∧ index < 128 then
    { g with enabled := fun i => g.enabled i && !(decide (i / 32 = index - 96) && val.getLsbD (i % 32)) }
  else g

/-- A store to the word of the CPU interface with this index: the control register, the priority mask, or
the end-of-interrupt register. -/
def writeCpu (index : Nat) (val : BitVec 32) : Gic :=
  if index = 0 then { g with cpuCtlr := val }
  else if index = 1 then { g with pmr := val }
  else if index = 4 then { g with active := g.active.erase (val.toNat % 1024) }
  else g

/-- Interrupts are forwarded to the processor. -/
def Forwards : Prop := g.ctlr.getLsbD 0 = true ∧ g.cpuCtlr.getLsbD 0 = true ∧ 0 < g.pmr.toNat

instance : Decidable g.Forwards := inferInstanceAs (Decidable (_ ∧ _ ∧ _))

/-- The interrupt is enabled and pending. -/
def Requests (i : Nat) : Prop := g.enabled i = true ∧ (g.latch i = true ∨ line i = true)

instance (i : Nat) : Decidable (g.Requests line i) := inferInstanceAs (Decidable (_ ∧ _))

/-- The interrupt is one that the processor may be given. -/
def Signals (i : Nat) : Prop := g.Forwards ∧ g.active = ∅ ∧ g.Requests line i

instance (i : Nat) : Decidable (g.Signals line i) := inferInstanceAs (Decidable (_ ∧ _ ∧ _))

/-- Some interrupt is. Identifiers from 1020 on are not those of interrupts. -/
def interrupts : Bool :=
  decide (g.Forwards ∧ g.active = ∅) && (List.range 1020).any fun i => decide (g.Requests line i)

/-- A load from the acknowledge register that is answered with an interrupt, which becomes active. -/
def acknowledge (i : Nat) : Gic :=
  { g with latch := Function.update g.latch i false, active := insert i g.active }

end Gic

/-- The timer: the count, the count at which it expires, and whether it is enabled. -/
structure Timer where
  count : Nat
  cval : Nat
  enabled : Bool

/-- The line of the timer's interrupt. -/
def Timer.line (t : Timer) : Bool := t.enabled && decide (t.cval ≤ t.count)

/-- A store to the timer-value register: the timer expires that many counts from now, as a signed
number. -/
def Timer.writeTval (t : Timer) (val : BitVec 32) : Timer :=
  { t with cval := (t.count + val.toInt).toNat }

theorem Timer.writeTval_cval (t : Timer) {val : BitVec 32} (h : val.toNat < 2 ^ 31) :
    (t.writeTval val).cval = t.count + val.toNat := by
  have hval : val.toInt = val.toNat := by
    rw [BitVec.toInt_eq_toNat_cond, if_pos (by omega)]
  rw [writeTval]
  dsimp only
  rw [hval]
  omega

end Arm
