import Mathlib.Data.List.Basic
import Mathlib.Tactic.Common

set_option autoImplicit false

/-! # A transmitter

A device that sends what is written to it. Bytes wait in a queue of `cap` cells, and from one access to its
registers to the next the device sends some of them: `speed n` after the `n`th access, if there are so many.
A byte written to a full queue is lost.
-/

namespace Arm

/-- What has been sent, what waits to be sent, and the number of accesses so far. -/
structure Uart (β : Type) where
  sent : List β
  queue : List β
  accesses : Nat
deriving DecidableEq

namespace Uart

variable {β : Type}

/-- What the device has accepted, in the order in which it sends it. -/
def line (u : Uart β) : List β := u.sent ++ u.queue

section Device

variable (cap : Nat) (speed : Nat → Nat)

/-- The queue has a free cell. -/
def Space (u : Uart β) : Prop := u.queue.length < cap

instance (u : Uart β) : Decidable (u.Space cap) := inferInstanceAs (Decidable (_ < _))

/-- The device up to the next access. -/
def access (u : Uart β) : Uart β where
  sent := u.sent ++ u.queue.take (speed u.accesses)
  queue := u.queue.drop (speed u.accesses)
  accesses := u.accesses + 1

/-- A store to the data register. -/
def write (u : Uart β) (b : β) : Uart β :=
  let u := u.access speed
  if u.Space cap then { u with queue := u.queue ++ [b] } else u

end Device

variable {cap : Nat} {speed : Nat → Nat} {u : Uart β}

@[simp] theorem access_line (u : Uart β) : (u.access speed).line = u.line := by
  simp [access, line]

theorem Space.access (h : u.Space cap) : (u.access speed).Space cap := by
  unfold Space at h ⊢
  simp only [Uart.access, List.length_drop]
  omega

/-- The queue never has more than its cells. -/
theorem length_access_le (h : u.queue.length ≤ cap) : (u.access speed).queue.length ≤ cap := by
  simp only [access, List.length_drop]
  omega

/-- A device that has sent a byte has space. -/
theorem space_access (hcap : 0 < cap) (h : u.queue.length ≤ cap) (hspeed : 0 < speed u.accesses) :
    (u.access speed).Space cap := by
  simp only [Space, access, List.length_drop]
  omega

theorem length_write_le (h : u.queue.length ≤ cap) (b : β) :
    (u.write cap speed b).queue.length ≤ cap := by
  unfold write
  dsimp only
  split
  · rename_i hspace
    unfold Space at hspace
    simp only [List.length_append, List.length_singleton]
    omega
  · exact length_access_le h

@[simp] theorem write_accesses (b : β) : (u.write cap speed b).accesses = u.accesses + 1 := by
  unfold write
  dsimp only
  split <;> rfl

/-- A byte is accepted or lost. -/
theorem write_line (b : β) :
    (u.write cap speed b).line = u.line ++ if (u.access speed).Space cap then [b] else [] := by
  unfold write
  dsimp only
  split
  · have hline : (u.access speed).line = u.line := access_line u
    rw [line] at hline ⊢
    simp only [← List.append_assoc, hline]
  · rw [List.append_nil, access_line]

end Uart

end Arm
