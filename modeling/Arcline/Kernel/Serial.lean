import Arcline.Arch.Uart
import Arcline.Kernel.LogFifo

set_option autoImplicit false

/-! # The serial console

The driver of the UART and the log on top of it. Before each byte the driver waits for space in the
transmitter, but not for ever: after `UART_SPIN_MAX` looks at the flag register it writes the byte all the
same, and the byte may be lost. A line feed is sent as carriage return and line feed.

What the transmitter accepts is therefore in every case a part, in order, of the text with its line ends
rewritten, and it is all of it where the device sends a byte at least every `UART_SPIN_MAX` accesses. The
text can be read back from the line.

`serial_init` sets the word length and enables the device; here the device is enabled.
-/

namespace Arcline

open Arm

/-! ## `serial.c` -/

/-- `UART_SPIN_MAX`. -/
def uartSpinMax : Nat := 1000000

/-- A line feed, and the carriage return that goes before it. -/
def lineFeed : Byte := 0x0A

def carriageReturn : Byte := 0x0D

section Driver

variable (cap : Nat) (speed : Nat → Nat)

/-- The loop of `uart_wait_tx_space`, with the looks at the flag register that are left to it. -/
def uartWaitTxSpace : Nat → Uart Byte → Uart Byte
  | 0, u => u
  | looks + 1, u =>
      let u := u.access speed
      if u.Space cap then u else uartWaitTxSpace looks u

/-- Wait for space, and store a byte to the data register. -/
def uartSend (b : Byte) (u : Uart Byte) : Uart Byte :=
  (uartWaitTxSpace cap speed uartSpinMax u).write cap speed b

/-- `serial_putc`. -/
def serialPutc (c : Byte) (u : Uart Byte) : Uart Byte :=
  let u := if c = lineFeed then uartSend cap speed carriageReturn u else u
  uartSend cap speed c u

/-- The loop of `serial_puts`, and those of `log_write_str`: the characters of a text go to
`serial_putc`. -/
def serialEach (text : List Byte) (u : Uart Byte) : Uart Byte :=
  text.foldl (fun u c => serialPutc cap speed c u) u

end Driver

/-! ## Line ends -/

/-- What is sent of a text. -/
def crlf : List Byte → List Byte
  | [] => []
  | c :: text => (if c = lineFeed then [carriageReturn, lineFeed] else [c]) ++ crlf text

/-- What a terminal that drops the carriage return before a line feed makes of it. -/
def uncrlf : List Byte → List Byte
  | [] => []
  | c :: text =>
      if c = carriageReturn ∧ text.head? = some lineFeed then uncrlf text else c :: uncrlf text

theorem crlf_append (text text' : List Byte) : crlf (text ++ text') = crlf text ++ crlf text' := by
  induction text with
  | nil => rfl
  | cons c text ih => rw [List.cons_append, crlf, crlf, ih, List.append_assoc]

/-- A line feed does not come first. -/
theorem head_crlf (text : List Byte) : (crlf text).head? ≠ some lineFeed := by
  cases text with
  | nil => simp [crlf]
  | cons c text =>
      rw [crlf]
      split
      · show some carriageReturn ≠ some lineFeed
        decide
      · rename_i hc
        exact fun h => hc (Option.some.inj h)

/-- **Nothing of a text is lost on the line.** -/
theorem uncrlf_crlf (text : List Byte) : uncrlf (crlf text) = text := by
  induction text with
  | nil => rfl
  | cons c text ih =>
      rw [crlf]
      split
      · rename_i hc
        have hreturn : carriageReturn = carriageReturn ∧
            (lineFeed :: crlf text).head? = some lineFeed := ⟨rfl, rfl⟩
        have hfeed : ¬ (lineFeed = carriageReturn ∧ (crlf text).head? = some lineFeed) :=
          fun h => absurd h.1 (by decide)
        show uncrlf (carriageReturn :: lineFeed :: crlf text) = c :: text
        rw [uncrlf, if_pos hreturn, uncrlf, if_neg hfeed, ih, hc]
      · -- a carriage return of the text itself is not followed by a line feed
        have hkeep : ¬ (c = carriageReturn ∧ (crlf text).head? = some lineFeed) :=
          fun h => head_crlf text h.2
        show uncrlf (c :: crlf text) = c :: text
        rw [uncrlf, if_neg hkeep, ih]

/-! ## What a call sends -/

/-- The device sends a byte at least every `UART_SPIN_MAX` accesses. -/
def Prompt (speed : Nat → Nat) : Prop := ∀ n, ∃ j < uartSpinMax, 0 < speed (n + j)

/-- From `u` to `u'` the bytes `want` have been sent, or some of them, in `cost` accesses at most. -/
structure Sends (cap : Nat) (speed : Nat → Nat) (want : List Byte) (cost : Nat) (u u' : Uart Byte) :
    Prop where
  fits : u'.queue.length ≤ cap
  accesses : u'.accesses ≤ u.accesses + cost
  line : ∃ out, u'.line = u.line ++ out ∧ out.Sublist want ∧ (Prompt speed → out = want)

/-- The accesses for one byte: the looks at the flag register, and the store. -/
def sendCost : Nat := uartSpinMax + 1

section Sends

variable {cap : Nat} {speed : Nat → Nat} {u u₁ u₂ : Uart Byte} {want want₁ : List Byte}
  {cost cost₁ : Nat}

theorem Sends.refl (h : u.queue.length ≤ cap) : Sends cap speed [] 0 u u :=
  ⟨h, Nat.le_refl _, [], (List.append_nil _).symm, List.Sublist.refl _, fun _ => rfl⟩

theorem Sends.trans (h : Sends cap speed want cost u u₁) (h₁ : Sends cap speed want₁ cost₁ u₁ u₂) :
    Sends cap speed (want ++ want₁) (cost + cost₁) u u₂ := by
  obtain ⟨out, hline, hsub, hall⟩ := h.line
  obtain ⟨out₁, hline₁, hsub₁, hall₁⟩ := h₁.line
  refine ⟨h₁.fits, ?_, out ++ out₁, ?_, hsub.append hsub₁, ?_⟩
  · have hfirst := h.accesses
    have hsecond := h₁.accesses
    omega
  · rw [hline₁, hline, List.append_assoc]
  · intro hprompt
    rw [hall hprompt, hall₁ hprompt]

theorem Sends.mono (h : Sends cap speed want cost u u₁) (hcost : cost ≤ cost₁) :
    Sends cap speed want cost₁ u u₁ :=
  ⟨h.fits, Nat.le_trans h.accesses (Nat.add_le_add_left hcost _), h.line⟩

end Sends

section Driver

variable {cap : Nat} (speed : Nat → Nat) {u : Uart Byte}

/-- Waiting sends what is in the queue already, and nothing else. -/
theorem uartWaitTxSpace_sends (looks : Nat) (h : u.queue.length ≤ cap) :
    Sends cap speed [] looks u (uartWaitTxSpace cap speed looks u) := by
  induction looks generalizing u with
  | zero => exact Sends.refl h
  | succ looks ih =>
      have haccess : Sends cap speed [] 1 u (u.access speed) :=
        ⟨Uart.length_access_le h, Nat.le_refl _, [], by simp, List.Sublist.refl _, fun _ => rfl⟩
      rw [uartWaitTxSpace]
      split
      · exact haccess.mono (by omega)
      · have hrest := haccess.trans (ih haccess.fits)
        rwa [Nat.add_comm] at hrest

/-- It ends with space if the device sends a byte meanwhile. The induction is on the looks: the device
has sent a byte before this one, or it does so before a later one. -/
theorem space_uartWaitTxSpace (hcap : 0 < cap) {looks : Nat} (h : u.queue.length ≤ cap)
    (hspeed : ∃ j < looks, 0 < speed (u.accesses + j)) :
    (uartWaitTxSpace cap speed looks u).Space cap := by
  induction looks generalizing u with
  | zero =>
      obtain ⟨j, hj, -⟩ := hspeed
      exact absurd hj (Nat.not_lt_zero j)
  | succ looks ih =>
      rw [uartWaitTxSpace]
      split
      · assumption
      · rename_i hfull
        apply ih (Uart.length_access_le h)
        obtain ⟨j, hj, hpos⟩ := hspeed
        cases j with
        | zero => exact absurd (Uart.space_access hcap h hpos) hfull
        | succ j =>
            refine ⟨j, Nat.lt_of_succ_lt_succ hj, ?_⟩
            show 0 < speed (u.accesses + 1 + j)
            rwa [Nat.add_assoc, Nat.add_comm 1 j]

theorem uartSend_sends (hcap : 0 < cap) (h : u.queue.length ≤ cap) (b : Byte) :
    Sends cap speed [b] sendCost u (uartSend cap speed b u) := by
  have hwait := uartWaitTxSpace_sends speed uartSpinMax h
  refine hwait.trans ⟨Uart.length_write_le hwait.fits b, ?_, _, Uart.write_line b, ?_, ?_⟩
  · exact Nat.le_of_eq (Uart.write_accesses b)
  · split
    · exact List.Sublist.refl _
    · exact List.nil_sublist _
  · intro hprompt
    rw [if_pos (space_uartWaitTxSpace speed hcap h (hprompt u.accesses)).access]

theorem serialPutc_sends (hcap : 0 < cap) (h : u.queue.length ≤ cap) (c : Byte) :
    Sends cap speed (crlf [c]) (2 * sendCost) u (serialPutc cap speed c u) := by
  unfold serialPutc
  dsimp only [crlf]
  rw [List.append_nil]
  split
  · rename_i hc
    have hreturn := uartSend_sends speed hcap h carriageReturn
    have hboth := hreturn.trans (uartSend_sends speed hcap hreturn.fits c)
    rw [← Nat.two_mul, hc] at hboth
    rw [hc]
    exact hboth
  · exact (uartSend_sends speed hcap h c).mono (by omega)

theorem serialEach_sends (hcap : 0 < cap) (h : u.queue.length ≤ cap) (text : List Byte) :
    Sends cap speed (crlf text) (text.length * (2 * sendCost)) u (serialEach cap speed text u) := by
  induction text generalizing u with
  | nil =>
      rw [List.length_nil, Nat.zero_mul]
      exact Sends.refl h
  | cons c text ih =>
      have hfirst := serialPutc_sends speed hcap h c
      have hall := hfirst.trans (ih hfirst.fits)
      rw [← crlf_append] at hall
      apply hall.mono
      rw [List.length_cons, Nat.add_mul, Nat.one_mul, Nat.add_comm]

end Driver

/-! ## The log on the console -/

/-- The log and the transmitter it writes to: the sink is `serial_putc` if there is one. -/
structure Console where
  log : Klog
  uart : Uart Byte

/-- A call of the log. What `log_write_str` passes to the sink it passes before it touches the ring. -/
def Console.call (cap : Nat) (speed : Nat → Nat) (c : Console) (op : LogOp) :
    Option (LogAnswer × Console) :=
  (c.log.call op).map fun (answer, log) =>
    (answer, ⟨log, serialEach cap speed answer.console c.uart⟩)

/-- What the calls show on a console with this sink and this level: the messages of the levels asked for,
each with its prefix. The ring has no part in it, and neither has the level from which on messages are
stored. -/
def consoleText : Bool → BitVec 32 → List LogOp → List Byte
  | _, _, [] => []
  | sink, shown, op :: ops =>
      match op with
      | .write level (some msg) => consoleOutput sink shown level msg ++ consoleText sink shown ops
      | .setConsoleSink sink => consoleText sink shown ops
      | .setConsoleLevel shown => consoleText sink shown ops
      | _ => consoleText sink shown ops

/-- One call of the queue shows what belongs to it, and the rest is shown after it. -/
theorem consoleText_cons (q : LogFifo) (op : LogOp) (ops : List LogOp) :
    consoleText q.consoleSink q.consoleLevel (op :: ops)
      = (q.call op).1.console
        ++ consoleText (q.call op).2.consoleSink (q.call op).2.consoleLevel ops := by
  cases op with
  | write level msg =>
      cases msg with
      | none => rfl
      | some msg =>
          simp only [consoleText, LogFifo.call, LogFifo.write]
          split <;> rfl
  | read outBuf outBufLen outLevel =>
      simp only [consoleText, LogFifo.call, LogFifo.read]
      split
      · rfl
      · split <;> rfl
  | setLevel | getLevel | setConsoleSink | setConsoleLevel | getConsoleLevel => rfl

namespace Console

variable {cap : Nat} (speed : Nat → Nat)

/-- A run from a log that holds a queue, by induction on its calls. -/
theorem run_sends (hcap : 0 < cap) {c : Console} {q : LogFifo} (hlog : c.log.Holds q)
    (hfits : c.uart.queue.length ≤ cap) {ops : List LogOp} (hshort : ∀ op ∈ ops, op.Short) :
    ∃ answers c', Machine.runOption (Console.call cap speed) c ops = some (answers, c') ∧
      Sends cap speed (crlf (consoleText q.consoleSink q.consoleLevel ops))
        ((consoleText q.consoleSink q.consoleLevel ops).length * (2 * sendCost)) c.uart c'.uart := by
  induction ops generalizing c q with
  | nil =>
      refine ⟨[], c, rfl, ?_⟩
      rw [consoleText, List.length_nil, Nat.zero_mul]
      exact Sends.refl hfits
  | cons op ops ih =>
      obtain ⟨log, hcall, hholds⟩ := hlog.call (hshort op List.mem_cons_self)
      have hfirst := serialEach_sends speed hcap hfits (q.call op).1.console
      obtain ⟨answers, c', hrun, hsends⟩ := ih
        (c := ⟨log, serialEach cap speed (q.call op).1.console c.uart⟩) hholds hfirst.fits
        fun o ho => hshort o (List.mem_cons_of_mem _ ho)
      refine ⟨(q.call op).1 :: answers, c', ?_, ?_⟩
      · have hstep : Console.call cap speed c op = some ((q.call op).1,
            ⟨log, serialEach cap speed (q.call op).1.console c.uart⟩) := by
          rw [Console.call, hcall, Option.map_some]
        simp only [Machine.runOption, hstep, Option.bind_some, hrun, Option.map_some]
      · rw [consoleText_cons, crlf_append, List.length_append, Nat.add_mul]
        exact hfirst.trans hsends

/-- **What is logged reaches the line.** Every run of calls of the log after `log_init`, with messages
below 2 GiB, returns, whatever the transmitter does, after a bounded number of accesses to it. What the
transmitter has accepted is a part, in order, of the messages shown with their line ends rewritten. If the
device sends a byte at least every `UART_SPIN_MAX` accesses it is all of it, and the messages can be read
back. -/
theorem console_reaches_line (hcap : 0 < cap) (k : Klog) {u : Uart Byte}
    (hfits : u.queue.length ≤ cap) {ops : List LogOp} (hshort : ∀ op ∈ ops, op.Short) :
    ∃ answers c', Machine.runOption (Console.call cap speed) ⟨k.logInit, u⟩ ops = some (answers, c') ∧
      c'.uart.accesses
        ≤ u.accesses + (consoleText true klogInfo ops).length * (2 * (uartSpinMax + 1)) ∧
      ∃ out, c'.uart.line = u.line ++ out ∧ out.Sublist (crlf (consoleText true klogInfo ops)) ∧
        (Prompt speed → out = crlf (consoleText true klogInfo ops) ∧
          uncrlf out = consoleText true klogInfo ops) := by
  have hstart : (⟨k.logInit, u⟩ : Console).log.Holds .init := k.holds_logInit
  obtain ⟨answers, c', hrun, hsends⟩ := run_sends speed hcap hstart hfits hshort
  obtain ⟨out, hline, hsub, hall⟩ := hsends.line
  refine ⟨answers, c', hrun, hsends.accesses, out, hline, hsub, ?_⟩
  intro hprompt
  rw [hall hprompt]
  exact ⟨rfl, uncrlf_crlf _⟩

/-- Two bytes and a prefix on a transmitter of one cell that sends a byte from each access to the next. -/
theorem console_reaches_line_message :
    ∃ answers c', Machine.runOption (Console.call 1 fun _ => 1) ⟨Klog.static.logInit, ⟨[], [], 0⟩⟩
        [.write 3 (some [0x68, 0x0A])] = some (answers, c') ∧
      uncrlf c'.uart.line = [0x3C, 0x33, 0x3E, 0x68, 0x0A] := by
  have hshort : ∀ op ∈ ([.write 3 (some [0x68, 0x0A])] : List LogOp), op.Short := by
    simp [LogOp.Short]
  obtain ⟨answers, c', hrun, -, out, hline, -, hread⟩ := console_reaches_line (fun _ => 1)
    Nat.one_pos Klog.static (u := ⟨[], [], 0⟩) (Nat.zero_le 1) hshort
  have hprompt : Prompt fun _ => 1 := fun _ => ⟨0, by decide, Nat.one_pos⟩
  refine ⟨answers, c', hrun, ?_⟩
  rw [hline]
  exact (hread hprompt).2

end Console

end Arcline
