import Arcline.Kernel.Log
import Arcline.Numeral

set_option autoImplicit false

/-! # `printk`

`do_printf` goes through a format string and hands one character after the other to an output function.
`printk_vroute` formats into a buffer of 512 bytes, by an output function that drops what does not fit,
and passes the buffer to `log_write_str`.

A format is given by the bytes that may be read from its address on, so that a format without a NUL among
them has no result. Nor has one whose conversions ask for an argument that is not there or of another
type, or a write outside of an array.
-/

namespace Arcline

/-- The code of an ASCII character. -/
def ascii (c : Char) : Byte := BitVec.ofNat 8 c.toNat

/-- A string of C, without its NUL. -/
structure CString where
  bytes : List Byte
  no_nul : (0 : Byte) ∉ bytes

/-- What `%s` prints for NULL. -/
def CString.null : CString := ⟨"(null)".toList.map ascii, by decide⟩

/-- A variadic argument: `int` or `unsigned int`, `int64_t` or `uint64_t`, `void *`, or `const char *`,
which may be NULL. -/
inductive VaArg
  | int (v : BitVec 32)
  | long (v : BitVec 64)
  | pointer (p : Word)
  | string (s : Option CString)

/-! `va_arg` at each of the types. -/

def vaInt : List VaArg → Option (BitVec 32 × List VaArg)
  | .int v :: args => some (v, args)
  | _ => none

def vaLong : List VaArg → Option (BitVec 64 × List VaArg)
  | .long v :: args => some (v, args)
  | _ => none

def vaPointer : List VaArg → Option (Word × List VaArg)
  | .pointer p :: args => some (p, args)
  | _ => none

def vaString : List VaArg → Option (Option CString × List VaArg)
  | .string s :: args => some (s, args)
  | _ => none

/-! ## The digit arrays

The three digit loops of `do_printf`, over numbers of any width and arrays of any size. The result is the
array from its last used cell down, as it is printed. -/

section DigitArray

variable {w : Nat}

/-- `if (val == 0) buf[i++] = '0'; else while (val > 0) ...`. -/
def digitArray (pos : BitVec w → Bool) (digit : BitVec w → Byte) (next : BitVec w → BitVec w)
    (size : Nat) (val : BitVec w) : Option (List Byte) :=
  if val = 0 then
    if 0 < size then some [ascii '0'] else none
  else Numeral.loop pos digit next size val []

/-- `%u` and `%llu`. -/
def unsignedArray (size : Nat) (val : BitVec w) : Option (List Byte) :=
  digitArray (fun v => 0 < v) (fun v => ascii '0' + (v % 10).setWidth 8) (fun v => v / 10) size val

/-- `%d` and `%lld`, after the sign: comparison, remainder and quotient are signed. -/
def signedArray (size : Nat) (val : BitVec w) : Option (List Byte) :=
  digitArray (fun v => (0 : BitVec w).slt v) (fun v => ascii '0' + (v.srem 10).setWidth 8)
    (fun v => v.sdiv 10) size val

/-- `digit < 10 ? '0' + digit : 'a' + digit - 10`, for the last four bits. -/
def hexDigit (val : BitVec w) : Byte :=
  let digit := (val &&& 0xF).setWidth 8
  if digit < 10 then ascii '0' + digit else ascii 'a' + digit - 10

/-- `%x` and `%p`. -/
def hexArray (size : Nat) (val : BitVec w) : Option (List Byte) :=
  digitArray (fun v => 0 < v) hexDigit (fun v => v >>> 4) size val

end DigitArray

/-! ## `do_printf` -/

/-- What `do_printf` keeps beside its cursor: the state of the output function, the `int` that counts the
characters, and the arguments left. -/
structure Printf (σ : Type) where
  sink : σ
  count : BitVec 32
  args : List VaArg

namespace Printf

variable {σ : Type} (output : σ → Byte → Option σ)

/-- `output(c); count++`. -/
def put (p : Printf σ) (c : Byte) : Option (Printf σ) :=
  (output p.sink c).map fun sink => { p with sink := sink, count := p.count + 1 }

def puts (p : Printf σ) : List Byte → Option (Printf σ)
  | [] => some p
  | c :: cs => (p.put output c).bind fun p => p.puts cs

/-- The sign, and the digits of what is left of it. The negation wraps. -/
def putSigned {w : Nat} (p : Printf σ) (size : Nat) (val : BitVec w) : Option (Printf σ) :=
  (if val.slt 0 then (p.put output (ascii '-')).map fun p => (p, -val) else some (p, val)).bind
    fun (p, val) => (signedArray size val).bind fun buf => p.puts output buf

def printU (p : Printf σ) : Option (Printf σ) :=
  (vaInt p.args).bind fun (val, args) =>
    (unsignedArray 12 val).bind fun buf => { p with args := args }.puts output buf

def printD (p : Printf σ) : Option (Printf σ) :=
  (vaInt p.args).bind fun (val, args) => { p with args := args }.putSigned output 12 val

def printLlu (p : Printf σ) : Option (Printf σ) :=
  (vaLong p.args).bind fun (val, args) =>
    (unsignedArray 24 val).bind fun buf => { p with args := args }.puts output buf

def printLld (p : Printf σ) : Option (Printf σ) :=
  (vaLong p.args).bind fun (val, args) => { p with args := args }.putSigned output 24 val

def printX (p : Printf σ) : Option (Printf σ) :=
  (vaInt p.args).bind fun (val, args) =>
    (hexArray 9 val).bind fun buf => { p with args := args }.puts output buf

def printP (p : Printf σ) : Option (Printf σ) :=
  (vaPointer p.args).bind fun (val, args) =>
    ({ p with args := args }.puts output [ascii '0', ascii 'x']).bind fun p =>
      (hexArray 17 val).bind fun buf => p.puts output buf

def printS (p : Printf σ) : Option (Printf σ) :=
  (vaString p.args).bind fun (s, args) => { p with args := args }.puts output (s.getD .null).bytes

def printC (p : Printf σ) : Option (Printf σ) :=
  (vaInt p.args).bind fun (val, args) => { p with args := args }.put output (val.setWidth 8)

/-- The cases of the `switch` but for `'l'`, which looks ahead. -/
def convert (p : Printf σ) (c : Byte) : Option (Printf σ) :=
  if c = ascii 'u' then p.printU output
  else if c = ascii 'd' then p.printD output
  else if c = ascii 'x' then p.printX output
  else if c = ascii 'p' then p.printP output
  else if c = ascii 's' then p.printS output
  else if c = ascii 'c' then p.printC output
  else if c = ascii '%' then p.put output (ascii '%')
  else p.puts output [ascii '%', c]

/-- The loop over the format. The number says how many characters the cursor still has to pass over:
`fmt++` after a conversion, or `fmt += 2` and `fmt++`. -/
def scan : Nat → List Byte → Printf σ → Option (Printf σ)
  | _, [], _ => none
  | skip + 1, _ :: fmt, p => scan skip fmt p
  | 0, c :: fmt, p =>
      if c = 0 then some p
      else if c = ascii '%' then
        fmt[0]?.bind fun d =>
          if d = 0 then (p.put output c).bind fun p => scan 0 fmt p
          else if d = ascii 'l' then
            fmt[1]?.bind fun e =>
              if e = ascii 'l' then
                fmt[2]?.bind fun g =>
                  if g = ascii 'u' then (p.printLlu output).bind fun p => scan 3 fmt p
                  else if g = ascii 'd' then (p.printLld output).bind fun p => scan 3 fmt p
                  else scan 1 fmt p
              else scan 1 fmt p
          else (p.convert output d).bind fun p => scan 1 fmt p
      else (p.put output c).bind fun p => scan 0 fmt p

end Printf

/-- `do_printf`: the count, and the state of the output function at the end. -/
def doPrintf {σ : Type} (output : σ → Byte → Option σ) (sink : σ) (fmt : Option (List Byte))
    (args : List VaArg) : Option (BitVec 32 × σ) :=
  match fmt with
  | none => some (-1, sink)
  | some fmt => (Printf.scan output 0 fmt ⟨sink, 0, args⟩).map fun p => (p.count, p.sink)

/-! ## The buffer -/

/-- `sizeof(printk_buf)`. -/
def printkBufSize : Nat := 512

/-- `printk_buf`, `printk_buf_ptr` as an index into it, and `printk_buf_rem`. -/
structure PrintkBuf where
  buf : Nat → Byte
  ptr : Nat
  rem : Int

namespace PrintkBuf

/-- `*printk_buf_ptr = c`. -/
def store (b : PrintkBuf) (c : Byte) : Option PrintkBuf :=
  if b.ptr < printkBufSize then some { b with buf := Function.update b.buf b.ptr c } else none

/-- `buf_putc`. -/
def bufPutc (b : PrintkBuf) (c : Byte) : Option PrintkBuf :=
  if b.rem > 1 then (b.store c).map fun b => { b with ptr := b.ptr + 1, rem := b.rem - 1 } else some b

/-- The string in the buffer, if there is a NUL in it. -/
def string (b : PrintkBuf) : Option (List Byte) :=
  let bytes := (List.range printkBufSize).map b.buf
  if 0 ∈ bytes then some (bytes.takeWhile (· ≠ 0)) else none

end PrintkBuf

/-- What a call returns and leaves behind: the value, the buffer, the message passed to `log_write_str` if
it was called, the console output, and the log. -/
structure PrintkResult where
  ret : BitVec 32
  buf : PrintkBuf
  message : Option (List Byte)
  console : List Byte
  log : Klog

/-- `printk_vroute`. -/
def printkVroute (k : Klog) (b : PrintkBuf) (level : BitVec 32) (fmt : Option (List Byte))
    (args : List VaArg) : Option PrintkResult :=
  (doPrintf PrintkBuf.bufPutc { b with ptr := 0, rem := printkBufSize } fmt args).bind fun (cnt, b) =>
    (b.store 0).bind fun b =>
      b.string.bind fun message =>
        (k.logWriteStr level (some message)).map fun (answer, k) =>
          ⟨cnt, b, some message, answer.console, k⟩

/-- `STDOUT_FD`. -/
def stdoutFd : BitVec 32 := 1

/-- `STDERR_FD`. -/
def stderrFd : BitVec 32 := 2

/-- `KLOG_ERR`. -/
def klogErr : BitVec 32 := 3

/-- `vfprintk`. -/
def vfprintk (k : Klog) (b : PrintkBuf) (fd : BitVec 32) (fmt : Option (List Byte))
    (args : List VaArg) : Option PrintkResult :=
  match fmt with
  | none => some ⟨-1, b, none, [], k⟩
  | some fmt => printkVroute k b (if fd = stderrFd then klogErr else klogInfo) (some fmt) args

/-- `fprintk`. -/
def fprintk (k : Klog) (b : PrintkBuf) (fd : BitVec 32) (fmt : Option (List Byte))
    (args : List VaArg) : Option PrintkResult :=
  vfprintk k b fd fmt args

/-- `sys_write`, which ignores its count. -/
def sysWrite (k : Klog) (b : PrintkBuf) (fd : BitVec 32) (buf : Option (List Byte))
    (_count : BitVec 32) : Option PrintkResult :=
  if fd = stdoutFd then fprintk k b stdoutFd buf []
  else if fd = stderrFd then fprintk k b stderrFd buf []
  else some ⟨-1, b, none, [], k⟩

end Arcline
