import Arcline.Circular
import Arcline.Word

set_option autoImplicit false

/-! # The kernel log

`log_write_str` appends records to a ring of 4096 bytes and drops the oldest ones where there is no room;
`log_read` takes the oldest record. A record is a packed header of three bytes, level and length, and the
text. Header and text may each wrap around the end of the ring. One byte stays unused, so that a full
ring differs from an empty one.

A call has no result (`none`) where a copy runs over the end of the ring or a loop does not come to an end.
-/

namespace Arcline

open Circular

/-- `KLOG_RING_SIZE`. -/
def klogRingSize : Nat := 4096

/-- `sizeof(klog_hdr_t)`. -/
def klogHdrSize : Nat := 3

/-- `KLOG_INFO`. -/
def klogInfo : BitVec 32 := 6

/-- `klog_hdr_t`. -/
structure KlogHdr where
  level : Byte
  len : BitVec 16
deriving DecidableEq, Repr

namespace KlogHdr

/-- The header in memory; the length is little endian. -/
def bytes (h : KlogHdr) : List Byte := [h.level, h.len.setWidth 8, (h.len >>> 8).setWidth 8]

def ofBytes : List Byte → KlogHdr
  | [level, low, high] => ⟨level, high ++ low⟩
  | _ => ⟨0, 0⟩

@[simp] theorem length_bytes (h : KlogHdr) : h.bytes.length = klogHdrSize := rfl

@[simp] theorem ofBytes_bytes (h : KlogHdr) : ofBytes h.bytes = h := by
  have hlen : (h.len >>> 8).setWidth 8 ++ h.len.setWidth 8 = h.len := by
    apply BitVec.eq_of_getLsbD_eq
    intro i hi
    rw [BitVec.getLsbD_append]
    simp only [BitVec.getLsbD_setWidth, BitVec.getLsbD_ushiftRight]
    by_cases hlow : i < 8
    · simp [hlow]
    · have hsub : 8 + (i - 8) = i := by omega
      have hhigh : i - 8 < 8 := by omega
      simp [hlow, hsub, hhigh]
  rw [bytes, ofBytes, hlen]

end KlogHdr

/-- The statics of the log. The two positions are below the ring size always: `rb_advance` reduces them,
and nothing else sets them but `log_init`. Of the console sink it matters only whether there is one. -/
structure Klog where
  ring : Nat → Byte
  head : Nat
  tail : Nat
  level : BitVec 32
  consoleLevel : BitVec 32
  consoleSink : Bool
  inited : Bool
  head_lt : head < klogRingSize
  tail_lt : tail < klogRingSize

/-- The statics before `log_init`. -/
def Klog.static : Klog := ⟨fun _ => 0, 0, 0, klogInfo, klogInfo, true, false, by decide, by decide⟩

/-- What a call returns, writes to `out_buf` and `*out_level`, and sends to the console sink. -/
structure LogAnswer where
  ret : Int
  out : List Byte
  level : Option Byte
  console : List Byte
deriving DecidableEq, Repr

namespace LogAnswer

/-- Return 0 after the console output. -/
def zero (console : List Byte) : LogAnswer := ⟨0, [], none, console⟩

end LogAnswer

/-- `rb_advance`. The ring size divides `2^32`, so the sum may as well wrap. -/
def rbAdvance (p n : Nat) : Nat := (p + n) % klogRingSize

theorem rbAdvance_lt (p n : Nat) : rbAdvance p n < klogRingSize :=
  Nat.mod_lt _ (by decide)

/-- A copy of `len` bytes from position `p` on that may wrap. -/
def rbCopyOut (ring : Nat → Byte) (p len : Nat) : Option (List Byte) :=
  if len ≤ klogRingSize - p then copyOut klogRingSize ring p len
  else
    let first := klogRingSize - p
    (copyOut klogRingSize ring p first).bind fun a =>
      (copyOut klogRingSize ring 0 (len - first)).map fun b => a ++ b

/-- The same into the ring. -/
def rbCopyIn (ring : Nat → Byte) (p : Nat) (src : List Byte) : Option (Nat → Byte) :=
  if src.length ≤ klogRingSize - p then copyIn klogRingSize ring p src
  else
    let first := klogRingSize - p
    (copyIn klogRingSize ring p (src.take first)).bind fun ring =>
      copyIn klogRingSize ring 0 (src.drop first)

/-- More steps of `rb_drop_oldest` than there are positions: the loop changes nothing but the tail, so it
comes back to a position and never ends. -/
def klogSteps : Nat := 4096

namespace Klog

/-- `rb_space`. -/
def rbSpace (k : Klog) : Nat :=
  if k.tail ≤ k.head then klogRingSize - (k.head - k.tail) - 1 else k.tail - k.head - 1

/-- `rb_advance(&klog_tail, n)`. -/
def advanceTail (k : Klog) (n : Nat) : Klog :=
  { k with tail := rbAdvance k.tail n, tail_lt := rbAdvance_lt k.tail n }

/-- Copy bytes to the head, and advance it. -/
def append (k : Klog) (src : List Byte) : Option Klog :=
  (rbCopyIn k.ring k.head src).map fun ring =>
    { k with
      ring := ring
      head := rbAdvance k.head src.length
      head_lt := rbAdvance_lt k.head src.length }

/-- The header at the tail. -/
def readHdr (k : Klog) : Option KlogHdr :=
  (rbCopyOut k.ring k.tail klogHdrSize).map KlogHdr.ofBytes

/-- `rb_drop_oldest`. -/
def rbDropOldest : Nat → Nat → Klog → Option Klog
  | 0, need, k => if k.rbSpace < need then none else some k
  | steps + 1, need, k =>
      if k.rbSpace < need then
        k.readHdr.bind fun hdr =>
          rbDropOldest steps need (k.advanceTail (klogHdrSize + hdr.len.toNat))
      else some k

/-- `log_init`. -/
def logInit (k : Klog) : Klog :=
  { k with
    head := 0
    tail := 0
    level := klogInfo
    consoleLevel := klogInfo
    consoleSink := true
    inited := true
    head_lt := by decide
    tail_lt := by decide }

end Klog

/-- `console_emit_prefix`: the level in angle brackets, 6 for a level that is not one of the eight. -/
def consoleEmitPrefix (level : BitVec 32) : List Byte :=
  [0x3C, 0x30 + (if level < 8 then level.setWidth 8 else 6), 0x3E]

/-- The console output of `log_write_str`. -/
def consoleOutput (sink : Bool) (consoleLevel level : BitVec 32) (msg : List Byte) : List Byte :=
  if sink ∧ level.toInt ≤ consoleLevel.toInt then consoleEmitPrefix level ++ msg else []

/-- `max_payload`. -/
def maxPayload : BitVec 32 := 4092

namespace Klog

/-- The length `log_write_str` stores of a message: an `int` that counts the bytes, cut to
`max_payload`. -/
def storedLen (msg : List Byte) : BitVec 32 :=
  let len := BitVec.ofNat 32 msg.length
  if len.toInt > maxPayload.toInt then maxPayload else len

/-- `log_write_str`, for NULL or the bytes before the NUL. -/
def logWriteStr (k : Klog) (level : BitVec 32) (msg : Option (List Byte)) :
    Option (LogAnswer × Klog) :=
  match msg with
  | none => some (.zero [], k)
  | some msg =>
      let console := consoleOutput k.consoleSink k.consoleLevel level msg
      if k.inited = false then some (.zero console, k)
      else if level.toInt > k.level.toInt then some (.zero console, k)
      else
        let len := storedLen msg
        let need := BitVec.ofNat 32 klogHdrSize + len
        (if k.rbSpace < need.toNat then k.rbDropOldest klogSteps need.toNat else some k).bind fun k =>
          (k.append (KlogHdr.bytes ⟨level.setWidth 8, len.setWidth 16⟩)).bind fun k =>
            (k.append (msg.take len.toNat)).map fun k => (⟨len.toInt, [], none, console⟩, k)

/-- The text of a record, from the tail on. Where it wraps, the code cuts the first part to the bytes
asked for. -/
def readText (k : Klog) (toCopy : Nat) : Option (List Byte) :=
  if toCopy ≤ klogRingSize - k.tail then copyOut klogRingSize k.ring k.tail toCopy
  else
    let first := klogRingSize - k.tail
    let first := if first > toCopy then toCopy else first
    (copyOut klogRingSize k.ring k.tail first).bind fun a =>
      if toCopy > first then
        (copyOut klogRingSize k.ring 0 (toCopy - first)).map fun b => a ++ b
      else some a

/-- `log_read`; the two flags say that `out_buf` and `out_level` are not NULL. -/
def logRead (k : Klog) (outBuf : Bool) (outBufLen : BitVec 32) (outLevel : Bool) :
    Option (LogAnswer × Klog) :=
  if outBuf = false ∨ outBufLen.toInt ≤ 0 then some (.zero [], k)
  else if k.inited = false then some (.zero [], k)
  else if k.head = k.tail then some (.zero [], k)
  else
    k.readHdr.bind fun hdr =>
      let k := k.advanceTail klogHdrSize
      let toCopy := hdr.len.toNat
      let toCopy := if toCopy > outBufLen.toNat - 1 then outBufLen.toNat - 1 else toCopy
      (k.readText toCopy).map fun text =>
        (⟨toCopy, text ++ [0], if outLevel then some hdr.level else none, []⟩,
          k.advanceTail hdr.len.toNat)

end Klog

/-- The calls after `log_init`. -/
inductive LogOp
  | write (level : BitVec 32) (msg : Option (List Byte))
  | read (outBuf : Bool) (outBufLen : BitVec 32) (outLevel : Bool)
  | setLevel (level : BitVec 32)
  | getLevel
  | setConsoleSink (sink : Bool)
  | setConsoleLevel (level : BitVec 32)
  | getConsoleLevel

def Klog.call (k : Klog) : LogOp → Option (LogAnswer × Klog)
  | .write level msg => k.logWriteStr level msg
  | .read outBuf outBufLen outLevel => k.logRead outBuf outBufLen outLevel
  | .setLevel level => some (.zero [], { k with level := level })
  | .getLevel => some (⟨k.level.toInt, [], none, []⟩, k)
  | .setConsoleSink sink => some (.zero [], { k with consoleSink := sink })
  | .setConsoleLevel level => some (.zero [], { k with consoleLevel := level })
  | .getConsoleLevel => some (⟨k.consoleLevel.toInt, [], none, []⟩, k)

/-! ## Copies that wrap -/

variable {ring : Nat → Byte} {p len : Nat}

/-- Either branch reads the bytes from `p` on. -/
theorem rbCopyOut_eq (hp : p < klogRingSize) (hlen : len ≤ klogRingSize) :
    rbCopyOut ring p len = some (slice klogRingSize ring p len) := by
  unfold rbCopyOut
  split
  · exact copyOut_eq (by omega)
  · have hwrap : slice klogRingSize ring 0 (len - (klogRingSize - p))
        = slice klogRingSize ring (p + (klogRingSize - p)) (len - (klogRingSize - p)) := by
      rw [Nat.add_sub_cancel' (Nat.le_of_lt hp), ← slice_mod _ _ klogRingSize, Nat.mod_self]
    dsimp only
    rw [copyOut_eq (by omega), copyOut_eq (by omega), Option.bind_some, Option.map_some, hwrap,
      ← slice_add]
    congr 2
    omega

theorem exists_rbCopyIn (hp : p < klogRingSize) (src : List Byte) (hlen : src.length ≤ klogRingSize)
    (ring : Nat → Byte) : ∃ ring', rbCopyIn ring p src = some ring' ∧
      Stored klogRingSize ring p src ring' := by
  unfold rbCopyIn
  split
  · exact exists_copyIn (by omega) ring
  · rename_i hwrap
    dsimp only
    have hfirst : (src.take (klogRingSize - p)).length = klogRingSize - p := by
      rw [List.length_take]
      omega
    have hrest : (src.drop (klogRingSize - p)).length = src.length - (klogRingSize - p) :=
      List.length_drop
    obtain ⟨ring₁, heq₁, hstored₁⟩ := exists_copyIn (n := klogRingSize) (p := p)
      (l := src.take (klogRingSize - p)) (by omega) ring
    obtain ⟨ring₂, heq₂, hstored₂⟩ := exists_copyIn (n := klogRingSize) (p := 0)
      (l := src.drop (klogRingSize - p)) (by omega) ring₁
    rw [heq₁, Option.bind_some]
    refine ⟨ring₂, heq₂, ?_⟩
    -- the second copy starts where the first one ends
    have hnext : Stored klogRingSize ring₁ (p + (src.take (klogRingSize - p)).length)
        (src.drop (klogRingSize - p)) ring₂ := by
      rw [hfirst, Nat.add_sub_cancel' (Nat.le_of_lt hp), ← stored_mod, Nat.mod_self]
      exact hstored₂
    have hstored := hstored₁.append hnext (by omega)
    rwa [List.take_append_drop] at hstored

/-- The text is read by the same bytes: the cut of the first part never applies. -/
theorem Klog.readText_eq (k : Klog) (hlen : len ≤ klogRingSize) :
    k.readText len = some (slice klogRingSize k.ring k.tail len) := by
  rw [← rbCopyOut_eq k.tail_lt hlen]
  unfold readText rbCopyOut
  split
  · rfl
  · rename_i hwrap
    have hfirst : ¬ klogRingSize - k.tail > len := by omega
    have hsecond : len > klogRingSize - k.tail := by omega
    simp only [if_neg hfirst, if_pos hsecond]

end Arcline
