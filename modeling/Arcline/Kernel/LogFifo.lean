import Arcline.Kernel.Log
import Arcline.Run

set_option autoImplicit false

/-! # The log is a queue of records

What the log is for: a queue of records, oldest first, of at most 4095 bytes with three bytes of header
for each. A write drops the fewest oldest records that make room and appends its own; a read takes the
oldest. The ring does the same, in two layers: its bytes from the tail to the head are a queue of bytes,
and this queue is the records one after the other.

The length of a message is counted in an `int`. From 2 GiB on the count is wrong, and the loop that makes
room does not end.
-/

namespace Arcline

open Circular

/-! ## The queue -/

/-- A record, with the text as far as it is stored. -/
structure LogRecord where
  level : Byte
  text : List Byte
  short : text.length ≤ 4092

namespace LogRecord

/-- The bytes it takes. -/
def size (r : LogRecord) : Nat := klogHdrSize + r.text.length

/-- What is stored of a message: its first 4092 bytes, and the level modulo 256. -/
def ofMessage (level : BitVec 32) (msg : List Byte) : LogRecord where
  level := level.setWidth 8
  text := msg.take 4092
  short := by
    rw [List.length_take]
    exact Nat.min_le_left _ _

end LogRecord

def usedBytes (rs : List LogRecord) : Nat := (rs.map LogRecord.size).sum

@[simp] theorem usedBytes_nil : usedBytes [] = 0 := rfl

@[simp] theorem usedBytes_cons (r : LogRecord) (rs : List LogRecord) :
    usedBytes (r :: rs) = r.size + usedBytes rs := by
  simp [usedBytes]

/-- All but one of the bytes of the ring. -/
def klogCapacity : Nat := 4095

/-- Drop the oldest records until there is room for `need` bytes. -/
def makeRoom (need : Nat) : List LogRecord → List LogRecord
  | [] => []
  | r :: rs => if usedBytes (r :: rs) + need ≤ klogCapacity then r :: rs else makeRoom need rs

/-- These are the fewest records that have to go. -/
theorem makeRoom_fewest {need : Nat} (hneed : need ≤ klogCapacity) (rs : List LogRecord) :
    ∃ n, makeRoom need rs = rs.drop n ∧ usedBytes (rs.drop n) + need ≤ klogCapacity ∧
      ∀ j < n, klogCapacity < usedBytes (rs.drop j) + need := by
  induction rs with
  | nil => exact ⟨0, rfl, by simpa using hneed, fun j hj => absurd hj (Nat.not_lt_zero j)⟩
  | cons r rs ih =>
      rw [makeRoom]
      split
      · rename_i hfits
        exact ⟨0, rfl, hfits, fun j hj => absurd hj (Nat.not_lt_zero j)⟩
      · rename_i hfull
        obtain ⟨n, heq, hfits, hleast⟩ := ih
        refine ⟨n + 1, heq, hfits, fun j hj => ?_⟩
        cases j with
        | zero =>
            rw [List.drop_zero]
            omega
        | succ j => exact hleast j (by omega)

/-- The queue with the settings of the log. -/
structure LogFifo where
  records : List LogRecord
  level : BitVec 32
  consoleLevel : BitVec 32
  consoleSink : Bool

namespace LogFifo

/-- The log after `log_init`. -/
def init : LogFifo := ⟨[], klogInfo, klogInfo, true⟩

def write (q : LogFifo) (level : BitVec 32) (msg : Option (List Byte)) : LogAnswer × LogFifo :=
  match msg with
  | none => (.zero [], q)
  | some msg =>
      let console := consoleOutput q.consoleSink q.consoleLevel level msg
      if level.toInt > q.level.toInt then (.zero console, q)
      else
        let r := LogRecord.ofMessage level msg
        (⟨r.text.length, [], none, console⟩, { q with records := makeRoom r.size q.records ++ [r] })

def read (q : LogFifo) (outBuf : Bool) (outBufLen : BitVec 32) (outLevel : Bool) :
    LogAnswer × LogFifo :=
  if outBuf = false ∨ outBufLen.toInt ≤ 0 then (.zero [], q)
  else
    match q.records with
    | [] => (.zero [], q)
    | r :: rs =>
        let n := min r.text.length (outBufLen.toNat - 1)
        (⟨n, r.text.take n ++ [0], if outLevel then some r.level else none, []⟩,
          { q with records := rs })

def call (q : LogFifo) : LogOp → LogAnswer × LogFifo
  | .write level msg => q.write level msg
  | .read outBuf outBufLen outLevel => q.read outBuf outBufLen outLevel
  | .setLevel level => (.zero [], { q with level := level })
  | .getLevel => (⟨q.level.toInt, [], none, []⟩, q)
  | .setConsoleSink sink => (.zero [], { q with consoleSink := sink })
  | .setConsoleLevel level => (.zero [], { q with consoleLevel := level })
  | .getConsoleLevel => (⟨q.consoleLevel.toInt, [], none, []⟩, q)

end LogFifo

/-! ## The ring as a queue of bytes -/

namespace Klog

/-- The bytes from the tail to the head are `l`. -/
structure Bytes (k : Klog) (l : List Byte) : Prop where
  fits : l.length < klogRingSize
  head : k.head = (k.tail + l.length) % klogRingSize
  slice : slice klogRingSize k.ring k.tail l.length = l

/-- What no operation on the ring changes. -/
def settings (k : Klog) : BitVec 32 × BitVec 32 × Bool × Bool :=
  (k.level, k.consoleLevel, k.consoleSink, k.inited)

variable {k : Klog} {l l' : List Byte}

theorem bytes_logInit (k : Klog) : k.logInit.Bytes [] := ⟨by decide, rfl, rfl⟩

theorem Bytes.rbSpace (h : k.Bytes l) : k.rbSpace = klogCapacity - l.length := by
  have hhead := h.head
  have hfits := h.fits
  have htail := k.tail_lt
  unfold Klog.rbSpace klogCapacity
  simp only [klogRingSize] at *
  split <;> omega

theorem Bytes.head_eq_tail_iff (h : k.Bytes l) : k.head = k.tail ↔ l = [] := by
  have hhead := h.head
  have hfits := h.fits
  have htail := k.tail_lt
  rw [← List.length_eq_zero_iff]
  simp only [klogRingSize] at *
  omega

theorem Bytes.unique (h : k.Bytes l) (h' : k.Bytes l') : l = l' := by
  have hlen : l.length = l'.length := by
    have hhead := h.head.symm.trans h'.head
    have hfits := h.fits
    have hfits' := h'.fits
    have htail := k.tail_lt
    simp only [klogRingSize] at *
    omega
  rw [← h.slice, hlen, h'.slice]

/-- The first bytes, as `rb_drop_oldest` and `log_read` copy them. -/
theorem Bytes.rbCopyOut (h : k.Bytes (l ++ l')) : rbCopyOut k.ring k.tail l.length = some l := by
  have hfits := h.fits
  rw [List.length_append] at hfits
  rw [rbCopyOut_eq k.tail_lt (by omega),
    ← take_slice (show l.length ≤ (l ++ l').length by simp), h.slice, List.take_left]

theorem Bytes.readText (h : k.Bytes l) {n : Nat} (hn : n ≤ l.length) :
    k.readText n = some (l.take n) := by
  have hfits := h.fits
  rw [readText_eq k (by omega), ← take_slice hn, h.slice]

/-- Advancing the tail removes the first bytes. -/
theorem Bytes.advanceTail (h : k.Bytes (l ++ l')) : (k.advanceTail l.length).Bytes l' := by
  have hfits := h.fits
  have hhead := h.head
  have hslice := h.slice
  rw [List.length_append] at hfits hhead hslice
  refine ⟨by omega, ?_, ?_⟩
  · show k.head = ((k.tail + l.length) % klogRingSize + l'.length) % klogRingSize
    rw [hhead, Nat.mod_add_mod, Nat.add_assoc]
  · show Circular.slice klogRingSize k.ring ((k.tail + l.length) % klogRingSize) l'.length = l'
    rw [slice_mod]
    rw [slice_add] at hslice
    exact (List.append_inj hslice length_slice).2

/-- Copying bytes to the head appends them. -/
theorem Bytes.append (h : k.Bytes l) (l' : List Byte) (hfit : l.length + l'.length < klogRingSize) :
    ∃ k', k.append l' = some k' ∧ k'.Bytes (l ++ l') ∧ k'.settings = k.settings := by
  obtain ⟨ring, heq, hstored⟩ := exists_rbCopyIn k.head_lt l' (by omega) k.ring
  have happend : k.append l' = some { k with
      ring := ring
      head := rbAdvance k.head l'.length
      head_lt := rbAdvance_lt k.head l'.length } := by
    rw [Klog.append, heq, Option.map_some]
  refine ⟨_, happend, ⟨?_, ?_, ?_⟩, rfl⟩
  · rw [List.length_append]
    exact hfit
  · show (k.head + l'.length) % klogRingSize = (k.tail + (l ++ l').length) % klogRingSize
    rw [h.head, List.length_append, Nat.mod_add_mod, Nat.add_assoc]
  · show Circular.slice klogRingSize ring k.tail (l ++ l').length = l ++ l'
    rw [h.head, stored_mod] at hstored
    rw [List.length_append, hstored.slice_append (Nat.le_of_lt hfit), h.slice]

end Klog

/-! ## The bytes as records -/

namespace LogRecord

def hdr (r : LogRecord) : KlogHdr := ⟨r.level, BitVec.ofNat 16 r.text.length⟩

def bytes (r : LogRecord) : List Byte := r.hdr.bytes ++ r.text

@[simp] theorem hdr_len (r : LogRecord) : r.hdr.len.toNat = r.text.length := by
  have hshort := r.short
  show (BitVec.ofNat 16 r.text.length).toNat = r.text.length
  rw [BitVec.toNat_ofNat]
  omega

@[simp] theorem length_bytes (r : LogRecord) : r.bytes.length = r.size := by
  simp [bytes, size]

end LogRecord

/-- A record can be read off the bytes that begin with it. -/
theorem LogRecord.bytes_append_inj {r r' : LogRecord} {l l' : List Byte}
    (h : r.bytes ++ l = r'.bytes ++ l') : r = r' ∧ l = l' := by
  rw [LogRecord.bytes, LogRecord.bytes, List.append_assoc, List.append_assoc] at h
  obtain ⟨hhdr, hrest⟩ := List.append_inj h (by simp)
  have hhdr : r.hdr = r'.hdr := by
    rw [← KlogHdr.ofBytes_bytes r.hdr, hhdr, KlogHdr.ofBytes_bytes]
  have hlen : r.text.length = r'.text.length := by
    rw [← r.hdr_len, hhdr, r'.hdr_len]
  obtain ⟨htext, hl⟩ := List.append_inj hrest hlen
  have hlevel : r.level = r'.level := congrArg KlogHdr.level hhdr
  cases r
  cases r'
  cases hlevel
  cases htext
  exact ⟨rfl, hl⟩

/-- All records, one after the other. -/
def encodeRecords (rs : List LogRecord) : List Byte := rs.flatMap LogRecord.bytes

theorem encodeRecords_cons (r : LogRecord) (rs : List LogRecord) :
    encodeRecords (r :: rs) = r.bytes ++ encodeRecords rs := by
  simp [encodeRecords]

theorem encodeRecords_append (rs rs' : List LogRecord) :
    encodeRecords (rs ++ rs') = encodeRecords rs ++ encodeRecords rs' := by
  simp [encodeRecords]

@[simp] theorem length_encodeRecords (rs : List LogRecord) :
    (encodeRecords rs).length = usedBytes rs := by
  induction rs with
  | nil => rfl
  | cons r rs ih => rw [encodeRecords_cons, List.length_append, ih, usedBytes_cons, r.length_bytes]

theorem encodeRecords_injective : Function.Injective encodeRecords := by
  intro rs
  induction rs with
  | nil =>
      intro rs' h
      have hlen := congrArg List.length h
      cases rs' with
      | nil => rfl
      | cons r rs' =>
          have hsize : r.size = 3 + r.text.length := rfl
          simp only [length_encodeRecords, usedBytes_nil, usedBytes_cons] at hlen
          omega
  | cons r rs ih =>
      intro rs' h
      cases rs' with
      | nil =>
          have hlen := congrArg List.length h
          have hsize : r.size = 3 + r.text.length := rfl
          simp only [length_encodeRecords, usedBytes_nil, usedBytes_cons] at hlen
          omega
      | cons r' rs' =>
          rw [encodeRecords_cons, encodeRecords_cons] at h
          obtain ⟨rfl, hrest⟩ := LogRecord.bytes_append_inj h
          rw [ih hrest]

theorem length_le_usedBytes (rs : List LogRecord) : rs.length ≤ usedBytes rs := by
  induction rs with
  | nil => exact Nat.le_refl 0
  | cons r rs ih =>
      have hsize : r.size = 3 + r.text.length := rfl
      rw [List.length_cons, usedBytes_cons]
      omega

namespace Klog

variable {k : Klog} {r : LogRecord} {rs : List LogRecord}

theorem Bytes.readHdr (h : k.Bytes (encodeRecords (r :: rs))) : k.readHdr = some r.hdr := by
  rw [encodeRecords_cons, LogRecord.bytes, List.append_assoc] at h
  have hcopy := h.rbCopyOut
  rw [KlogHdr.length_bytes] at hcopy
  rw [Klog.readHdr, hcopy, Option.map_some, KlogHdr.ofBytes_bytes]

/-- After the header comes the text. -/
theorem Bytes.skipHdr (h : k.Bytes (encodeRecords (r :: rs))) :
    (k.advanceTail klogHdrSize).Bytes (r.text ++ encodeRecords rs) := by
  rw [encodeRecords_cons, LogRecord.bytes, List.append_assoc] at h
  exact h.advanceTail

theorem Bytes.dropRecord (h : k.Bytes (encodeRecords (r :: rs))) :
    (k.advanceTail (klogHdrSize + r.hdr.len.toNat)).Bytes (encodeRecords rs) := by
  rw [encodeRecords_cons] at h
  have hdrop := h.advanceTail
  rwa [LogRecord.length_bytes, LogRecord.size, ← LogRecord.hdr_len] at hdrop

theorem rbDropOldest_of_le {steps need : Nat} (h : ¬ k.rbSpace < need) :
    rbDropOldest steps need k = some k := by
  cases steps <;> exact if_neg h

/-- **The loop ends, with the fewest records dropped.** The induction is on the records, of which each
step drops one; no record is left before the steps run out. -/
theorem Bytes.rbDropOldest (h : k.Bytes (encodeRecords rs)) (need : Nat) {steps : Nat}
    (hneed : need ≤ klogCapacity) (hsteps : rs.length ≤ steps) :
    ∃ k', rbDropOldest steps need k = some k' ∧ k'.Bytes (encodeRecords (makeRoom need rs)) ∧
      k'.settings = k.settings := by
  have hspace := h.rbSpace
  have hfits := h.fits
  rw [length_encodeRecords] at hspace hfits
  induction rs generalizing k steps with
  | nil =>
      rw [usedBytes_nil] at hspace
      exact ⟨k, rbDropOldest_of_le (by omega), h, rfl⟩
  | cons r rs ih =>
      have hring : klogRingSize = klogCapacity + 1 := rfl
      by_cases hroom : usedBytes (r :: rs) + need ≤ klogCapacity
      · rw [makeRoom, if_pos hroom]
        exact ⟨k, rbDropOldest_of_le (by omega), h, rfl⟩
      · obtain ⟨steps, rfl⟩ : ∃ n, steps = n + 1 :=
          Nat.exists_eq_succ_of_ne_zero (by rw [List.length_cons] at hsteps; omega)
        have hrest := h.dropRecord
        have hspace' := hrest.rbSpace
        have hfits' := hrest.fits
        rw [length_encodeRecords] at hspace' hfits'
        have hsteps' : rs.length ≤ steps := Nat.le_of_succ_le_succ hsteps
        obtain ⟨k', heq, hbytes, hset⟩ := ih hrest hsteps' hspace' hfits'
        refine ⟨k', ?_, ?_, hset⟩
        · rw [Klog.rbDropOldest, if_pos (by omega), h.readHdr, Option.bind_some]
          exact heq
        · rw [makeRoom, if_neg hroom]
          exact hbytes

/-- The ring holds the records of the queue. -/
structure Holds (k : Klog) (q : LogFifo) : Prop where
  bytes : k.Bytes (encodeRecords q.records)
  settings : k.settings = (q.level, q.consoleLevel, q.consoleSink, true)

/-! ## One call -/

section Call

variable {k : Klog} {q : LogFifo}

/-- The records can be read off the ring. -/
theorem Holds.records_eq {q' : LogFifo} (h : k.Holds q) (h' : k.Holds q') : q.records = q'.records :=
  encodeRecords_injective (h.bytes.unique h'.bytes)

theorem Holds.level (h : k.Holds q) : k.level = q.level := (Prod.mk.inj h.settings).1

theorem Holds.consoleLevel (h : k.Holds q) : k.consoleLevel = q.consoleLevel :=
  (Prod.mk.inj (Prod.mk.inj h.settings).2).1

theorem Holds.consoleSink (h : k.Holds q) : k.consoleSink = q.consoleSink :=
  (Prod.mk.inj (Prod.mk.inj (Prod.mk.inj h.settings).2).2).1

theorem Holds.inited (h : k.Holds q) : k.inited = true :=
  (Prod.mk.inj (Prod.mk.inj (Prod.mk.inj h.settings).2).2).2

/-- Below 2 GiB the counter of `log_write_str` is right. -/
theorem storedLen_of_short {msg : List Byte} (h : msg.length < 2 ^ 31) :
    storedLen msg = BitVec.ofNat 32 (min 4092 msg.length) := by
  have hint : (BitVec.ofNat 32 msg.length).toInt = msg.length := by
    rw [BitVec.toInt_eq_toNat_of_lt, BitVec.toNat_ofNat]
    · omega
    · rw [BitVec.toNat_ofNat]
      omega
  have hmax : maxPayload.toInt = 4092 := by decide
  simp only [storedLen, hint, hmax]
  split
  · rw [Nat.min_eq_left (by omega)]
    rfl
  · rw [Nat.min_eq_right (by omega)]

/-- `log_write_str` appends the record, after room has been made for it. The length counted need not be
that of the message. -/
theorem Holds.store (h : k.Holds q) {level : BitVec 32} {msg : List Byte} {r : LogRecord}
    (hlevel : ¬ level.toInt > q.level.toInt) (hlen : storedLen msg = BitVec.ofNat 32 r.text.length)
    (htext : msg.take r.text.length = r.text) (hrlevel : level.setWidth 8 = r.level) :
    ∃ k', k.logWriteStr level (some msg)
        = some (⟨r.text.length, [], none, consoleOutput q.consoleSink q.consoleLevel level msg⟩, k') ∧
      k'.Holds { q with records := makeRoom r.size q.records ++ [r] } := by
  have hshort := r.short
  have hsize : r.size = 3 + r.text.length := rfl
  have hnat : (BitVec.ofNat 32 r.text.length).toNat = r.text.length := by
    rw [BitVec.toNat_ofNat]
    omega
  have hint : (BitVec.ofNat 32 r.text.length).toInt = r.text.length := by
    rw [BitVec.toInt_eq_toNat_of_lt (by omega), hnat]
  have hneed : (BitVec.ofNat 32 klogHdrSize + BitVec.ofNat 32 r.text.length).toNat = r.size := by
    rw [BitVec.toNat_add, hnat, BitVec.toNat_ofNat, hsize, klogHdrSize]
    omega
  have hhdr : (⟨level.setWidth 8, (BitVec.ofNat 32 r.text.length).setWidth 16⟩ : KlogHdr)
      = r.hdr := by
    rw [LogRecord.hdr, BitVec.setWidth_ofNat_of_le (by decide), hrlevel]
  -- the loop is entered or not, with the same result
  have hcapacity : klogCapacity = 4095 := rfl
  have hsteps : q.records.length ≤ klogSteps := by
    have hfits := h.bytes.fits
    have hle := length_le_usedBytes q.records
    rw [length_encodeRecords, klogRingSize] at hfits
    rw [klogSteps]
    omega
  obtain ⟨k₁, hloop, hbytes₁, hset₁⟩ := h.bytes.rbDropOldest r.size (by omega) hsteps
  have hbranch : (if k.rbSpace < r.size then k.rbDropOldest klogSteps r.size else some k)
      = some k₁ := by
    split
    · exact hloop
    · rename_i hle
      rw [← hloop, rbDropOldest_of_le hle]
  obtain ⟨n, hdrop, hroom, -⟩ := makeRoom_fewest (show r.size ≤ klogCapacity by omega) q.records
  rw [← hdrop] at hroom
  have hring : klogRingSize = 4096 := rfl
  obtain ⟨k₂, happend₂, hbytes₂, hset₂⟩ := hbytes₁.append r.hdr.bytes (by
    rw [length_encodeRecords, KlogHdr.length_bytes, klogHdrSize]
    omega)
  obtain ⟨k₃, happend₃, hbytes₃, hset₃⟩ := hbytes₂.append r.text (by
    rw [List.length_append, length_encodeRecords, KlogHdr.length_bytes, klogHdrSize]
    omega)
  refine ⟨k₃, ?_, ?_, ?_⟩
  · unfold Klog.logWriteStr
    simp only [h.level, h.consoleLevel, h.consoleSink, h.inited, Bool.true_eq_false, if_false,
      if_neg hlevel]
    rw [hlen, hneed, hnat, hint, htext, hhdr, hbranch, Option.bind_some, happend₂, Option.bind_some,
      happend₃, Option.map_some]
  · show k₃.Bytes (encodeRecords (makeRoom r.size q.records ++ [r]))
    rw [encodeRecords_append, encodeRecords_cons, LogRecord.bytes, ← List.append_assoc,
      ← List.append_assoc]
    simpa [encodeRecords] using hbytes₃
  · exact (hset₃.trans (hset₂.trans hset₁)).trans h.settings

/-- A write of less important a level than the log keeps leaves the log as it is. -/
theorem Holds.logWriteStr_filtered (h : k.Holds q) {level : BitVec 32} {msg : List Byte}
    (hlevel : level.toInt > q.level.toInt) : k.logWriteStr level (some msg)
      = some (.zero (consoleOutput q.consoleSink q.consoleLevel level msg), k) := by
  unfold Klog.logWriteStr
  simp only [h.level, h.consoleLevel, h.consoleSink, h.inited, Bool.true_eq_false, if_false,
    if_pos hlevel]

theorem Holds.logWriteStr (h : k.Holds q) (level : BitVec 32) {msg : Option (List Byte)}
    (hmsg : ∀ text, msg = some text → text.length < 2 ^ 31) :
    ∃ k', k.logWriteStr level msg = some ((q.write level msg).1, k') ∧
      k'.Holds (q.write level msg).2 := by
  cases msg with
  | none => exact ⟨k, rfl, h⟩
  | some msg =>
      unfold LogFifo.write
      dsimp only
      split
      · rename_i hlevel
        exact ⟨k, h.logWriteStr_filtered hlevel, h⟩
      · rename_i hlevel
        have hlength : (LogRecord.ofMessage level msg).text.length = min 4092 msg.length :=
          List.length_take
        refine h.store hlevel ?_ ?_ rfl
        · rw [storedLen_of_short (hmsg msg rfl), hlength]
        · rw [hlength, LogRecord.ofMessage, List.take_eq_take_iff]
          omega

/-- `log_read` takes the oldest record. -/
theorem Holds.logRead (h : k.Holds q) (outBuf : Bool) (outBufLen : BitVec 32) (outLevel : Bool) :
    ∃ k', k.logRead outBuf outBufLen outLevel = some ((q.read outBuf outBufLen outLevel).1, k') ∧
      k'.Holds (q.read outBuf outBufLen outLevel).2 := by
  have hbytes := h.bytes
  unfold Klog.logRead LogFifo.read
  rw [h.inited]
  split
  · exact ⟨k, rfl, h⟩
  · rw [if_neg (by decide)]
    obtain ⟨records, level, consoleLevel, consoleSink⟩ := q
    cases records with
    | nil =>
        rw [if_pos (hbytes.head_eq_tail_iff.mpr rfl)]
        exact ⟨k, rfl, h⟩
    | cons r rs =>
        have hne : encodeRecords (r :: rs) ≠ [] := by
          intro hnil
          have hlen := length_encodeRecords (r :: rs)
          rw [hnil, usedBytes_cons, LogRecord.size, klogHdrSize, List.length_nil] at hlen
          omega
        rw [if_neg (fun heq => hne (hbytes.head_eq_tail_iff.mp heq)), hbytes.readHdr, Option.bind_some]
        have hmin : (if r.hdr.len.toNat > outBufLen.toNat - 1 then outBufLen.toNat - 1
            else r.hdr.len.toNat) = min r.text.length (outBufLen.toNat - 1) := by
          rw [LogRecord.hdr_len]
          split <;> omega
        have htext := hbytes.skipHdr
        have hcopy := htext.readText (n := min r.text.length (outBufLen.toNat - 1)) (by
          rw [List.length_append]
          omega)
        rw [List.take_append_of_le_length (Nat.min_le_left _ _)] at hcopy
        simp only [hmin, hcopy, Option.map_some]
        refine ⟨_, rfl, ?_, h.settings⟩
        rw [LogRecord.hdr_len]
        exact htext.advanceTail

end Call

end Klog

/-- The message of the call, if there is one, is shorter than 2 GiB. -/
def LogOp.Short : LogOp → Prop
  | .write _ (some msg) => msg.length < 2 ^ 31
  | _ => True

namespace Klog

variable {k : Klog} {q : LogFifo}

theorem Holds.call (h : k.Holds q) {op : LogOp} (hshort : op.Short) :
    ∃ k', k.call op = some ((q.call op).1, k') ∧ k'.Holds (q.call op).2 := by
  cases op with
  | write level msg =>
      refine h.logWriteStr level fun text htext => ?_
      rw [htext] at hshort
      exact hshort
  | read outBuf outBufLen outLevel => exact h.logRead outBuf outBufLen outLevel
  | setLevel level =>
      refine ⟨_, rfl, ⟨h.bytes.fits, h.bytes.head, h.bytes.slice⟩, ?_⟩
      show (level, k.consoleLevel, k.consoleSink, k.inited) = (level, q.consoleLevel, q.consoleSink, true)
      rw [h.consoleLevel, h.consoleSink, h.inited]
  | getLevel => exact ⟨k, by rw [Klog.call, LogFifo.call, h.level], h⟩
  | setConsoleSink sink =>
      refine ⟨_, rfl, ⟨h.bytes.fits, h.bytes.head, h.bytes.slice⟩, ?_⟩
      show (k.level, k.consoleLevel, sink, k.inited) = (q.level, q.consoleLevel, sink, true)
      rw [h.level, h.consoleLevel, h.inited]
  | setConsoleLevel level =>
      refine ⟨_, rfl, ⟨h.bytes.fits, h.bytes.head, h.bytes.slice⟩, ?_⟩
      show (k.level, level, k.consoleSink, k.inited) = (q.level, level, q.consoleSink, true)
      rw [h.level, h.consoleSink, h.inited]
  | getConsoleLevel => exact ⟨k, by rw [Klog.call, LogFifo.call, h.consoleLevel], h⟩

theorem holds_logInit (k : Klog) : k.logInit.Holds .init := ⟨bytes_logInit k, rfl⟩

/-- **The log is a queue of records**: every run of calls after `log_init` with messages below 2 GiB has
a result, gives the answers of the queue and ends with its records in the ring. -/
theorem log_refines_fifo (k : Klog) {ops : List LogOp} (hshort : ∀ op ∈ ops, op.Short) :
    ∃ k', Machine.runOption Klog.call k.logInit ops
        = some ((Machine.run LogFifo.call .init ops).1, k') ∧
      k'.Holds (Machine.run LogFifo.call .init ops).2 := by
  have hallowed : ∀ q, Machine.Allowed LogFifo.call (fun _ op => op.Short) q ops := by
    induction ops with
    | nil => exact fun _ => trivial
    | cons op ops ih =>
        intro q
        exact ⟨hshort op List.mem_cons_self, ih (fun o ho => hshort o (List.mem_cons_of_mem _ ho)) _⟩
  exact Machine.runOption_of_simulates (fun k q op h hop => h.call hop) (holds_logInit k)
    (hallowed .init)

/-- Write a message, read it back with room for two bytes, and read again. -/
theorem log_refines_fifo_sample :
    ∃ k', Machine.runOption Klog.call Klog.static.logInit
        [.write 3 (some [0x68, 0x69, 0x21]), .read true 3 true, .read true 3 true]
      = some ([⟨3, [], none, [0x3C, 0x33, 0x3E, 0x68, 0x69, 0x21]⟩,
          ⟨2, [0x68, 0x69, 0], some 3, []⟩, .zero []], k') ∧ k'.Holds .init := by
  have hshort : ∀ op ∈ ([.write 3 (some [0x68, 0x69, 0x21]), .read true 3 true,
      .read true 3 true] : List LogOp), op.Short := by
    simp [LogOp.Short]
  exact log_refines_fifo .static hshort

/-! ## Messages of 2 GiB and more -/

/-- The loop cannot make room for more bytes than the ring has. -/
theorem rbDropOldest_none {need : Nat} (hneed : klogCapacity < need) (steps : Nat) (k : Klog) :
    rbDropOldest steps need k = none := by
  have hspace : ∀ k : Klog, k.rbSpace < need := by
    intro k
    have hhead := k.head_lt
    have htail := k.tail_lt
    unfold Klog.rbSpace
    simp only [klogRingSize, klogCapacity] at *
    split <;> omega
  induction steps generalizing k with
  | zero => exact if_pos (hspace k)
  | succ steps ih =>
      rw [rbDropOldest, if_pos (hspace k)]
      cases k.readHdr with
      | none => rfl
      | some hdr => exact ih _

/-- For a message of exactly 2 GiB the counter is negative, and `need` more than the ring has. -/
theorem logWriteStr_huge {k : Klog} (hinited : k.inited = true) {level : BitVec 32}
    (hlevel : ¬ level.toInt > k.level.toInt) {msg : List Byte} (hmsg : msg.length = 2 ^ 31) :
    k.logWriteStr level (some msg) = none := by
  have hlen : storedLen msg = 0x80000000 := by
    rw [storedLen, hmsg]
    decide
  have hneed : (BitVec.ofNat 32 klogHdrSize + (0x80000000 : BitVec 32)).toNat = 0x80000003 := by decide
  have hspace : k.rbSpace < 0x80000003 := by
    by_contra hle
    have hsome : rbDropOldest 0 0x80000003 k = some k := rbDropOldest_of_le hle
    rw [rbDropOldest_none (by decide)] at hsome
    exact absurd hsome (by simp)
  simp only [Klog.logWriteStr, hinited, Bool.true_eq_false, if_false, if_neg hlevel, hlen, hneed,
    if_pos hspace, rbDropOldest_none (show klogCapacity < 0x80000003 by decide), Option.bind_none]

/-- The first call after `log_init`, with a message of 2 GiB: `rb_drop_oldest` never returns. -/
theorem log_write_str_hangs :
    Klog.static.logInit.call (.write 0 (some (List.replicate (2 ^ 31) 0x41))) = none ∧
      ∀ steps, rbDropOldest steps 0x80000003 Klog.static.logInit = none := by
  have hhuge : ∀ msg : List Byte, msg.length = 2 ^ 31 →
      Klog.static.logInit.call (.write 0 (some msg)) = none := by
    intro msg hmsg
    have hlevel : ¬ (0 : BitVec 32).toInt > Klog.static.logInit.level.toInt := by decide
    exact logWriteStr_huge rfl hlevel hmsg
  exact ⟨hhuge _ List.length_replicate, fun steps => rbDropOldest_none (by decide) steps _⟩

end Klog

end Arcline
