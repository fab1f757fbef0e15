import Mathlib.Data.List.TakeWhile
import Arcline.Kernel.LogFifo

set_option autoImplicit false

/-! # Draining the log

A reader calls `log_read` until it returns 0, which its header promises for "none available". The return
value is the length of the text, though, and `log_write_str` stores an empty message as a record like any
other: the reader then stops at that record, with it consumed and the records after it still in the ring.
-/

namespace Arcline

/-- What `log_read` with a large buffer answers for a record. -/
def LogRecord.deliver (outLevel : Bool) (r : LogRecord) : LogAnswer :=
  ⟨r.text.length, r.text ++ [0], if outLevel then some r.level else none, []⟩

namespace Klog

/-- Call `log_read` until it returns 0: the answers before that call, and the log before and after it. -/
def drain (outBufLen : BitVec 32) (outLevel : Bool) :
    Nat → Klog → Option (List LogAnswer × Klog × Klog)
  | 0, _ => none
  | fuel + 1, k =>
      (k.logRead true outBufLen outLevel).bind fun (answer, k') =>
        if answer.ret = 0 then some ([], k, k')
        else (drain outBufLen outLevel fuel k').map fun (answers, last) => (answer :: answers, last)

variable {k k' : Klog} {q : LogFifo}

/-! ## Every log that a run reaches holds some records -/

/-- A negative length is no length of a copy: the loop that makes room does not end, or the copy runs over
the end of the ring. -/
theorem logWriteStr_of_negative (hinited : k.inited = true) {level : BitVec 32} {msg : List Byte}
    (hlevel : ¬ level.toInt > k.level.toInt) (hneg : (storedLen msg).toInt < 0) :
    k.logWriteStr level (some msg) = none := by
  have hlen : storedLen msg = BitVec.ofNat 32 msg.length := by
    have hmax : ¬ maxPayload.toInt < 0 := by decide
    unfold storedLen at hneg ⊢
    dsimp only at hneg ⊢
    split at hneg
    · exact absurd hneg hmax
    · rename_i hle
      rw [if_neg hle]
  have hlarge : 2 ^ 31 ≤ (storedLen msg).toNat := by
    by_contra hsmall
    rw [BitVec.toInt_eq_toNat_of_lt (by omega)] at hneg
    omega
  have htake : (msg.take (storedLen msg).toNat).length = (storedLen msg).toNat := by
    rw [List.length_take, hlen, BitVec.toNat_ofNat]
    exact Nat.min_eq_left (Nat.mod_le _ _)
  -- the text alone is longer than the ring
  have hcopy : ∀ k' : Klog, k'.append (msg.take (storedLen msg).toNat) = none := by
    intro k'
    have hring : klogRingSize = 4096 := rfl
    have hout : ∀ ring, Circular.copyIn klogRingSize ring 0
        ((msg.take (storedLen msg).toNat).drop (klogRingSize - k'.head)) = none := by
      intro ring
      refine if_neg ?_
      rw [List.length_drop, htake]
      omega
    have hnone : rbCopyIn k'.ring k'.head (msg.take (storedLen msg).toNat) = none := by
      rw [rbCopyIn, if_neg (by omega)]
      simp only [hout, Option.bind_fun_none]
    rw [append, hnone, Option.map_none]
  simp only [Klog.logWriteStr, hinited, Bool.true_eq_false, if_false, if_neg hlevel, hcopy,
    Option.map_none, Option.bind_fun_none]

/-- A length that is not negative is at most 4092, and at most that of the message. -/
theorem storedLen_cases (msg : List Byte) : (storedLen msg).toInt < 0 ∨
    ∃ n ≤ 4092, n ≤ msg.length ∧ storedLen msg = BitVec.ofNat 32 n := by
  have hmax : maxPayload.toInt = 4092 := by decide
  have hlen : (BitVec.ofNat 32 msg.length).toNat ≤ msg.length := by
    rw [BitVec.toNat_ofNat]
    exact Nat.mod_le _ _
  by_cases hneg : (storedLen msg).toInt < 0
  · exact .inl hneg
  · refine .inr ?_
    unfold storedLen at hneg ⊢
    dsimp only at hneg ⊢
    rw [hmax] at hneg ⊢
    split
    · rename_i hgt
      have hle : (BitVec.ofNat 32 msg.length).toInt ≤ (BitVec.ofNat 32 msg.length).toNat := by
        rw [BitVec.toInt_eq_toNat_cond]
        split <;> omega
      exact ⟨4092, Nat.le_refl _, by omega, rfl⟩
    · rename_i hle
      rw [if_neg hle, BitVec.toInt_eq_toNat_cond] at hneg
      rw [BitVec.toInt_eq_toNat_cond] at hle
      refine ⟨(BitVec.ofNat 32 msg.length).toNat, ?_, hlen, BitVec.eq_of_toNat_eq ?_⟩
      · split at hneg <;> split at hle <;> omega
      · rw [BitVec.toNat_ofNat, BitVec.toNat_ofNat, Nat.mod_mod]

/-- A call that returns leaves the ring with records in it, whatever the message. -/
theorem Holds.exists_of_call (h : k.Holds q) {op : LogOp} {answer : LogAnswer}
    (hcall : k.call op = some (answer, k')) : ∃ q', k'.Holds q' := by
  have hshort : op.Short → ∃ q', k'.Holds q' := by
    intro hop
    obtain ⟨k₁, heq, hholds⟩ := h.call hop
    rw [hcall] at heq
    exact ⟨_, (Prod.mk.inj (Option.some.inj heq)).2 ▸ hholds⟩
  cases op with
  | write level msg =>
      cases msg with
      | none => exact hshort trivial
      | some msg =>
          rw [Klog.call] at hcall
          by_cases hlevel : level.toInt > q.level.toInt
          · rw [h.logWriteStr_filtered hlevel] at hcall
            exact ⟨q, (Prod.mk.inj (Option.some.inj hcall)).2 ▸ h⟩
          · rcases storedLen_cases msg with hneg | ⟨n, hn, hle, hlen⟩
            · rw [logWriteStr_of_negative h.inited (h.level ▸ hlevel) hneg] at hcall
              exact absurd hcall (by simp)
            · have hlength : (msg.take n).length = n := by
                rw [List.length_take]
                exact Nat.min_eq_left hle
              let r : LogRecord := ⟨level.setWidth 8, msg.take n, by rw [hlength]; exact hn⟩
              obtain ⟨k₁, heq, hholds⟩ := h.store (r := r) hlevel
                (by rw [hlen]; exact congrArg (BitVec.ofNat 32) hlength.symm)
                (by show msg.take (msg.take n).length = msg.take n; rw [hlength]) rfl
              rw [hcall] at heq
              exact ⟨_, (Prod.mk.inj (Option.some.inj heq)).2 ▸ hholds⟩
  | read | setLevel | getLevel | setConsoleSink | setConsoleLevel | getConsoleLevel =>
      exact hshort trivial

theorem Holds.exists_of_run (h : k.Holds q) {ops : List LogOp} {answers : List LogAnswer}
    (hrun : Machine.runOption Klog.call k ops = some (answers, k')) : ∃ q', k'.Holds q' := by
  induction ops generalizing k q answers with
  | nil => exact ⟨q, (Prod.mk.inj (Option.some.inj hrun)).2 ▸ h⟩
  | cons op ops ih =>
      rw [Machine.runOption] at hrun
      obtain ⟨⟨answer, k₁⟩, hcall, hrest⟩ := Option.bind_eq_some_iff.mp hrun
      obtain ⟨⟨answers', k₂⟩, hrun', heq⟩ := Option.map_eq_some_iff.mp hrest
      obtain ⟨-, rfl⟩ := Prod.mk.inj heq
      obtain ⟨q₁, h₁⟩ := h.exists_of_call hcall
      exact ih h₁ hrun'

/-! ## The reader's loop -/

section Drain

variable {outBufLen : BitVec 32} (outLevel : Bool)

/-- With room for every text, `log_read` delivers the whole oldest record. -/
theorem Holds.logRead_cons (h : k.Holds q) (hroom : 4093 ≤ outBufLen.toInt) {r : LogRecord}
    {rs : List LogRecord} (hq : q.records = r :: rs) :
    ∃ k', k.logRead true outBufLen outLevel = some (r.deliver outLevel, k') ∧
      k'.Holds { q with records := rs } := by
  have hnat : outBufLen.toInt ≤ outBufLen.toNat := by
    rw [BitVec.toInt_eq_toNat_cond]
    split <;> omega
  have hshort := r.short
  have hmin : min r.text.length (outBufLen.toNat - 1) = r.text.length := by omega
  have hread : q.read true outBufLen outLevel = (r.deliver outLevel, { q with records := rs }) := by
    unfold LogFifo.read
    rw [if_neg (by simp; omega), hq]
    dsimp only
    rw [hmin, List.take_length]
    rfl
  have hholds := h.logRead true outBufLen outLevel
  rwa [hread] at hholds

theorem Holds.logRead_nil (h : k.Holds q) (hq : q.records = []) :
    k.logRead true outBufLen outLevel = some (.zero [], k) := by
  have hempty : k.head = k.tail := h.bytes.head_eq_tail_iff.mpr (by rw [hq]; rfl)
  unfold Klog.logRead
  rw [h.inited, if_pos hempty, if_neg (show ¬ true = false by decide), ite_self]

/-- **The loop stops at the first empty record**, if there is one. The induction is on the records, of
which each call takes one. -/
theorem Holds.drain (h : k.Holds q) (hroom : 4093 ≤ outBufLen.toInt) {fuel : Nat}
    (hfuel : q.records.length < fuel) :
    ∃ k₁ k₂, k.drain outBufLen outLevel fuel
        = some ((q.records.takeWhile (·.text ≠ [])).map (LogRecord.deliver outLevel), k₁, k₂) ∧
      (q.records.dropWhile (·.text ≠ []) = [] → k₁.head = k₁.tail ∧ k₂ = k₁) := by
  obtain ⟨records, level, consoleLevel, consoleSink⟩ := q
  induction records generalizing k fuel with
  | nil =>
      cases fuel with
      | zero => exact absurd hfuel (Nat.not_lt_zero _)
      | succ fuel =>
          refine ⟨k, k, ?_, fun _ => ⟨h.bytes.head_eq_tail_iff.mpr rfl, rfl⟩⟩
          rw [Klog.drain, h.logRead_nil outLevel rfl, Option.bind_some]
          rfl
  | cons r rs ih =>
      cases fuel with
      | zero => exact absurd hfuel (Nat.not_lt_zero _)
      | succ fuel =>
          obtain ⟨k', hread, h'⟩ := h.logRead_cons outLevel hroom rfl
          rw [Klog.drain, hread, Option.bind_some]
          by_cases hempty : r.text = []
          · -- its answer is the one that stands for an empty ring
            refine ⟨k, k', ?_, ?_⟩
            · simp [LogRecord.deliver, hempty]
            · simp [hempty]
          · obtain ⟨k₁, k₂, hdrain, hlast⟩ := ih h' (Nat.lt_of_succ_lt_succ hfuel)
            have hret : (r.deliver outLevel).ret ≠ 0 := by
              show (r.text.length : Int) ≠ 0
              have hpos := List.length_pos_iff.mpr hempty
              omega
            refine ⟨k₁, k₂, ?_, ?_⟩
            · dsimp only at hdrain ⊢
              rw [if_neg hret, hdrain, Option.map_some, List.takeWhile_cons_of_pos (by simpa using hempty),
                List.map_cons]
            · dsimp only at hlast ⊢
              rw [List.dropWhile_cons_of_pos (by simpa using hempty)]
              exact hlast

end Drain

/-- **A drain delivers all records and leaves the ring empty, exactly if none of them is empty.** The log
is that of any run of calls after `log_init` that all return; the records are those in its ring. -/
theorem log_drain_iff {ops : List LogOp} {answers : List LogAnswer}
    (hrun : Machine.runOption Klog.call k.logInit ops = some (answers, k')) :
    ∃ q, k'.Holds q ∧ ∀ outBufLen : BitVec 32, 4093 ≤ outBufLen.toInt → ∀ outLevel fuel,
      q.records.length < fuel →
      ((∃ k₁, k'.drain outBufLen outLevel fuel
          = some (q.records.map (LogRecord.deliver outLevel), k₁, k₁) ∧ k₁.head = k₁.tail) ↔
        ∀ r ∈ q.records, r.text ≠ []) := by
  obtain ⟨q, hq⟩ := (holds_logInit k).exists_of_run hrun
  refine ⟨q, hq, fun outBufLen hroom outLevel fuel hfuel => ?_⟩
  obtain ⟨k₁, k₂, hdrain, hlast⟩ := hq.drain outLevel hroom hfuel
  constructor
  · rintro ⟨k₃, hall, -⟩
    rw [hdrain] at hall
    -- as many answers as records
    have hlen := congrArg List.length (Prod.mk.inj (Option.some.inj hall)).1
    rw [List.length_map, List.length_map] at hlen
    have hself := (List.takeWhile_prefix (p := fun r : LogRecord => decide (r.text ≠ []))
      (l := q.records)).eq_of_length hlen
    intro r hr
    rw [← hself] at hr
    simpa using List.mem_takeWhile_imp hr
  · intro hne
    have htake : q.records.takeWhile (·.text ≠ []) = q.records :=
      List.takeWhile_eq_self_iff.mpr fun r hr => by simpa using hne r hr
    have hdrop : q.records.dropWhile (·.text ≠ []) = [] :=
      List.dropWhile_eq_nil_iff.mpr fun r hr => by simpa using hne r hr
    obtain ⟨hempty, rfl⟩ := hlast hdrop
    rw [htake] at hdrain
    exact ⟨_, hdrain, hempty⟩

/-- Two messages of one byte: both are delivered, in their order. -/
theorem log_drain_two : ∃ answers k' k₁, Machine.runOption Klog.call Klog.static.logInit
      [.write 6 (some [0x61]), .write 3 (some [0x62])] = some (answers, k') ∧
    k'.drain 4093 true 3 = some ([⟨1, [0x61, 0], some 6, []⟩, ⟨1, [0x62, 0], some 3, []⟩], k₁, k₁) ∧
    k₁.head = k₁.tail := by
  have hshort : ∀ level c, (LogOp.write level (some [c])).Short := by simp [LogOp.Short]
  obtain ⟨k₀, hfirst, h₀⟩ := (holds_logInit Klog.static).call (hshort 6 0x61)
  obtain ⟨k', hsecond, h'⟩ := h₀.call (hshort 3 0x62)
  have hlast : (Machine.runOption Klog.call Klog.static.logInit
      [.write 6 (some [0x61]), .write 3 (some [0x62])]).map Prod.snd = some k' := by
    rw [Machine.runOption, hfirst, Option.bind_some, Machine.runOption, hsecond]
    rfl
  obtain ⟨⟨answers, _⟩, hrun, rfl⟩ := Option.map_eq_some_iff.mp hlast
  obtain ⟨q, hq, hdrain⟩ := log_drain_iff hrun
  have hrecords := hq.records_eq h'
  obtain ⟨k₁, hall, hempty⟩ := (hdrain 4093 (by decide) true 3 (by rw [hrecords]; decide)).mpr (by
    rw [hrecords]
    decide)
  rw [hrecords] at hall
  exact ⟨answers, _, k₁, hrun, hall, hempty⟩

/-- An empty message and one of one byte: the first `log_read` returns 0, with the empty record taken out
of the ring and the other one still in it. -/
theorem log_drain_stops_early :
    ((Machine.runOption Klog.call Klog.static.logInit
        [.write 6 (some []), .write 6 (some [0x61])]).bind fun run =>
      (run.2.drain 4093 true 10).map fun d =>
        (d.1, (d.2.1.tail, d.2.1.head), (d.2.2.tail, d.2.2.head))) = some ([], (0, 7), (3, 7)) := by
  decide +kernel

end Klog

end Arcline
