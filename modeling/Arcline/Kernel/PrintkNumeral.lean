import Arcline.Kernel.Printk

set_option autoImplicit false

/-! # The numerals that `do_printf` prints

Each of `%d`, `%u`, `%lld`, `%llu`, `%x` and `%p` prints the canonical numeral of its argument, with two
exceptions: the least `int` and the least `int64_t` have no negation, stay negative, and are printed as a
sign without digits. No digit array is left.
-/

namespace Arcline

/-! ## What is to be printed -/

/-- A digit, with the lower-case letters for those from 10 on. -/
def digitChar (d : Nat) : Byte := BitVec.ofNat 8 (if d < 10 then 48 + d else 87 + d)

/-- The digit that a character stands for. -/
def digitVal (c : Byte) : Option Nat :=
  if 48 ≤ c.toNat ∧ c.toNat < 58 then some (c.toNat - 48)
  else if 97 ≤ c.toNat ∧ c.toNat < 123 then some (c.toNat - 87)
  else none

theorem digitVal_digitChar {d : Nat} (h : d < 36) : digitVal (digitChar d) = some d := by
  unfold digitVal digitChar
  rw [BitVec.toNat_ofNat]
  split
  · rw [if_pos (by omega)]
    congr 1
    omega
  · rw [if_neg (by omega), if_pos (by omega)]
    congr 1
    omega

/-- The canonical numeral of a number, in characters. -/
def numeral (b n : Nat) : List Byte := (Numeral.ofNat b n).map digitChar

/-- Read a numeral in base `b`. -/
def readNumeral (b : Nat) (l : List Byte) : Option Nat :=
  (l.mapM digitVal).bind fun ds =>
    if ds ≠ [] ∧ ∀ d ∈ ds, d < b then some (Numeral.value b ds) else none

theorem mapM_digitVal {ds : List Nat} (h : ∀ d ∈ ds, d < 36) :
    (ds.map digitChar).mapM digitVal = some ds := by
  induction ds with
  | nil => rfl
  | cons d ds ih =>
      rw [List.map_cons, List.mapM_cons, digitVal_digitChar (h d List.mem_cons_self),
        ih fun e he => h e (List.mem_cons_of_mem _ he)]
      rfl

theorem readNumeral_map {b : Nat} {ds : List Nat} (hb : b ≤ 36) (h : Numeral.Canonical b ds) :
    readNumeral b (ds.map digitChar) = some (Numeral.value b ds) := by
  rw [readNumeral, mapM_digitVal fun d hd => Nat.lt_of_lt_of_le (h.lt d hd) hb, Option.bind_some,
    if_pos ⟨h.ne_nil, h.lt⟩]

/-- The conversions of numbers. -/
inductive NumConv
  | d | u | lld | llu | x | p
deriving DecidableEq, Repr

namespace NumConv

/-- The width of the argument. -/
def width : NumConv → Nat
  | .d | .u | .x => 32
  | .lld | .llu | .p => 64

def isSigned : NumConv → Bool
  | .d | .lld => true
  | .u | .llu | .x | .p => false

def base : NumConv → Nat
  | .d | .u | .lld | .llu => 10
  | .x | .p => 16

/-- What stands before the digits. -/
def lead : NumConv → List Byte
  | .p => [ascii '0', ascii 'x']
  | _ => []

/-- The letters after the `%`. -/
def letters : NumConv → List Byte
  | .d => [ascii 'd']
  | .u => [ascii 'u']
  | .lld => [ascii 'l', ascii 'l', ascii 'd']
  | .llu => [ascii 'l', ascii 'l', ascii 'u']
  | .x => [ascii 'x']
  | .p => [ascii 'p']

/-- The conversion in a format. -/
def spell (c : NumConv) : List Byte := ascii '%' :: c.letters

def arg : (c : NumConv) → BitVec c.width → VaArg
  | .d, v => .int v
  | .u, v => .int v
  | .x, v => .int v
  | .lld, v => .long v
  | .llu, v => .long v
  | .p, v => .pointer v

/-- The number that the argument is. -/
def value (c : NumConv) (v : BitVec c.width) : Int := if c.isSigned then v.toInt else v.toNat

/-- A minus sign for the negative numbers. -/
def sign (n : Int) : List Byte := if n < 0 then [ascii '-'] else []

/-- `l` is the canonical numeral of `n`: the sign, what stands before the digits, and digits without
leading zeros. -/
def IsNumeral (c : NumConv) (l : List Byte) (n : Int) : Prop :=
  ∃ ds, Numeral.Canonical c.base ds ∧ Numeral.value c.base ds = n.natAbs ∧
    l = sign n ++ c.lead ++ ds.map digitChar

/-- Read a numeral back. -/
def read (c : NumConv) (l : List Byte) : Option Int :=
  if l.head? = some (ascii '-') then
    (readNumeral c.base (l.tail.drop c.lead.length)).map fun n : Nat => -(n : Int)
  else (readNumeral c.base (l.drop c.lead.length)).map Int.ofNat

/-- The canonical numeral of the argument. -/
def text (c : NumConv) (v : BitVec c.width) : List Byte :=
  sign (c.value v) ++ c.lead ++ numeral c.base (c.value v).natAbs

theorem one_lt_base (c : NumConv) : 1 < c.base := by
  cases c <;> decide

theorem base_le (c : NumConv) : c.base ≤ 36 := by
  cases c <;> decide

theorem isNumeral_text (c : NumConv) (v : BitVec c.width) : c.IsNumeral (c.text v) (c.value v) :=
  ⟨_, Numeral.canonical_ofNat c.one_lt_base _, Numeral.value_ofNat _ _, rfl⟩

theorem digitChar_ne_minus {d : Nat} (h : d < 36) : digitChar d ≠ ascii '-' := by
  intro heq
  have hval := digitVal_digitChar h
  have hminus : digitVal (ascii '-') = none := by decide
  rw [heq, hminus] at hval
  exact absurd hval (by simp)

/-- Reading a canonical numeral gives the number. -/
theorem IsNumeral.read {c : NumConv} {l : List Byte} {n : Int} (h : c.IsNumeral l n) :
    c.read l = some n := by
  obtain ⟨ds, hcanonical, hvalue, rfl⟩ := h
  have hread := readNumeral_map c.base_le hcanonical
  rw [hvalue] at hread
  unfold NumConv.read sign
  by_cases hneg : n < 0
  · have hdigits : ([ascii '-'] ++ c.lead ++ ds.map digitChar).tail.drop c.lead.length
        = ds.map digitChar := by
      show (c.lead ++ ds.map digitChar).drop c.lead.length = ds.map digitChar
      rw [List.drop_left]
    have habs : -(n.natAbs : Int) = n := by omega
    rw [if_pos hneg, if_pos (by rfl), hdigits, hread, Option.map_some, habs]
  · have hhead : (c.lead ++ ds.map digitChar).head? ≠ some (ascii '-') := by
      obtain ⟨d, t, rfl⟩ := List.exists_cons_of_ne_nil hcanonical.ne_nil
      have hd := digitChar_ne_minus
        (Nat.lt_of_lt_of_le (hcanonical.lt d List.mem_cons_self) c.base_le)
      cases c with
      | p => exact show some (ascii '0') ≠ some (ascii '-') by decide
      | _ => simpa [lead] using hd
    rw [if_neg hneg, List.nil_append, if_neg hhead, List.drop_left, hread, Option.map_some]
    exact congrArg some (Int.natAbs_of_nonneg (by omega))

end NumConv

/-! ## The digit arrays -/

section DigitArray

variable {w b size : Nat} {pos : BitVec w → Bool} {digit : BitVec w → Byte} {next : BitVec w → BitVec w}
  (val : BitVec w → Nat)

theorem digitArray_eq (hb : 1 < b) (hpos : ∀ x, pos x = decide (0 < val x))
    (hdigit : ∀ x, 0 < val x → digit x = digitChar (val x % b))
    (hnext : ∀ x, 0 < val x → val (next x) = val x / b) {v : BitVec w} (hsize : 0 < size)
    (hlt : val v < b ^ size) : digitArray pos digit next size v
      = some (if v = 0 then [ascii '0'] else (Nat.digits b (val v)).reverse.map digitChar) := by
  unfold digitArray
  rw [if_pos hsize, Numeral.loop_eq hb hpos hdigit hnext hlt, List.append_nil]
  split <;> rfl

/-- The array of a positive number, or of 0, is its numeral. -/
theorem digits_eq_numeral {v : BitVec w} (h : v = 0 ↔ val v = 0) :
    (if v = 0 then [ascii '0'] else (Nat.digits b (val v)).reverse.map digitChar)
      = numeral b (val v) := by
  unfold numeral Numeral.ofNat
  by_cases hzero : v = 0
  · rw [if_pos hzero, if_pos (h.mp hzero)]
    rfl
  · rw [if_neg hzero, if_neg fun hval => hzero (h.mpr hval)]

theorem ten_toNat (hw : 5 ≤ w) : (10 : BitVec w).toNat = 10 := by
  have hpow : 2 ^ 5 ≤ 2 ^ w := Nat.pow_le_pow_right (by decide) hw
  exact Nat.mod_eq_of_lt (show 10 < 2 ^ w by omega)

theorem ascii_zero_add {x : BitVec w} (h : x.toNat < 10) :
    ascii '0' + x.setWidth 8 = digitChar x.toNat := by
  apply BitVec.eq_of_toNat_eq
  have hzero : (ascii '0').toNat = 48 := by decide
  rw [digitChar, if_pos h, BitVec.toNat_add, BitVec.toNat_setWidth, BitVec.toNat_ofNat, hzero]
  omega

theorem unsignedArray_eq (hw : 5 ≤ w) {v : BitVec w} (hsize : 0 < size) (hlt : v.toNat < 10 ^ size) :
    unsignedArray size v = some (numeral 10 v.toNat) := by
  have hten := ten_toNat hw
  have hzero : v = 0 ↔ v.toNat = 0 := by
    rw [BitVec.toNat_eq]
    rfl
  rw [← digits_eq_numeral BitVec.toNat hzero]
  refine digitArray_eq BitVec.toNat (by decide) (by intro x; rfl) ?_ ?_ hsize hlt
  · intro x _
    have hmod : (x % 10).toNat = x.toNat % 10 := by rw [BitVec.toNat_umod, hten]
    rw [ascii_zero_add (by omega), hmod]
  · intro x _
    rw [BitVec.toNat_udiv, hten]

theorem hexArray_eq (hw : 5 ≤ w) {v : BitVec w} (hsize : 0 < size) (hlt : v.toNat < 16 ^ size) :
    hexArray size v = some (numeral 16 v.toNat) := by
  have hzero : v = 0 ↔ v.toNat = 0 := by
    rw [BitVec.toNat_eq]
    rfl
  rw [← digits_eq_numeral BitVec.toNat hzero]
  refine digitArray_eq BitVec.toNat (by decide) (by intro x; rfl) ?_ ?_ hsize hlt
  · intro x _
    have hpow : 2 ^ 5 ≤ 2 ^ w := Nat.pow_le_pow_right (by decide) hw
    have hmask : (0xF : BitVec w).toNat = 2 ^ 4 - 1 :=
      Nat.mod_eq_of_lt (show 15 < 2 ^ w by omega)
    have hmod : ((x &&& 0xF).setWidth 8 : Byte).toNat = x.toNat % 16 := by
      rw [BitVec.toNat_setWidth, BitVec.toNat_and, hmask, Nat.and_two_pow_sub_one_eq_mod]
      omega
    apply BitVec.eq_of_toNat_eq
    have hzeroChar : (ascii '0').toNat = 48 := by decide
    have hletter : (ascii 'a').toNat = 97 := by decide
    unfold hexDigit digitChar
    simp only [BitVec.lt_def, hmod]
    have hten : (10 : Byte).toNat = 10 := rfl
    rw [hten]
    split
    · rw [BitVec.toNat_add, hmod, hzeroChar, BitVec.toNat_ofNat]
    · rw [BitVec.toNat_sub, BitVec.toNat_add, hmod, hletter, hten, BitVec.toNat_ofNat]
      omega
  · intro x _
    rw [BitVec.toNat_ushiftRight, Nat.shiftRight_eq_div_pow]

/-- The signed loop sees a negative number as one without digits. -/
theorem signedArray_eq (hw : 5 ≤ w) {v : BitVec w} (hsize : 0 < size)
    (hlt : v.toInt.toNat < 10 ^ size) : signedArray size v
      = some (if v = 0 then [ascii '0'] else (Nat.digits 10 v.toInt.toNat).reverse.map digitChar) := by
  have hten := ten_toNat hw
  have hmsb : (10 : BitVec w).msb = false := by
    have hpow : 2 ^ 5 ≤ 2 ^ w := Nat.pow_le_pow_right (by decide) hw
    rw [BitVec.msb_eq_false_iff_two_mul_lt, hten]
    omega
  -- where the loop goes on the sign bit is clear, and the operations are the unsigned ones
  have hclear : ∀ x : BitVec w, 0 < x.toInt.toNat → x.msb = false ∧ x.toInt.toNat = x.toNat := by
    intro x hx
    have hpos : x.msb = false := by
      by_contra hset
      rw [Bool.not_eq_false, BitVec.msb_eq_toInt] at hset
      have hneg := of_decide_eq_true hset
      omega
    rw [BitVec.toInt_eq_toNat_of_msb hpos]
    exact ⟨hpos, rfl⟩
  refine digitArray_eq (fun x => x.toInt.toNat) (by decide) ?_ ?_ ?_ hsize hlt
  · intro x
    have hzero : (0 : BitVec w).toInt = 0 := BitVec.toInt_zero
    rw [BitVec.slt_eq_decide, hzero, decide_eq_decide]
    omega
  · intro x hx
    obtain ⟨hpos, hval⟩ := hclear x hx
    have hrem : (x.srem 10).toNat = x.toNat % 10 := by
      rw [BitVec.srem_eq, hpos, hmsb]
      show (x % 10).toNat = _
      rw [BitVec.toNat_umod, hten]
    rw [ascii_zero_add (by omega), hrem, hval]
  · intro x hx
    obtain ⟨hpos, hval⟩ := hclear x hx
    have hquot : (x.sdiv 10).toNat = x.toNat / 10 := by
      rw [BitVec.sdiv_eq, hpos, hmsb]
      show (x / 10).toNat = _
      rw [BitVec.toNat_udiv, hten]
    have hlt := x.isLt
    rw [BitVec.msb_eq_false_iff_two_mul_lt] at hpos
    rw [hval, BitVec.toInt_eq_toNat_of_lt (by omega), Int.toNat_natCast, hquot]

end DigitArray

/-! ## The conversions -/

namespace Printf

variable {σ : Type} {output : σ → Byte → Option σ}

/-- Hand characters to the output function. -/
def feed (output : σ → Byte → Option σ) : σ → List Byte → Option σ
  | s, [] => some s
  | s, c :: cs => (output s c).bind fun s => feed output s cs

theorem feed_append (s : σ) (l l' : List Byte) :
    feed output s (l ++ l') = (feed output s l).bind fun s => feed output s l' := by
  induction l generalizing s with
  | nil => rfl
  | cons c l ih =>
      rw [List.cons_append, feed, feed, Option.bind_assoc]
      congr 1
      funext s
      exact ih s

/-- Printing counts the characters and leaves the arguments alone. -/
theorem puts_eq (p : Printf σ) (l : List Byte) : p.puts output l
    = (feed output p.sink l).map fun s => ⟨s, p.count + BitVec.ofNat 32 l.length, p.args⟩ := by
  induction l generalizing p with
  | nil =>
      rw [puts, feed, Option.map_some, List.length_nil]
      exact congrArg some (by rw [BitVec.add_zero])
  | cons c l ih =>
      have hcount : p.count + BitVec.ofNat 32 (l.length + 1)
          = p.count + 1 + BitVec.ofNat 32 l.length := by
        rw [BitVec.add_assoc, Nat.add_comm, BitVec.ofNat_add]
        rfl
      rw [puts, put, feed, Option.map_bind, Option.bind_map, List.length_cons, hcount]
      congr 1
      funext s
      exact ih _

theorem puts_append (p : Printf σ) (l l' : List Byte) :
    p.puts output (l ++ l') = (p.puts output l).bind fun p => p.puts output l' := by
  induction l generalizing p with
  | nil => rfl
  | cons c l ih =>
      rw [List.cons_append, puts, puts, Option.bind_assoc]
      congr 1
      funext p
      exact ih p

theorem puts_singleton (p : Printf σ) (c : Byte) : p.puts output [c] = p.put output c := by
  rw [puts]
  cases p.put output c <;> rfl

/-- The sign and the digits, but for the number that has no negation. -/
theorem putSigned_eq {w : Nat} (size : Nat) (hw : 5 ≤ w) (hsize : 0 < size) (hpow : 2 ^ w ≤ 10 ^ size)
    (p : Printf σ) (v : BitVec w) : p.putSigned output size v
      = p.puts output (if v = BitVec.intMin w then [ascii '-']
        else NumConv.sign v.toInt ++ numeral 10 v.toInt.natAbs) := by
  have hsmall : ∀ x : BitVec w, x.toInt.toNat < 10 ^ size := by
    intro x
    have hle : x.toInt.toNat ≤ x.toNat := by
      rw [BitVec.toInt_eq_toNat_cond]
      split <;> omega
    have hlt := x.isLt
    omega
  have hnumeral : ∀ x : BitVec w, 0 ≤ x.toInt →
      signedArray size x = some (numeral 10 x.toInt.natAbs) := by
    intro x hx
    have hzero : x = 0 ↔ x.toInt.toNat = 0 := by
      rw [← BitVec.toInt_inj]
      have hzero : (0 : BitVec w).toInt = 0 := BitVec.toInt_zero
      omega
    have habs : x.toInt.toNat = x.toInt.natAbs := by omega
    rw [signedArray_eq hw hsize (hsmall x), digits_eq_numeral (fun x => x.toInt.toNat) hzero, habs]
  have hminus : v.slt 0 = decide (v.toInt < 0) := by
    have hzero : (0 : BitVec w).toInt = 0 := BitVec.toInt_zero
    rw [BitVec.slt_eq_decide, hzero]
  unfold putSigned NumConv.sign
  rw [hminus]
  by_cases hneg : v.toInt < 0
  · rw [if_pos (decide_eq_true hneg), if_pos hneg]
    -- the sign is put first, and then what the array of the negation holds
    have hput : ∀ buf, signedArray size (-v) = some buf →
        ((p.put output (ascii '-')).map fun p => (p, -v)).bind (fun q =>
          (signedArray size q.2).bind fun buf => q.1.puts output buf)
          = p.puts output ([ascii '-'] ++ buf) := by
      intro buf hbuf
      rw [puts_append, puts_singleton, Option.bind_map]
      congr 1
      funext p
      simp only [Function.comp, hbuf, Option.bind_some]
    by_cases hmin : v = BitVec.intMin w
    · have hstays : -v = v := by rw [hmin, BitVec.neg_intMin]
      have hne : v ≠ 0 := by
        rintro rfl
        have hzero : (0 : BitVec w).toInt = 0 := BitVec.toInt_zero
        omega
      have hnone : v.toInt.toNat = 0 := by omega
      rw [if_pos hmin]
      refine hput [] ?_
      rw [hstays, signedArray_eq hw hsize (hsmall v), if_neg hne, hnone, Nat.digits_zero]
      rfl
    · have hint : (-v).toInt = -v.toInt := BitVec.toInt_neg_of_ne_intMin hmin
      rw [if_neg hmin, hput _ (hnumeral (-v) (by omega)), hint, Int.natAbs_neg]
  · have hmin : v ≠ BitVec.intMin w := by
      rintro rfl
      rw [BitVec.toInt_intMin_of_pos (by omega)] at hneg
      have hpos : (0 : Int) < 2 ^ (w - 1) := Int.pow_pos (by decide)
      omega
    rw [if_neg (by simpa using hneg), if_neg hneg, if_neg hmin, Option.bind_some, List.nil_append]
    simp only [hnumeral v (by omega), Option.bind_some]

/-! The six copies of the loop, each with the size of its array. -/

section Copies

variable {p : Printf σ} {args : List VaArg}

theorem printU_eq {v : BitVec 32} (h : p.args = .int v :: args) :
    p.printU output = { p with args := args }.puts output (numeral 10 v.toNat) := by
  have hlt : v.toNat < 10 ^ 12 := Nat.lt_trans v.isLt (by decide)
  simp only [printU, h, vaInt, Option.bind_some, unsignedArray_eq (by decide) (by decide) hlt]

theorem printLlu_eq {v : BitVec 64} (h : p.args = .long v :: args) :
    p.printLlu output = { p with args := args }.puts output (numeral 10 v.toNat) := by
  have hlt : v.toNat < 10 ^ 24 := Nat.lt_trans v.isLt (by decide)
  simp only [printLlu, h, vaLong, Option.bind_some, unsignedArray_eq (by decide) (by decide) hlt]

theorem printD_eq {v : BitVec 32} (h : p.args = .int v :: args) : p.printD output
      = { p with args := args }.puts output (if v = BitVec.intMin 32 then [ascii '-']
        else NumConv.sign v.toInt ++ numeral 10 v.toInt.natAbs) := by
  simp only [printD, h, vaInt, Option.bind_some]
  exact putSigned_eq 12 (by decide) (by decide) (by decide) _ v

theorem printLld_eq {v : BitVec 64} (h : p.args = .long v :: args) : p.printLld output
      = { p with args := args }.puts output (if v = BitVec.intMin 64 then [ascii '-']
        else NumConv.sign v.toInt ++ numeral 10 v.toInt.natAbs) := by
  simp only [printLld, h, vaLong, Option.bind_some]
  exact putSigned_eq 24 (by decide) (by decide) (by decide) _ v

theorem printX_eq {v : BitVec 32} (h : p.args = .int v :: args) :
    p.printX output = { p with args := args }.puts output (numeral 16 v.toNat) := by
  have hlt : v.toNat < 16 ^ 9 := Nat.lt_trans v.isLt (by decide)
  simp only [printX, h, vaInt, Option.bind_some, hexArray_eq (by decide) (by decide) hlt]

theorem printP_eq {v : BitVec 64} (h : p.args = .pointer v :: args) : p.printP output
      = { p with args := args }.puts output ([ascii '0', ascii 'x'] ++ numeral 16 v.toNat) := by
  have hlt : v.toNat < 16 ^ 17 := Nat.lt_trans v.isLt (by decide)
  simp only [printP, h, vaPointer, Option.bind_some, hexArray_eq (by decide) (by decide) hlt,
    puts_append]

end Copies

end Printf

namespace NumConv

variable {σ : Type} (output : σ → Byte → Option σ)

/-- The case of the `switch`. -/
def print : NumConv → Printf σ → Option (Printf σ)
  | .d, st => st.printD output
  | .u, st => st.printU output
  | .lld, st => st.printLld output
  | .llu, st => st.printLlu output
  | .x, st => st.printX output
  | .p, st => st.printP output

/-- The argument is negative and has no negation. -/
def NoNegation (c : NumConv) (v : BitVec c.width) : Prop := c.isSigned = true ∧ v = BitVec.intMin c.width

instance (c : NumConv) (v : BitVec c.width) : Decidable (c.NoNegation v) :=
  inferInstanceAs (Decidable (_ ∧ _))

/-- What is printed. -/
def printed (c : NumConv) (v : BitVec c.width) : List Byte :=
  if c.NoNegation v then [ascii '-'] else c.text v

variable {output} {args : List VaArg} {p : Printf σ}

/-- **Each case prints the numeral**, but for the number without a negation. -/
theorem print_eq (c : NumConv) (v : BitVec c.width) (h : p.args = c.arg v :: args) :
    c.print output p = { p with args := args }.puts output (c.printed v) := by
  have hunsigned : c.isSigned = false → c.printed v = c.lead ++ numeral c.base v.toNat := by
    intro hsign
    have hvalue : c.value v = v.toNat := by
      rw [value, hsign]
      rfl
    have hnonneg : ¬ (v.toNat : Int) < 0 := by omega
    rw [printed, if_neg fun hno => absurd hno.1 (by rw [hsign]; decide), text, hvalue, sign,
      if_neg hnonneg]
    rfl
  have hsigned : c.isSigned = true → c.lead = [] → c.base = 10 → c.printed v
      = if v = BitVec.intMin c.width then [ascii '-']
        else sign v.toInt ++ numeral 10 v.toInt.natAbs := by
    intro hsign hlead hbase
    have hvalue : c.value v = v.toInt := by
      rw [value, hsign]
      rfl
    simp only [printed, NoNegation, hsign, true_and, text, hvalue, hlead, List.append_nil, hbase]
  cases c with
  | d =>
      rw [hsigned rfl rfl rfl]
      exact Printf.printD_eq h
  | lld =>
      rw [hsigned rfl rfl rfl]
      exact Printf.printLld_eq h
  | u =>
      rw [hunsigned rfl]
      exact Printf.printU_eq h
  | llu =>
      rw [hunsigned rfl]
      exact Printf.printLlu_eq h
  | x =>
      rw [hunsigned rfl]
      exact Printf.printX_eq h
  | p =>
      rw [hunsigned rfl]
      exact Printf.printP_eq h

/-- The cursor passes over the conversion. -/
theorem scan_spell (c : NumConv) (fmt : List Byte) (p : Printf σ) :
    p.scan output 0 (c.spell ++ fmt) = (c.print output p).bind fun p => p.scan output 0 fmt := by
  cases c <;> rfl

end NumConv

/-! ## The characters -/

/-- The output function that keeps every character. -/
def emit (out : List Byte) (c : Byte) : Option (List Byte) := some (out ++ [c])

theorem feed_emit (out l : List Byte) : Printf.feed emit out l = some (out ++ l) := by
  induction l generalizing out with
  | nil => rw [Printf.feed, List.append_nil]
  | cons c l ih => rw [Printf.feed, emit, Option.bind_some, ih, List.append_assoc, List.singleton_append]

namespace NumConv

theorem doPrintf_spell (c : NumConv) (v : BitVec c.width) :
    doPrintf emit [] (some (c.spell ++ [0])) [c.arg v]
      = some (BitVec.ofNat 32 (c.printed v).length, c.printed v) := by
  simp only [doPrintf, scan_spell, c.print_eq v (p := ⟨[], 0, [c.arg v]⟩) rfl, Printf.puts_eq, feed_emit,
    Option.bind_some, Printf.scan, if_true, Option.map_some, List.nil_append]
  exact congrArg (fun n => some (n, c.printed v)) (BitVec.zero_add _)

/-- A sign alone is no numeral. -/
theorem not_isNumeral_minus (c : NumConv) (n : Int) : ¬ c.IsNumeral [ascii '-'] n := by
  rintro ⟨ds, hcanonical, -, heq⟩
  have hlen := congrArg List.length heq
  obtain ⟨d, t, rfl⟩ := List.exists_cons_of_ne_nil hcanonical.ne_nil
  rw [List.length_singleton, List.length_append, List.length_append, List.length_map,
    List.length_cons] at hlen
  -- there is one character, which is the digit
  have hsign : sign n = [] := List.length_eq_zero_iff.mp (by omega)
  have hlead : c.lead = [] := List.length_eq_zero_iff.mp (by omega)
  rw [hsign, hlead, List.nil_append, List.nil_append, List.map_cons] at heq
  have hd := Nat.lt_of_lt_of_le (hcanonical.lt d List.mem_cons_self) c.base_le
  exact digitChar_ne_minus hd (List.cons.inj heq).1.symm

/-- **Every number is printed as its canonical numeral**, exactly if it is not a negative number without a
negation; in any case the digits stay inside of their array. -/
theorem numeral_printed_iff (c : NumConv) (v : BitVec c.width) :
    ∃ count l, doPrintf emit [] (some (c.spell ++ [0])) [c.arg v] = some (count, l) ∧
      (c.IsNumeral l (c.value v) ∧ c.read l = some (c.value v) ↔ ¬ c.NoNegation v) := by
  refine ⟨_, _, c.doPrintf_spell v, ?_⟩
  unfold printed
  constructor
  · rintro ⟨hnumeral, -⟩ hno
    rw [if_pos hno] at hnumeral
    exact c.not_isNumeral_minus _ hnumeral
  · intro hno
    rw [if_neg hno]
    exact ⟨c.isNumeral_text v, (c.isNumeral_text v).read⟩

/-- The least `int`: a sign without digits. -/
theorem int_min_printed_as_sign :
    doPrintf emit [] (some (NumConv.d.spell ++ [0])) [.int 0x80000000] = some (1, [ascii '-']) ∧
      ¬ NumConv.d.IsNumeral [ascii '-'] (-2147483648) :=
  ⟨by decide +kernel, not_isNumeral_minus .d _⟩

end NumConv

end Arcline
