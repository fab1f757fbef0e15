import Arcline.Kernel.PrintkNumeral

set_option autoImplicit false

/-! # Formats

A format is a list of pieces, with perhaps a lone `%` at the end. What `do_printf` does with a format does
not depend on the output function: it hands it the characters of the pieces, one piece after the other.
-/

namespace Arcline

/-! ## Pieces -/

/-- The characters after `%` that `do_printf` knows. -/
def conversionLetters : List Byte := ['d', 'u', 'l', 'x', 'p', 's', 'c', '%'].map ascii

/-- A part of a format, with the argument that belongs to it. -/
inductive Piece
  | literal (c : Byte) (h : c ≠ 0 ∧ c ≠ ascii '%')
  | percent
  | unknown (c : Byte) (h : c ≠ 0 ∧ c ∉ conversionLetters)
  | number (c : NumConv) (v : BitVec c.width)
  | string (s : Option CString)
  | char (v : BitVec 32)

namespace Piece

/-- The piece in a format. -/
def spell : Piece → List Byte
  | .literal c _ => [c]
  | .percent => [ascii '%', ascii '%']
  | .unknown c _ => [ascii '%', c]
  | .number c _ => c.spell
  | .string _ => [ascii '%', ascii 's']
  | .char _ => [ascii '%', ascii 'c']

theorem spell_ne_nil (x : Piece) : x.spell ≠ [] := by
  cases x with
  | number c _ => cases c <;> exact List.cons_ne_nil _ _
  | literal | percent | unknown | string | char => exact List.cons_ne_nil _ _

def args : Piece → List VaArg
  | .number c v => [c.arg v]
  | .string s => [.string s]
  | .char v => [.int v]
  | _ => []

/-- What the piece stands for. -/
def render : Piece → List Byte
  | .literal c _ => [c]
  | .percent => [ascii '%']
  | .unknown c _ => [ascii '%', c]
  | .number c v => c.text v
  | .string s => (s.getD .null).bytes
  | .char v => [v.setWidth 8]

/-- What is printed for it. -/
def printed : Piece → List Byte
  | .number c v => c.printed v
  | piece => piece.render

/-- The numeral of the argument is printed as it should be. -/
def Exact : Piece → Prop
  | .number c v => ¬ c.NoNegation v
  | _ => True

theorem printed_of_exact {x : Piece} (h : x.Exact) : x.printed = x.render := by
  cases x with
  | number c v => exact if_neg h
  | literal | percent | unknown | string | char => rfl

/-- Where the numeral is not printed, less is. -/
theorem length_printed_lt {x : Piece} (h : ¬ x.Exact) : x.printed.length < x.render.length := by
  cases x with
  | number c v =>
      have hno : c.NoNegation v := Classical.not_not.mp h
      have hne := (Numeral.canonical_ofNat c.one_lt_base (c.value v).natAbs).ne_nil
      have hpos := List.length_pos_iff.mpr hne
      have hneg : c.value v < 0 := by
        rw [NumConv.value, hno.1, hno.2]
        cases c <;> decide
      have hprinted : c.printed v = [ascii '-'] := if_pos hno
      show (c.printed v).length < (c.text v).length
      rw [hprinted, NumConv.text, NumConv.sign, if_pos hneg, numeral, List.length_append,
        List.length_append, List.length_map, List.length_singleton]
      omega
  | literal | percent | unknown | string | char => exact absurd trivial h

end Piece

/-! ## The loop over the pieces -/

namespace Printf

variable {σ : Type} {output : σ → Byte → Option σ}

/-- **One piece** is printed, and the cursor passes over it. -/
theorem scan_piece (x : Piece) (fmt : List Byte) (s : σ) (n : BitVec 32) (args : List VaArg) :
    scan output 0 (x.spell ++ fmt) ⟨s, n, x.args ++ args⟩
      = (feed output s x.printed).bind fun s =>
        scan output 0 fmt ⟨s, n + BitVec.ofNat 32 x.printed.length, args⟩ := by
  -- it is enough that the piece is put, with its arguments taken away
  have hputs : ∀ r, r = puts output ⟨s, n, args⟩ x.printed →
      (r.bind fun p => scan output 0 fmt p)
        = (feed output s x.printed).bind fun s =>
          scan output 0 fmt ⟨s, n + BitVec.ofNat 32 x.printed.length, args⟩ := by
    rintro r rfl
    rw [puts_eq, Option.bind_map]
    rfl
  cases x with
  | literal c h =>
      rw [← hputs _ (puts_singleton _ c).symm]
      simp only [Piece.spell, Piece.args, List.singleton_append, List.nil_append, scan, if_neg h.1,
        if_neg h.2]
  | percent => exact hputs _ (puts_singleton _ _).symm
  | unknown c h =>
      have hletters := h.2
      simp only [conversionLetters, List.map_cons, List.map_nil, List.mem_cons, List.not_mem_nil,
        or_false, not_or] at hletters
      obtain ⟨hd, hu, hl, hx, hp, hs, hc, hpercent⟩ := hletters
      have hconvert : convert output ⟨s, n, args⟩ c = puts output ⟨s, n, args⟩ [ascii '%', c] := by
        simp only [convert, if_neg hd, if_neg hu, if_neg hx, if_neg hp, if_neg hs, if_neg hc,
          if_neg hpercent]
      have hstart : ascii '%' ≠ 0 := by decide
      rw [← hputs _ hconvert]
      simp only [Piece.spell, Piece.args, List.cons_append, List.nil_append, scan, if_neg hstart, if_true,
        List.getElem?_cons_zero, Option.bind_some, if_neg h.1, if_neg hl]
  | number c v => exact (c.scan_spell fmt _).trans (hputs _ (c.print_eq v rfl))
  | string str => exact hputs _ rfl
  | char v => exact hputs _ (puts_singleton _ _).symm

/-- **All pieces**, by induction on them. -/
theorem scan_pieces (xs : List Piece) (fmt : List Byte) (s : σ) (n : BitVec 32) (args : List VaArg) :
    scan output 0 (xs.flatMap Piece.spell ++ fmt) ⟨s, n, xs.flatMap Piece.args ++ args⟩
      = (feed output s (xs.flatMap Piece.printed)).bind fun s =>
        scan output 0 fmt ⟨s, n + BitVec.ofNat 32 (xs.flatMap Piece.printed).length, args⟩ := by
  induction xs generalizing s n with
  | nil =>
      have hcount : n + BitVec.ofNat 32 ([] : List Byte).length = n := BitVec.add_zero n
      simp only [List.flatMap_nil, List.nil_append, feed, Option.bind_some, hcount]
  | cons x xs ih =>
      simp only [List.flatMap_cons, List.append_assoc]
      rw [scan_piece, feed_append, Option.bind_assoc]
      congr 1
      funext s'
      rw [ih, List.length_append, BitVec.ofNat_add, BitVec.add_assoc]

end Printf

/-! ## Formats -/

/-- Pieces, and perhaps a `%` after them. -/
structure Format where
  pieces : List Piece
  lonePercent : Bool

namespace Format

/-- The format without its NUL. -/
def spell (F : Format) : List Byte :=
  F.pieces.flatMap Piece.spell ++ if F.lonePercent then [ascii '%'] else []

def args (F : Format) : List VaArg := F.pieces.flatMap Piece.args

/-- The literal pieces and the renderings of the arguments, in order. -/
def render (F : Format) : List Byte :=
  F.pieces.flatMap Piece.render ++ if F.lonePercent then [ascii '%'] else []

def printed (F : Format) : List Byte :=
  F.pieces.flatMap Piece.printed ++ if F.lonePercent then [ascii '%'] else []

variable {σ : Type} {output : σ → Byte → Option σ}

/-- **`do_printf` hands the output function the characters of the pieces, and counts them.** -/
theorem doPrintf_eq (F : Format) (s : σ) : doPrintf output s (some (F.spell ++ [0])) F.args
    = (Printf.feed output s F.printed).map fun s => (BitVec.ofNat 32 F.printed.length, s) := by
  -- what is left after the pieces
  have hend : ∀ p : Printf σ,
      p.scan output 0 ((if F.lonePercent then [ascii '%'] else []) ++ [0])
        = p.puts output (if F.lonePercent then [ascii '%'] else []) := by
    intro p
    cases F.lonePercent with
    | false => rfl
    | true =>
        show ((p.put output (ascii '%')).bind fun p => p.scan output 0 [0]) = p.puts output [ascii '%']
        rw [Printf.puts]
        rfl
  have hscan := @Printf.scan_pieces σ output F.pieces
    ((if F.lonePercent then [ascii '%'] else []) ++ [0]) s 0 []
  rw [List.append_nil, ← List.append_assoc] at hscan
  rw [doPrintf, spell, args, hscan, printed, Printf.feed_append, Option.map_bind, Option.map_bind]
  congr 1
  funext s'
  have hcount : ∀ m, (0 : BitVec 32) + BitVec.ofNat 32 (F.pieces.flatMap Piece.printed).length
      + BitVec.ofNat 32 m = BitVec.ofNat 32 ((F.pieces.flatMap Piece.printed).length + m) := by
    intro m
    rw [BitVec.ofNat_add]
    exact congrArg (· + BitVec.ofNat 32 m) (BitVec.zero_add _)
  simp only [Function.comp, hend, Printf.puts_eq, Option.map_map, hcount, List.length_append]
  rfl

/-- Two formats one after the other. -/
def append (F G : Format) : Format := ⟨F.pieces ++ G.pieces, G.lonePercent⟩

theorem spell_append {F G : Format} (h : F.lonePercent = false) :
    (F.append G).spell = F.spell ++ G.spell := by
  unfold append spell
  rw [h, List.flatMap_append]
  exact (List.append_assoc ..).trans (by simp)

theorem args_append (F G : Format) : (F.append G).args = F.args ++ G.args :=
  List.flatMap_append

theorem printed_append {F G : Format} (h : F.lonePercent = false) :
    (F.append G).printed = F.printed ++ G.printed := by
  unfold append printed
  rw [h, List.flatMap_append]
  exact (List.append_assoc ..).trans (by simp)

/-- All numerals are printed as they should be. -/
def Exact (F : Format) : Prop := ∀ x ∈ F.pieces, x.Exact

theorem length_printed_le (xs : List Piece) :
    (xs.flatMap Piece.printed).length ≤ (xs.flatMap Piece.render).length := by
  induction xs with
  | nil => exact Nat.le_refl _
  | cons x xs ih =>
      simp only [List.flatMap_cons, List.length_append]
      have hx : x.printed.length ≤ x.render.length := by
        by_cases h : x.Exact
        · rw [Piece.printed_of_exact h]
        · exact Nat.le_of_lt (Piece.length_printed_lt h)
      omega

/-- The characters are the right ones exactly if every numeral is: one that is not is too short. -/
theorem printed_eq_render_iff (F : Format) : F.printed = F.render ↔ F.Exact := by
  unfold printed render Exact
  rw [List.append_left_inj]
  induction F.pieces with
  | nil => simp
  | cons x xs ih =>
      simp only [List.flatMap_cons, List.forall_mem_cons]
      constructor
      · intro h
        have hlen := congrArg List.length h
        rw [List.length_append, List.length_append] at hlen
        have hle := length_printed_le xs
        have hx : x.Exact := by
          by_contra hno
          have hlt := Piece.length_printed_lt hno
          omega
        rw [Piece.printed_of_exact hx, List.append_right_inj] at h
        exact ⟨hx, ih.mp h⟩
      · rintro ⟨hx, hxs⟩
        rw [Piece.printed_of_exact hx, ih.mpr hxs]

end Format

/-! ## The buffer -/

namespace PrintkBuf

variable {b : PrintkBuf} {l : List Byte}

/-- The buffer holds the first 511 of the characters `l`, and the pointer is after them. -/
structure Holds (b : PrintkBuf) (l : List Byte) : Prop where
  ptr : b.ptr = min 511 l.length
  rem : b.rem = 512 - b.ptr
  bytes : (List.range b.ptr).map b.buf = l.take 511

/-- The cells below the pointer do not change when the one at the pointer is written. -/
theorem map_update_range (f : Nat → Byte) (n : Nat) (c : Byte) :
    (List.range n).map (Function.update f n c) = (List.range n).map f := by
  apply List.map_congr_left
  intro i hi
  exact Function.update_of_ne (Nat.ne_of_lt (List.mem_range.mp hi)) c f

theorem Holds.bufPutc (h : b.Holds l) (c : Byte) :
    ∃ b', b.bufPutc c = some b' ∧ b'.Holds (l ++ [c]) := by
  have hptr := h.ptr
  have hrem := h.rem
  have hbytes := h.bytes
  have hlen : (l ++ [c]).length = l.length + 1 := List.length_append
  unfold PrintkBuf.bufPutc store printkBufSize
  split
  · -- all characters so far are in the buffer
    rename_i hroom
    have hall : l.length = b.ptr := by omega
    rw [if_pos (by omega), Option.map_some]
    refine ⟨_, rfl, ?_, ?_, ?_⟩
    · show b.ptr + 1 = min 511 (l ++ [c]).length
      omega
    · show b.rem - 1 = 512 - ((b.ptr + 1 : Nat) : Int)
      omega
    · rw [List.take_of_length_le (by omega)] at hbytes
      show (List.range (b.ptr + 1)).map (Function.update b.buf b.ptr c) = (l ++ [c]).take 511
      rw [List.range_succ, List.map_append, map_update_range, hbytes, List.map_singleton,
        Function.update_self, List.take_of_length_le (by omega)]
  · rename_i hfull
    have hmany : 511 ≤ l.length := by omega
    refine ⟨b, rfl, by omega, hrem, ?_⟩
    rw [hbytes, List.take_append_of_le_length hmany]

theorem Holds.feed (h : b.Holds l) (l' : List Byte) :
    ∃ b', Printf.feed PrintkBuf.bufPutc b l' = some b' ∧ b'.Holds (l ++ l') := by
  induction l' generalizing b l with
  | nil => exact ⟨b, rfl, by rwa [List.append_nil]⟩
  | cons c l' ih =>
      obtain ⟨b₁, hputc, h₁⟩ := h.bufPutc c
      obtain ⟨b₂, hfeed, h₂⟩ := ih h₁
      refine ⟨b₂, ?_, by simpa using h₂⟩
      rw [Printf.feed, hputc, Option.bind_some, hfeed]

/-- The NUL is written into the buffer, and ends the string. -/
theorem Holds.terminate (h : b.Holds l) : ∃ b', b.store 0 = some b' ∧
    (List.range (min 511 l.length + 1)).map b'.buf = l.take 511 ++ [0] ∧
    b'.string = some ((l.take 511).takeWhile (· ≠ 0)) := by
  have hptr := h.ptr
  have hin : b.ptr < printkBufSize := by
    show b.ptr < 512
    omega
  have hfirst : (List.range (b.ptr + 1)).map (Function.update b.buf b.ptr 0) = l.take 511 ++ [0] := by
    rw [List.range_succ, List.map_append, map_update_range, h.bytes, List.map_singleton,
      Function.update_self]
  refine ⟨_, if_pos hin, hptr ▸ hfirst, ?_⟩
  -- the cells of the buffer, with the NUL after the characters
  obtain ⟨k, hk⟩ := Nat.exists_eq_add_of_le (Nat.succ_le_of_lt hin)
  unfold string
  dsimp only
  rw [hk, List.range_add, List.map_append, hfirst, List.append_assoc, if_pos (by simp),
    List.takeWhile_append]
  split
  · rename_i hall
    rw [List.IsPrefix.eq_of_length (List.takeWhile_prefix _) hall]
    simp
  · rfl

end PrintkBuf

namespace Format

theorem doPrintf_emit (F : Format) : doPrintf emit [] (some (F.spell ++ [0])) F.args
    = some (BitVec.ofNat 32 F.printed.length, F.printed) := by
  rw [doPrintf_eq, feed_emit, Option.map_some, List.nil_append]

/-- What `printk_vroute` passes on, whatever the buffer and the log hold before. -/
theorem printkVroute_eq (F : Format) (k : Klog) (b : PrintkBuf) (level : BitVec 32) :
    ∃ b' : PrintkBuf, (List.range (min 511 F.printed.length + 1)).map b'.buf = F.printed.take 511 ++ [0] ∧
      printkVroute k b level (some (F.spell ++ [0])) F.args
        = (k.logWriteStr level (some ((F.printed.take 511).takeWhile (· ≠ 0)))).map fun (answer, k) =>
          ⟨BitVec.ofNat 32 F.printed.length, b', some ((F.printed.take 511).takeWhile (· ≠ 0)),
            answer.console, k⟩ := by
  have hempty : ({ b with ptr := 0, rem := printkBufSize } : PrintkBuf).Holds [] := ⟨rfl, rfl, rfl⟩
  obtain ⟨b₁, hfeed, hholds⟩ := hempty.feed F.printed
  rw [List.nil_append] at hholds
  obtain ⟨b₂, hstore, hcells, hstring⟩ := hholds.terminate
  refine ⟨b₂, hcells, ?_⟩
  rw [printkVroute, doPrintf_eq, hfeed, Option.map_some, Option.bind_some]
  dsimp only
  rw [hstore, Option.bind_some, hstring, Option.bind_some]

/-- An `int` counts up to `2^31`. -/
theorem toInt_ofNat_eq_iff {n : Nat} : (BitVec.ofNat 32 n).toInt = n ↔ n < 2 ^ 31 := by
  rw [BitVec.toInt_eq_toNat_cond, BitVec.toNat_ofNat]
  constructor
  · intro h
    split at h <;> omega
  · intro h
    rw [Nat.mod_eq_of_lt (by omega), if_pos (by omega)]

/-- **A format prints its pieces in order**, each numeral as it should be and with the right count exactly
if no argument is a negative number without a negation and the characters are fewer than `2^31`. The
outputs of two formats are those of the one after the other, and the first 511 characters and a NUL are
what the log gets, without any condition. -/
theorem format_printed_iff (F : Format) :
    ∃ count l, doPrintf emit [] (some (F.spell ++ [0])) F.args = some (count, l) ∧
      (F.lonePercent = false → ∀ G : Format, ∃ count' l',
        doPrintf emit [] (some (G.spell ++ [0])) G.args = some (count', l') ∧
        doPrintf emit [] (some (F.spell ++ G.spell ++ [0])) (F.args ++ G.args)
          = some (count + count', l ++ l')) ∧
      (∀ (k : Klog) (b : PrintkBuf) (level : BitVec 32), ∃ b' : PrintkBuf,
        (List.range (min 511 l.length + 1)).map b'.buf = l.take 511 ++ [0] ∧
        printkVroute k b level (some (F.spell ++ [0])) F.args
          = (k.logWriteStr level (some ((l.take 511).takeWhile (· ≠ 0)))).map fun (answer, k) =>
            ⟨count, b', some ((l.take 511).takeWhile (· ≠ 0)), answer.console, k⟩) ∧
      (l = F.render ∧ count.toInt = l.length ↔ F.Exact ∧ F.render.length < 2 ^ 31) := by
  refine ⟨_, _, F.doPrintf_emit, fun hF G => ⟨_, _, G.doPrintf_emit, ?_⟩, F.printkVroute_eq, ?_⟩
  · have happend := (F.append G).doPrintf_emit
    rwa [spell_append hF, args_append, printed_append hF, List.length_append, BitVec.ofNat_add]
      at happend
  · rw [printed_eq_render_iff, toInt_ofNat_eq_iff]
    refine and_congr_right fun hexact => ?_
    rw [F.printed_eq_render_iff.mpr hexact]

/-- `"n=%d"` with the least `int`: of the eleven characters of the numeral, the sign is printed. -/
theorem format_loses_digits :
    let F : Format := ⟨[.literal (ascii 'n') (by decide), .literal (ascii '=') (by decide),
      .number .d 0x80000000], false⟩
    doPrintf emit [] (some (F.spell ++ [0])) F.args = some (3, [ascii 'n', ascii '=', ascii '-']) ∧
      F.render = "n=-2147483648".toList.map ascii := by
  decide +kernel

end Format

end Arcline
