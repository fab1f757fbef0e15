import Mathlib.Data.List.TakeWhile
import Arcline.Kernel.LogFifo
import Arcline.Kernel.PrintkFormat

set_option autoImplicit false

/-! # `sys_write`

The system call hands the user's bytes to `fprintk` as a format and ignores the count. It never logs
exactly the bytes counted without reading another one: the end of a format is a NUL, and a NUL among the
bytes is not logged. Where a NUL follows the bytes and may be read, they are logged as they are unless one
of them starts a conversion.
-/

namespace Arcline

/-! ## The end of a format -/

namespace Printf

variable {σ : Type} {output : σ → Byte → Option σ}

/-- The loop ends at a NUL. -/
theorem nul_mem_of_scan {fmt : List Byte} {skip : Nat} {p p' : Printf σ}
    (h : p.scan output skip fmt = some p') : 0 ∈ fmt := by
  induction fmt generalizing skip p with
  | nil =>
      rw [scan] at h
      exact absurd h (by simp)
  | cons c fmt ih =>
      cases skip with
      | succ skip =>
          rw [scan] at h
          exact List.mem_cons_of_mem _ (ih h)
      | zero =>
          rw [scan] at h
          rcases ite_eq_iff.mp h with ⟨hnul, -⟩ | ⟨-, h⟩
          · rw [hnul]
            exact List.mem_cons_self
          -- whatever is printed, the loop goes on in the rest
          refine List.mem_cons_of_mem _ ?_
          have hrest : ∀ {r : Option (Printf σ)} {n : Nat},
              (r.bind fun p => scan output n fmt p) = some p' → 0 ∈ fmt := by
            intro r n hr
            obtain ⟨p₁, -, hscan⟩ := Option.bind_eq_some_iff.mp hr
            exact ih hscan
          rcases ite_eq_iff.mp h with ⟨-, h⟩ | ⟨-, h⟩
          · obtain ⟨d, -, hd⟩ := Option.bind_eq_some_iff.mp h
            rcases ite_eq_iff.mp hd with ⟨-, hd⟩ | ⟨-, hd⟩
            · exact hrest hd
            rcases ite_eq_iff.mp hd with ⟨-, hd⟩ | ⟨-, hd⟩
            · obtain ⟨e, -, he⟩ := Option.bind_eq_some_iff.mp hd
              rcases ite_eq_iff.mp he with ⟨-, he⟩ | ⟨-, he⟩
              · obtain ⟨g, -, hg⟩ := Option.bind_eq_some_iff.mp he
                rcases ite_eq_iff.mp hg with ⟨-, hg⟩ | ⟨-, hg⟩
                · exact hrest hg
                rcases ite_eq_iff.mp hg with ⟨-, hg⟩ | ⟨-, hg⟩
                · exact hrest hg
                · exact ih hg
              · exact ih he
            · exact hrest hd
          · exact hrest h

end Printf

/-! ## Text without conversions -/

/-- No byte of the text starts a conversion: after a `%` comes the end or a letter that `do_printf` does
not know. -/
def Verbatim : List Byte → Prop
  | [] => True
  | [_] => True
  | c :: d :: text => (c = ascii '%' → d ∉ conversionLetters) ∧ Verbatim (d :: text)

instance decidableVerbatim : (text : List Byte) → Decidable (Verbatim text)
  | [] => .isTrue trivial
  | [_] => .isTrue trivial
  | c :: d :: text =>
      have := decidableVerbatim (d :: text)
      inferInstanceAs (Decidable ((c = ascii '%' → d ∉ conversionLetters) ∧ Verbatim (d :: text)))

theorem Verbatim.tail {c : Byte} {text : List Byte} (h : Verbatim (c :: text)) : Verbatim text := by
  cases text with
  | nil => trivial
  | cons d text => exact h.2

theorem verbatim_cons {c : Byte} {text : List Byte} (hc : c ≠ ascii '%') (h : Verbatim text) :
    Verbatim (c :: text) := by
  cases text with
  | nil => trivial
  | cons d text => exact ⟨fun heq => absurd heq hc, h⟩

/-- Such a text is a format that prints itself. The pairs are taken off together, so that the induction is
on the length. -/
theorem Verbatim.exists_format {text : List Byte} (h : Verbatim text) (hnul : 0 ∉ text) :
    ∃ F : Format, F.spell = text ∧ F.args = [] ∧ F.printed = text := by
  induction hlen : text.length using Nat.strong_induction_on generalizing text with
  | _ n ih =>
    -- a piece that prints itself, before a shorter text
    have hcons : ∀ (x : Piece) (rest : List Byte), text = x.spell ++ rest → x.args = [] →
        x.printed = x.spell → Verbatim rest →
        ∃ F : Format, F.spell = text ∧ F.args = [] ∧ F.printed = text := by
      intro x rest htext hargs hprinted hrest
      have hpos := List.length_pos_iff.mpr x.spell_ne_nil
      have hshort : rest.length < n := by
        rw [← hlen, htext, List.length_append]
        omega
      have hnul' : 0 ∉ rest := fun hmem => hnul (htext ▸ List.mem_append_right _ hmem)
      obtain ⟨F, hspell, hFargs, hFprinted⟩ := ih _ hshort hrest hnul' rfl
      refine ⟨⟨x :: F.pieces, F.lonePercent⟩, ?_, ?_, ?_⟩
      · rw [htext, ← hspell]
        exact List.append_assoc ..
      · show x.args ++ F.args = []
        rw [hargs, hFargs]
        rfl
      · have hsplit : Format.printed ⟨x :: F.pieces, F.lonePercent⟩ = x.printed ++ F.printed :=
          List.append_assoc ..
        rw [hsplit, hprinted, hFprinted, htext]
    cases text with
    | nil => exact ⟨⟨[], false⟩, rfl, rfl, rfl⟩
    | cons c text =>
        have hc : c ≠ 0 := fun heq => hnul (heq ▸ List.mem_cons_self)
        by_cases hpercent : c = ascii '%'
        · subst hpercent
          cases text with
          | nil => exact ⟨⟨[], true⟩, rfl, rfl, rfl⟩
          | cons d text =>
              have hd : d ≠ 0 := fun heq =>
                hnul (heq ▸ List.mem_cons_of_mem _ List.mem_cons_self)
              exact hcons (.unknown d ⟨hd, h.1 rfl⟩) text rfl rfl rfl h.tail.tail
        · exact hcons (.literal c ⟨hc, hpercent⟩) text rfl rfl rfl h.tail

/-! ## Formats without arguments -/

namespace Printf

variable {σ : Type} {output : σ → Byte → Option σ}

/-- Without arguments `%l` prints nothing, if the format has a result at all. -/
theorem scan_long (fmt : List Byte) (s : σ) (n : BitVec 32) :
    scan output 0 (ascii '%' :: ascii 'l' :: fmt) ⟨s, n, []⟩ = none ∨
      scan output 0 (ascii '%' :: ascii 'l' :: fmt) ⟨s, n, []⟩ = scan output 0 fmt ⟨s, n, []⟩ := by
  have hstart : scan output 0 (ascii '%' :: ascii 'l' :: fmt) ⟨s, n, []⟩
      = fmt[0]?.bind fun e =>
          if e = ascii 'l' then
            fmt[1]?.bind fun g =>
              if g = ascii 'u' then none
              else if g = ascii 'd' then none
              else scan output 0 fmt ⟨s, n, []⟩
          else scan output 0 fmt ⟨s, n, []⟩ := rfl
  rw [hstart]
  cases fmt[0]? with
  | none => exact .inl rfl
  | some e =>
      rw [Option.bind_some]
      split
      · cases fmt[1]? with
        | none => exact .inl rfl
        | some g =>
            rw [Option.bind_some]
            split
            · exact .inl rfl
            · split
              · exact .inl rfl
              · exact .inr rfl
      · exact .inr rfl

variable {s : σ} {n : BitVec 32} {p' : Printf σ}

/-- A piece that takes no argument. -/
theorem feed_of_scan_piece {x : Piece} (hargs : x.args = []) {fmt : List Byte}
    (h : scan output 0 (x.spell ++ fmt) ⟨s, n, []⟩ = some p') :
    ∃ s₁ n₁, feed output s x.printed = some s₁ ∧ scan output 0 fmt ⟨s₁, n₁, []⟩ = some p' := by
  have hscan := @scan_piece σ output x fmt s n []
  rw [hargs, List.nil_append, h] at hscan
  obtain ⟨s₁, hfeed, hrest⟩ := Option.bind_eq_some_iff.mp hscan.symm
  exact ⟨s₁, _, hfeed, hrest⟩

/-- A `%` at the end of the text. -/
theorem feed_of_scan_percent (h : scan output 0 [ascii '%', 0] ⟨s, n, []⟩ = some p') :
    feed output s [ascii '%'] = some p'.sink := by
  obtain ⟨p₁, hput, hend⟩ := Option.bind_eq_some_iff.mp
    (show ((put output ⟨s, n, []⟩ (ascii '%')).bind fun p => scan output 0 [0] p) = some p' from h)
  obtain rfl : p₁ = p' := Option.some.inj hend
  rw [← puts_singleton, puts_eq] at hput
  obtain ⟨s₁, hfeed, rfl⟩ := Option.map_eq_some_iff.mp hput
  exact hfeed

/-- Without arguments a pair that starts a conversion prints one character or none, if the format has a
result at all. -/
theorem scan_letter {d : Byte} (hd : d ∈ conversionLetters) {fmt : List Byte}
    (h : scan output 0 (ascii '%' :: d :: fmt) ⟨s, n, []⟩ = some p') :
    ∃ l s₁ n₁, l.length ≤ 1 ∧ feed output s l = some s₁ ∧ scan output 0 fmt ⟨s₁, n₁, []⟩ = some p' := by
  simp only [conversionLetters, List.map_cons, List.map_nil, List.mem_cons, List.not_mem_nil,
    or_false] at hd
  -- the conversions that take an argument find none
  have hnone : (none : Option (Printf σ)) = some p' → False := by simp
  rcases hd with rfl | rfl | rfl | rfl | rfl | rfl | rfl | rfl
  · exact (hnone h).elim
  · exact (hnone h).elim
  · rcases @scan_long σ output fmt s n with hlong | hlong
    · exact (hnone (hlong ▸ h)).elim
    · exact ⟨[], s, n, Nat.zero_le _, rfl, hlong ▸ h⟩
  · exact (hnone h).elim
  · exact (hnone h).elim
  · exact (hnone h).elim
  · exact (hnone h).elim
  · obtain ⟨s₁, n₁, hfeed, hscan⟩ := feed_of_scan_piece (x := .percent) rfl h
    exact ⟨Piece.printed .percent, s₁, n₁, Nat.le_refl 1, hfeed, hscan⟩

/-- **Without arguments no text prints more characters than it has**, and as many only if no byte starts a
conversion. -/
theorem exists_feed_of_scan {text : List Byte} (hnul : 0 ∉ text)
    (h : scan output 0 (text ++ [0]) ⟨s, n, []⟩ = some p') :
    ∃ l, feed output s l = some p'.sink ∧ l.length ≤ text.length ∧
      (l.length = text.length → Verbatim text) := by
  induction hlen : text.length using Nat.strong_induction_on generalizing text s n with
  | _ m ih =>
    -- `l₀` is printed before a shorter text
    have hshort : ∀ {rest l₀ : List Byte} {s₁ : σ} {n₁ : BitVec 32}, rest.length < m → 0 ∉ rest →
        feed output s l₀ = some s₁ → scan output 0 (rest ++ [0]) ⟨s₁, n₁, []⟩ = some p' →
        ∃ l, feed output s (l₀ ++ l) = some p'.sink ∧ l.length ≤ rest.length ∧
          (l.length = rest.length → Verbatim rest) := by
      intro rest l₀ s₁ n₁ hlt hnul' hfeed hscan
      obtain ⟨l, hl, hle, heq⟩ := ih _ hlt hnul' hscan rfl
      refine ⟨l, ?_, hle, heq⟩
      rw [feed_append, hfeed, Option.bind_some, hl]
    cases text with
    | nil =>
        obtain rfl : (⟨s, n, []⟩ : Printf σ) = p' := Option.some.inj h
        exact ⟨[], rfl, Nat.zero_le _, fun _ => trivial⟩
    | cons c text =>
        obtain ⟨hc, htext⟩ := List.ne_and_not_mem_of_not_mem_cons hnul
        by_cases hpercent : c = ascii '%'
        · subst hpercent
          cases text with
          | nil => exact ⟨_, feed_of_scan_percent h, Nat.le_of_eq hlen, fun _ => trivial⟩
          | cons d text =>
              obtain ⟨hd, hrest⟩ := List.ne_and_not_mem_of_not_mem_cons htext
              rw [List.length_cons, List.length_cons] at hlen
              by_cases hletter : d ∈ conversionLetters
              · obtain ⟨l₀, s₁, n₁, hone, hfeed, hscan⟩ := scan_letter hletter h
                obtain ⟨l, hl, hle, -⟩ := hshort (by omega) hrest hfeed hscan
                have hlength : (l₀ ++ l).length = l₀.length + l.length := List.length_append
                exact ⟨l₀ ++ l, hl, by omega, fun hall => by omega⟩
              · obtain ⟨s₁, n₁, hfeed, hscan⟩ :=
                  feed_of_scan_piece (x := .unknown d ⟨Ne.symm hd, hletter⟩) rfl h
                obtain ⟨l, hl, hle, heq⟩ := hshort (by omega) hrest hfeed hscan
                have hl2 : (Piece.printed (.unknown d ⟨Ne.symm hd, hletter⟩) ++ l).length
                  = l.length + 2 := rfl
                refine ⟨_, hl, by omega, fun hall => ⟨fun _ => hletter, ?_⟩⟩
                refine verbatim_cons (fun hpercent => hletter ?_) (heq (by omega))
                rw [hpercent]
                decide
        · rw [List.length_cons] at hlen
          obtain ⟨s₁, n₁, hfeed, hscan⟩ :=
            feed_of_scan_piece (x := .literal c ⟨Ne.symm hc, hpercent⟩) rfl h
          obtain ⟨l, hl, hle, heq⟩ := hshort (by omega) htext hfeed hscan
          have hl1 : (Piece.printed (.literal c ⟨Ne.symm hc, hpercent⟩) ++ l).length
            = l.length + 1 := rfl
          exact ⟨_, hl, by omega, fun hall => verbatim_cons hpercent (heq (by omega))⟩

end Printf

/-! ## The call -/

/-- The call logs exactly `text`, while of the bytes from the buffer's address on only those of `mem` may
be read. -/
def Logs (k : Klog) (b : PrintkBuf) (fd : BitVec 32) (mem : List Byte) (count : BitVec 32)
    (text : List Byte) : Prop :=
  ∃ r, sysWrite k b fd (some mem) count = some r ∧ r.message = some text

section Call

variable {k : Klog} {b : PrintkBuf} {fd count level : BitVec 32} {mem text : List Byte}

theorem sysWrite_eq (k : Klog) (b : PrintkBuf) (mem : List Byte) (count : BitVec 32)
    (hfd : fd = stdoutFd ∨ fd = stderrFd) :
    ∃ level, sysWrite k b fd (some mem) count = printkVroute k b level (some mem) [] := by
  rcases hfd with rfl | rfl
  · exact ⟨klogInfo, rfl⟩
  · exact ⟨klogErr, rfl⟩

/-- What is logged is the string in the buffer after the loop. -/
theorem message_of_printkVroute {r : PrintkResult}
    (h : printkVroute k b level (some mem) [] = some r) :
    ∃ p' b', Printf.scan PrintkBuf.bufPutc 0 mem ⟨{ b with ptr := 0, rem := printkBufSize }, 0, []⟩
        = some p' ∧ p'.sink.store 0 = some b' ∧ b'.string = r.message := by
  unfold printkVroute doPrintf at h
  obtain ⟨⟨cnt, b₁⟩, hscan, h⟩ := Option.bind_eq_some_iff.mp h
  obtain ⟨p', hp', heq⟩ := Option.map_eq_some_iff.mp hscan
  obtain ⟨b', hstore, h⟩ := Option.bind_eq_some_iff.mp h
  obtain ⟨message, hstring, h⟩ := Option.bind_eq_some_iff.mp h
  obtain ⟨a, -, rfl⟩ := Option.map_eq_some_iff.mp h
  refine ⟨p', b', hp', ?_, hstring⟩
  rw [(Prod.mk.inj heq).2]
  exact hstore

theorem nul_not_mem_string {message : List Byte} (h : b.string = some message) : 0 ∉ message := by
  unfold PrintkBuf.string at h
  dsimp only at h
  split at h
  · intro hmem
    rw [← Option.some.inj h] at hmem
    simpa using List.mem_takeWhile_imp hmem
  · exact absurd h (by simp)

/-- The bytes read have a NUL among them, and the text logged has none. -/
theorem Logs.nul (hfd : fd = stdoutFd ∨ fd = stderrFd) (h : Logs k b fd mem count text) :
    0 ∈ mem ∧ 0 ∉ text := by
  obtain ⟨r, hr, hmessage⟩ := h
  obtain ⟨level, heq⟩ := sysWrite_eq k b mem count hfd
  rw [heq] at hr
  obtain ⟨p', b', hscan, -, hstring⟩ := message_of_printkVroute hr
  rw [hmessage] at hstring
  exact ⟨Printf.nul_mem_of_scan hscan, nul_not_mem_string hstring⟩

/-- Text that is logged whole has no conversion in it. -/
theorem Logs.verbatim (hfd : fd = stdoutFd ∨ fd = stderrFd)
    (h : Logs k b fd (text ++ [0]) count text) : Verbatim text := by
  have hnul := (h.nul hfd).2
  obtain ⟨r, hr, hmessage⟩ := h
  obtain ⟨level, heq⟩ := sysWrite_eq k b (text ++ [0]) count hfd
  rw [heq] at hr
  obtain ⟨p', b', hscan, hstore, hstring⟩ := message_of_printkVroute hr
  obtain ⟨l, hfeed, hle, hverbatim⟩ := Printf.exists_feed_of_scan hnul hscan
  -- the text is a part of the characters printed, which are no more than it has
  have hempty : ({ b with ptr := 0, rem := printkBufSize } : PrintkBuf).Holds [] := ⟨rfl, rfl, rfl⟩
  obtain ⟨b₁, hfeed₁, hholds⟩ := hempty.feed l
  obtain rfl : b₁ = p'.sink := Option.some.inj (hfeed₁.symm.trans hfeed)
  obtain ⟨b₂, hstore₂, -, hstring₂⟩ := hholds.terminate
  obtain rfl : b₂ = b' := Option.some.inj (hstore₂.symm.trans hstore)
  rw [hstring₂, hmessage, List.nil_append] at hstring
  have hpart := List.takeWhile_prefix (p := fun c : Byte => decide (c ≠ 0)) (l := l.take 511)
  rw [Option.some.inj hstring] at hpart
  have hlen := hpart.length_le
  rw [List.length_take] at hlen
  exact hverbatim (by omega)

/-- Text without conversions is logged as it is, if a NUL comes after it. -/
theorem logs_of_verbatim {q : LogFifo} (hk : k.Holds q) (hfd : fd = stdoutFd ∨ fd = stderrFd)
    (hnul : 0 ∉ text) (hlen : text.length ≤ 511) (h : Verbatim text) :
    Logs k b fd (text ++ [0]) count text := by
  obtain ⟨F, hspell, hargs, hprinted⟩ := h.exists_format hnul
  obtain ⟨level, heq⟩ := sysWrite_eq k b (text ++ [0]) count hfd
  obtain ⟨b', -, hroute⟩ := F.printkVroute_eq k b level
  have hwhole : (F.printed.take 511).takeWhile (· ≠ 0) = text := by
    rw [hprinted, List.take_of_length_le hlen, List.takeWhile_eq_self_iff]
    intro c hc
    simpa using fun hzero : c = 0 => hnul (hzero ▸ hc)
  have hshort : ∀ t, some text = some t → t.length < 2 ^ 31 := by
    rintro _ ⟨⟩
    omega
  obtain ⟨k', hwrite, -⟩ := hk.logWriteStr level hshort
  rw [hspell, hargs, hwhole, hwrite, Option.map_some] at hroute
  exact ⟨_, heq.trans hroute, rfl⟩

end Call

/-- **`sys_write` never logs exactly the bytes counted without reading a byte after them.** If the byte
after them may be read, it logs them exactly where that byte is a NUL, none of them is, and none of them
starts a conversion. -/
theorem sys_write_exact_never {k : Klog} {q : LogFifo} (hk : k.Holds q) (b : PrintkBuf)
    {fd : BitVec 32} (hfd : fd = stdoutFd ∨ fd = stderrFd) (buf : List Byte) (count : BitVec 32)
    (hcount : count.toNat ≤ buf.length) (hmax : count.toNat < 512) :
    ¬ Logs k b fd (buf.take count.toNat) count (buf.take count.toNat) ∧
      (Logs k b fd (buf.take (count.toNat + 1)) count (buf.take count.toNat) ↔
        buf[count.toNat]? = some 0 ∧ 0 ∉ buf.take count.toNat ∧ Verbatim (buf.take count.toNat)) := by
  have hnever : ¬ Logs k b fd (buf.take count.toNat) count (buf.take count.toNat) := by
    intro h
    obtain ⟨hmem, hnot⟩ := h.nul hfd
    exact hnot hmem
  have hlen : (buf.take count.toNat).length ≤ 511 := by
    rw [List.length_take]
    omega
  have hnext : buf.take (count.toNat + 1) = buf.take count.toNat ++ buf[count.toNat]?.toList :=
    List.take_add_one
  refine ⟨hnever, ⟨fun h => ?_, ?_⟩⟩
  · obtain ⟨hmem, hnot⟩ := h.nul hfd
    -- the NUL that ends the loop can only be the byte after the text
    have hzero : buf[count.toNat]? = some 0 := by
      rw [hnext, List.mem_append] at hmem
      exact Option.mem_toList.mp (hmem.resolve_left hnot)
    rw [hnext, hzero] at h
    exact ⟨hzero, hnot, Logs.verbatim hfd h⟩
  · rintro ⟨hzero, hnot, hverbatim⟩
    rw [hnext, hzero]
    exact logs_of_verbatim hk hfd hnot hlen hverbatim

/-- Two letters and a NUL, of which two are to be written. -/
theorem sys_write_exact_never_hi :
    let buf : List Byte := [ascii 'h', ascii 'i', 0]
    ¬ Logs Klog.static.logInit ⟨fun _ => 0, 0, 0⟩ stdoutFd (buf.take 2) 2 (buf.take 2) ∧
      (Logs Klog.static.logInit ⟨fun _ => 0, 0, 0⟩ stdoutFd (buf.take 3) 2 (buf.take 2) ↔
        buf[2]? = some 0 ∧ 0 ∉ buf.take 2 ∧ Verbatim (buf.take 2)) :=
  sys_write_exact_never (Klog.holds_logInit _) _ (.inl rfl) [ascii 'h', ascii 'i', 0] 2 (by decide)
    (by decide)

/-- `"%d"`: an argument is read that nobody passed. `"%%"`: one character is logged instead of two.
Two letters of a longer text: all of it is logged. -/
theorem sys_write_formats :
    (sysWrite Klog.static.logInit ⟨fun _ => 0, 0, 0⟩ stdoutFd (some [ascii '%', ascii 'd', 0]) 2).isNone ∧
      (sysWrite Klog.static.logInit ⟨fun _ => 0, 0, 0⟩ stdoutFd (some [ascii '%', ascii '%', 0]) 2).map
        (·.message) = some (some [ascii '%']) ∧
      (sysWrite Klog.static.logInit ⟨fun _ => 0, 0, 0⟩ stdoutFd
          (some [ascii 'h', ascii 'i', ascii '!', 0]) 2).map
        (·.message) = some (some [ascii 'h', ascii 'i', ascii '!']) := by
  decide +kernel

end Arcline
