import Mathlib.Data.List.DropRight
import Arcline.Dtb.Stdout

set_option autoImplicit false

/-! # Strings in buffers

The loops of `dtb_get_stdout_uart_base` copy, extend, cut and compare strings byte by byte. Each is given
its meaning on lists of bytes, together with the indices it writes.
-/

namespace Arcline

namespace Fdt

variable {fdt f g : Nat → Byte} {off n src i : Nat} {s t : List Byte} {b : Buf} {x : Byte}

theorem startsWith_congr (h : ∀ i, off ≤ i → i < off + s.length → f i = g i) :
    startsWith f off s = startsWith g off s := by
  induction s generalizing off with
  | nil => rfl
  | cons a s ih =>
      rw [startsWith, startsWith, h off (Nat.le_refl off) (by simp), ih]
      intro i hi hlt
      exact h i (by omega) (by rw [List.length_cons]; omega)

theorem startsWith_cons : startsWith f off (x :: s) = true ↔
    f off = x ∧ startsWith f (off + 1) s = true := by
  rw [startsWith, Bool.and_eq_true, beq_iff_eq]

theorem startsWith_left (h : startsWith f off (s ++ t) = true) : startsWith f off s = true := by
  rw [startsWith_append, Bool.and_eq_true] at h
  exact h.1

/-! ## Reading -/

/-- The part of a `stdout-path` value that names a node. -/
def pathToken (data : List Byte) : List Byte := data.takeWhile fun c => c ≠ 0 && c ≠ 0x3a && c ≠ 0x2c

/-- The string a value starts with. -/
def cString (data : List Byte) : List Byte := data.takeWhile fun c => c ≠ 0

theorem zero_not_mem_pathToken (data : List Byte) : 0 ∉ pathToken data := by
  intro h
  have := List.mem_takeWhile_imp h
  simp at this

theorem zero_not_mem_cString (data : List Byte) : 0 ∉ cString data := by
  intro h
  have := List.mem_takeWhile_imp h
  simp at this

theorem startsWith_pathToken (h : startsWith fdt off s = true) :
    startsWith fdt off (pathToken s) = true := by
  rw [← List.takeWhile_append_dropWhile (p := fun c => c ≠ 0 && c ≠ 0x3a && c ≠ 0x2c) (l := s)] at h
  exact startsWith_left h

theorem pathTokenLen_eq (h : startsWith fdt off s = true) :
    pathTokenLen fdt s.length off = (pathToken s).length := by
  induction s generalizing off with
  | nil => rfl
  | cons c s ih =>
      obtain ⟨hc, hs⟩ := startsWith_cons.mp h
      rw [List.length_cons, pathTokenLen, hc, ih hs, pathToken, pathToken, List.takeWhile_cons]
      by_cases htoken : c ≠ 0 ∧ c ≠ 0x3a ∧ c ≠ 0x2c
      · rw [if_pos htoken, if_pos (by simpa [and_assoc] using htoken), List.length_cons]
      · rw [if_neg htoken, if_neg (by simpa [and_assoc] using htoken), List.length_nil]

theorem startsWith_cString (h : startsWith fdt off (s ++ [0]) = true) :
    startsWith fdt off (cString s ++ [0]) = true := by
  induction s generalizing off with
  | nil => exact h
  | cons c s ih =>
      rw [List.cons_append, startsWith_cons] at h
      rw [cString, List.takeWhile_cons]
      by_cases hc : c = 0
      · rw [if_neg (by simp [hc])]
        exact startsWith_cons.mpr ⟨h.1.trans hc, rfl⟩
      · rw [if_pos (by simpa using hc), List.cons_append, startsWith_cons]
        exact ⟨h.1, ih h.2⟩

/-- The name of an alias is compared with the token in full. -/
theorem aliasMatches_eq {an tok : Nat} (han : startsWith fdt an (s ++ [0]) = true) (hs : 0 ∉ s)
    (htok : startsWith fdt tok t = true) (ht : 0 ∉ t) :
    aliasMatches fdt t.length an tok = (s == t) := by
  induction t generalizing s an tok with
  | nil =>
      rw [List.length_nil, aliasMatches]
      cases s with
      | nil => rw [(startsWith_cons.mp han).1]; rfl
      | cons c s =>
          rw [(startsWith_cons.mp han).1]
          simp only [List.mem_cons, not_or] at hs
          simpa using Ne.symm hs.1
  | cons d t ih =>
      simp only [List.mem_cons, not_or] at ht
      obtain ⟨hd, htok⟩ := startsWith_cons.mp htok
      rw [List.length_cons, aliasMatches, hd]
      cases s with
      | nil =>
          rw [(startsWith_cons.mp han).1]
          rfl
      | cons c s =>
          simp only [List.mem_cons, not_or] at hs
          obtain ⟨hc, han⟩ := startsWith_cons.mp han
          rw [hc]
          by_cases hcd : c = d
          · rw [if_pos ⟨Ne.symm hs.1, Ne.symm ht.1, hcd⟩, ih han hs.2 htok ht.2, hcd]
            simp
          · rw [if_neg fun h => hcd h.2.2]
            simp [hcd]

/-- `path_equals` compares two strings in full. -/
theorem pathEquals_eq (hf : startsWith f i (s ++ [0]) = true) (hs : 0 ∉ s)
    (hg : startsWith g i (t ++ [0]) = true) (ht : 0 ∉ t) {fuel : Nat} (hfuel : s.length < fuel) :
    pathEquals f g fuel i = some (s == t) := by
  induction s generalizing t i fuel with
  | nil =>
      rcases fuel with _ | fuel
      · omega
      rw [pathEquals, (startsWith_cons.mp hf).1, if_neg (by simp)]
      cases t with
      | nil => rw [(startsWith_cons.mp hg).1]; rfl
      | cons d t =>
          simp only [List.mem_cons, not_or] at ht
          rw [(startsWith_cons.mp hg).1]
          simpa using Ne.symm ht.1
  | cons c s ih =>
      rw [List.length_cons] at hfuel
      rcases fuel with _ | fuel
      · omega
      simp only [List.mem_cons, not_or] at hs
      obtain ⟨hc, hf⟩ := startsWith_cons.mp hf
      rw [pathEquals, hc]
      cases t with
      | nil =>
          rw [(startsWith_cons.mp hg).1, if_neg (by simp)]
          simpa using Ne.symm hs.1
      | cons d t =>
          simp only [List.mem_cons, not_or] at ht
          obtain ⟨hd, hg⟩ := startsWith_cons.mp hg
          rw [hd, if_pos ⟨Ne.symm hs.1, Ne.symm ht.1⟩]
          by_cases hcd : c = d
          · rw [if_neg (not_not.mpr hcd), ih hf hs.2 hg ht.2 (by omega), hcd]
            simp
          · rw [if_pos hcd]
            simp [hcd]

/-! ## Writing -/

namespace Buf

/-- The buffer starts with these bytes. -/
def Holds (b : Buf) (s : List Byte) : Prop := startsWith b.bytes 0 s = true

theorem Holds.set_of_le (h : b.Holds s) (hn : s.length ≤ n) (x : Byte) : (b.set n x).Holds s := by
  unfold Holds at h ⊢
  rw [← h]
  refine startsWith_congr fun i _ hi => if_neg ?_
  omega

theorem Holds.set (h : b.Holds s) (x : Byte) : (b.set s.length x).Holds (s ++ [x]) := by
  have hs := h.set_of_le (Nat.le_refl s.length) x
  unfold Holds at hs ⊢
  rw [startsWith_append, hs, Bool.true_and, Nat.zero_add, startsWith_cons]
  exact ⟨if_pos rfl, rfl⟩

theorem Holds.left (h : b.Holds (s ++ t)) : b.Holds s := startsWith_left h

/-- Cut a string short. -/
theorem Holds.take (h : b.Holds s) (hn : n ≤ s.length) : (b.set n 0).Holds (s.take n ++ [0]) := by
  have htake : b.Holds (s.take n) := by
    rw [← List.take_append_drop n s] at h
    exact h.left
  have hset := htake.set 0
  rw [List.length_take, Nat.min_eq_left hn] at hset
  exact hset

/-- From `b` to `b'`, the indices from `i` on and below `j` are written. -/
def Writes (b b' : Buf) (i j : Nat) : Prop :=
  ∀ k, k ∈ b'.written ↔ k ∈ b.written ∨ (i ≤ k ∧ k < j)

theorem writes_none (b : Buf) (i : Nat) : b.Writes b i i := by
  intro k
  rw [or_iff_left fun h => absurd (Nat.lt_of_le_of_lt h.1 h.2) (Nat.lt_irrefl i)]

theorem writes_set (b : Buf) (i : Nat) (x : Byte) : b.Writes (b.set i x) i (i + 1) := by
  intro k
  show k ∈ i :: b.written ↔ _
  rw [List.mem_cons, or_comm]
  refine or_congr_right ?_
  omega

theorem Writes.trans {b b' b'' : Buf} {i j k : Nat} (h : b.Writes b' i j)
    (h' : b'.Writes b'' j k) (hij : i ≤ j) (hjk : j ≤ k) : b.Writes b'' i k := by
  intro m
  rw [h' m, h m, or_assoc]
  refine or_congr_right ?_
  omega

/-- Writing below `j` stays in bounds just if `j` does. -/
theorem Writes.lt_iff {b b' : Buf} {i j size : Nat} (h : b.Writes b' i j) (hij : i < j) :
    (∀ k ∈ b'.written, k < size) ↔ (∀ k ∈ b.written, k < size) ∧ j ≤ size := by
  constructor
  · intro hall
    have hlast := hall (j - 1) ((h (j - 1)).mpr (.inr ⟨by omega, by omega⟩))
    exact ⟨fun k hk => hall k ((h k).mpr (.inl hk)), by omega⟩
  · rintro ⟨hold, hj⟩ k hk
    rcases (h k).mp hk with hk | hk
    · exact hold k hk
    · omega

end Buf

theorem copyBytes_eq (h : b.Holds t) (hs : startsWith fdt src s = true) :
    (copyBytes fdt s.length src t.length b).Holds (t ++ s ++ [0]) ∧
      b.Writes (copyBytes fdt s.length src t.length b) t.length (t.length + s.length + 1) := by
  induction s generalizing t src b with
  | nil =>
      rw [List.append_nil]
      exact ⟨h.set 0, b.writes_set _ 0⟩
  | cons c s ih =>
      obtain ⟨hc, hs⟩ := startsWith_cons.mp hs
      obtain ⟨hholds, hwrites⟩ := ih (h.set c) hs
      rw [List.length_append, List.length_singleton] at hholds hwrites
      rw [List.length_cons, copyBytes, hc]
      refine ⟨?_, ?_⟩
      · rwa [List.append_assoc t [c] s] at hholds
      · have hall := (b.writes_set t.length c).trans hwrites (by omega) (by omega)
        rwa [show t.length + 1 + s.length + 1 = t.length + (s.length + 1) + 1 by omega] at hall

/-- A string is copied up to `n` bytes. -/
theorem copyString_eq (h : b.Holds t) (hs : startsWith fdt src (s ++ [0]) = true) (hzero : 0 ∉ s)
    (n : Nat) :
    (copyString fdt n src t.length b).Holds (t ++ s.take n ++ [0]) ∧
      ∃ j, b.Writes (copyString fdt n src t.length b) t.length j ∧ t.length < j ∧
        j ≤ t.length + n + 1 := by
  induction n generalizing s t src b with
  | zero =>
      rw [List.take_zero, List.append_nil]
      exact ⟨h.set 0, t.length + 1, b.writes_set _ 0, Nat.lt_succ_self _, Nat.le_refl _⟩
  | succ n ih =>
      rw [copyString]
      cases s with
      | nil =>
          rw [if_neg (by rw [(startsWith_cons.mp hs).1]; simp), List.take_nil, List.append_nil]
          exact ⟨h.set 0, t.length + 1, b.writes_set _ 0, Nat.lt_succ_self _, by omega⟩
      | cons c s =>
          simp only [List.mem_cons, not_or] at hzero
          obtain ⟨hc, hs⟩ := startsWith_cons.mp hs
          obtain ⟨hholds, j, hwrites, hlt, hle⟩ := ih (h.set c) hs hzero.2
          rw [List.length_append, List.length_singleton] at hholds hwrites hlt hle
          rw [if_pos (by rw [hc]; exact Ne.symm hzero.1), hc, List.take_succ_cons]
          refine ⟨?_, j, ?_, by omega, by omega⟩
          · rwa [List.append_assoc t [c]] at hholds
          · exact (b.writes_set t.length c).trans hwrites (by omega) (by omega)

/-! ## Paths

A path starts with a `/`; the rest of it is what is extended and cut. -/

/-- A path, ready for the next component. -/
def separated (path : List Byte) : List Byte := if path = [] then [] else path ++ [slash]

/-- The path after a node is entered: the buffer has room for 254 bytes behind the first `/`, and a
name is cut where they end. -/
def enterPath (path name : List Byte) : List Byte :=
  separated path ++ name.take (254 - (separated path).length)

/-- The path without its last component. -/
def leavePath (path : List Byte) : List Byte := (path.rdropWhile fun c => c != slash).dropLast

theorem appendName_eq (h : b.Holds t) (hs : startsWith fdt src s = true) :
    ∃ b', appendName fdt s.length src t.length b =
        (b', (t ++ s.take (255 - t.length)).length) ∧
      b'.Holds (t ++ s.take (255 - t.length)) ∧
      b.Writes b' t.length (t ++ s.take (255 - t.length)).length := by
  induction s generalizing t src b with
  | nil =>
      rw [List.take_nil, List.append_nil]
      exact ⟨b, rfl, h, b.writes_none _⟩
  | cons c s ih =>
      rw [List.length_cons, appendName]
      by_cases hlt : t.length < 255
      · obtain ⟨hc, hs⟩ := startsWith_cons.mp hs
        obtain ⟨b', happend, hholds, hwrites⟩ := ih (h.set c) hs
        have htake : t ++ (c :: s).take (255 - t.length) =
            t ++ [c] ++ s.take (255 - (t ++ [c]).length) := by
          rw [List.length_append, List.length_singleton,
            show 255 - t.length = 255 - (t.length + 1) + 1 by omega, List.take_succ_cons,
            List.append_assoc]
          rfl
        rw [if_pos hlt, hc, htake]
        refine ⟨b', ?_, hholds, ?_⟩
        · rw [← happend, List.length_append, List.length_singleton]
        · have hlen : (t ++ [c]).length = t.length + 1 := by simp
          rw [hlen] at hwrites ⊢
          refine (b.writes_set t.length c).trans hwrites (by omega) ?_
          rw [List.length_append, hlen]
          omega
      · rw [if_neg hlt, show 255 - t.length = 0 by omega, List.take_zero, List.append_nil]
        exact ⟨b, rfl, h, b.writes_none _⟩

variable {path name : List Byte} {fuel : Nat}

theorem nameLen_of_holds (h : b.Holds (slash :: path ++ [0])) (hzero : 0 ∉ path)
    (hfuel : path.length + 1 < fuel) : nameLen b.bytes fuel 0 0 = some (path.length + 1) := by
  have hmem : 0 ∉ slash :: path := by
    rw [List.mem_cons, not_or]
    exact ⟨by decide, hzero⟩
  rw [nameLen_eq h hmem hfuel 0, List.length_cons, Nat.zero_add]

/-- The separator is written unless the path is that of the root. -/
theorem separate_eq (h : b.Holds (slash :: path)) :
    ∃ b', (if 1 < path.length + 1 then (b.set (path.length + 1) slash, path.length + 1 + 1)
        else (b, path.length + 1)) = (b', (slash :: separated path).length) ∧
      b'.Holds (slash :: separated path) ∧
      b.Writes b' (path.length + 1) (slash :: separated path).length := by
  by_cases hpath : path = []
  · subst hpath
    exact ⟨b, rfl, h, b.writes_none 1⟩
  · have hpos : 0 < path.length := List.length_pos_iff.mpr hpath
    have hlen : (slash :: (path ++ [slash])).length = path.length + 1 + 1 := by simp
    rw [if_pos (by omega), separated, if_neg hpath, hlen]
    exact ⟨b.set (path.length + 1) slash, rfl, h.set slash, b.writes_set _ _⟩

theorem pushPath_eq (h : b.Holds (slash :: path ++ [0])) (hzero : 0 ∉ path)
    (hname : startsWith fdt off name = true) (hfuel : path.length + 1 < fuel) :
    ∃ b', pushPath fdt fuel off name.length b = some b' ∧
      b'.Holds (slash :: enterPath path name ++ [0]) ∧
      b.Writes b' (path.length + 1) ((enterPath path name).length + 2) := by
  obtain ⟨b₁, hb₁, hholds₁, hwrites₁⟩ := separate_eq h.left
  obtain ⟨b₂, hb₂, hholds₂, hwrites₂⟩ := appendName_eq hholds₁ hname
  have hstring : slash :: separated path ++ name.take (255 - (slash :: separated path).length) =
      slash :: enterPath path name := by
    rw [List.length_cons, show 255 - ((separated path).length + 1) = 254 - (separated path).length by
      omega]
    rfl
  rw [hstring] at hb₂ hholds₂ hwrites₂
  have hle : path.length + 1 ≤ (slash :: separated path).length := by
    unfold separated
    split
    · rename_i hpath
      simp [hpath]
    · simp
  have hle' : (slash :: separated path).length ≤ (slash :: enterPath path name).length := by
    rw [← hstring, List.length_append]
    omega
  unfold pushPath
  rw [nameLen_of_holds h hzero hfuel, Option.map_some, hb₁]
  dsimp only
  rw [hb₂]
  refine ⟨_, rfl, hholds₂.set 0, ?_⟩
  exact (hwrites₁.trans hwrites₂ hle hle').trans (b₂.writes_set _ 0) (hle.trans hle')
    (Nat.le_succ _)

theorem lastComponent_eq (h : startsWith f 0 (slash :: path) = true) :
    lastComponent f (path.length + 1) = (path.rdropWhile fun c => c != slash).length + 1 := by
  induction path using List.reverseRecOn with
  | nil => rfl
  | append_singleton path c ih =>
      rw [← List.cons_append, startsWith_append, Bool.and_eq_true] at h
      have hc : f (path.length + 1) = c := by
        have := (startsWith_cons.mp h.2).1
        rwa [Nat.zero_add, List.length_cons] at this
      rw [List.length_append, List.length_singleton, lastComponent, hc, List.rdropWhile_concat]
      by_cases hslash : c = slash
      · rw [if_neg (not_not.mpr hslash), if_neg (by simp [hslash]), List.length_append,
          List.length_singleton]
      · rw [if_pos hslash, if_pos (by simpa using hslash), ih h.1]

theorem popPath_eq (h : b.Holds (slash :: path ++ [0])) (hzero : 0 ∉ path)
    (hfuel : path.length + 1 < fuel) :
    ∃ b', popPath fuel b = some b' ∧ b'.Holds (slash :: leavePath path ++ [0]) ∧
      b.Writes b' ((leavePath path).length + 1) ((leavePath path).length + 2) := by
  have hpre : (path.rdropWhile fun c => c != slash) <+: path := List.rdropWhile_prefix _ path
  unfold popPath leavePath
  rw [nameLen_of_holds h hzero hfuel, Option.map_some, lastComponent_eq h.left]
  dsimp only
  generalize hrest : path.rdropWhile (fun c => c != slash) = rest at hpre
  have hle := hpre.length_le
  by_cases hnil : rest = []
  · subst hnil
    refine ⟨b.set 1 0, rfl, ?_, b.writes_set _ _⟩
    have hcut := Buf.Holds.take (n := 1) h.left (by simp)
    rwa [List.take_succ_cons, List.take_zero] at hcut
  · have hpos : 0 < rest.length := List.length_pos_iff.mpr hnil
    have hlen : rest.dropLast.length + 1 = rest.length := by
      rw [List.length_dropLast]
      omega
    rw [if_pos (by omega), Nat.add_sub_cancel]
    refine ⟨b.set rest.length 0, rfl, ?_, ?_⟩
    · have hcut := Buf.Holds.take (n := rest.length) h.left (by rw [List.length_cons]; omega)
      have htake : (slash :: path).take rest.length = slash :: rest.dropLast := by
        rw [← hlen, List.take_succ_cons,
          ← List.prefix_iff_eq_take.mp ((List.dropLast_prefix rest).trans hpre)]
      rwa [htake] at hcut
    · rw [show rest.dropLast.length + 2 = rest.length + 1 by omega, hlen]
      exact b.writes_set _ _

end Fdt

end Arcline
