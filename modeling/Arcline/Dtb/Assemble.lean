import Arcline.Dtb.Stream

set_option autoImplicit false

/-! # Assembling a blob

The blob of a list of tokens: a header, the structure block, and the strings block with the names of the
properties one after the other. Every well-formed tree has such a blob, with `NOP` tokens wherever they
are wanted.
-/

namespace Arcline

namespace Fdt

def cellBytes (n : Nat) : List Byte :=
  [BitVec.ofNat 8 (n / 2 ^ 24), BitVec.ofNat 8 (n / 2 ^ 16), BitVec.ofNat 8 (n / 2 ^ 8),
    BitVec.ofNat 8 n]

/-- The structure block; the names of properties lie one after the other in the strings block, from
`off` on. -/
def structBytes : Nat → List (Option Token) → List Byte
  | _, [] => cellBytes 9
  | off, none :: ts => cellBytes 4 ++ structBytes off ts
  | off, some (.beginNode name) :: ts => cellBytes 1 ++ pad (name ++ [0]) ++ structBytes off ts
  | off, some (.prop name data) :: ts =>
      cellBytes 3 ++ cellBytes data.length ++ cellBytes off ++ pad data ++
        structBytes (off + name.length + 1) ts
  | off, some .endNode :: ts => cellBytes 2 ++ structBytes off ts

def stringBytes (ts : List (Option Token)) : List Byte :=
  ts.flatMap fun
    | some (.prop name _) => name ++ [0]
    | _ => []

/-- A header, the structure block and the strings block. -/
def assemble (ts : List (Option Token)) : List Byte :=
  let block := structBytes 0 ts
  let strings := stringBytes ts
  [0xd00dfeed, 40 + block.length + strings.length, 40, 40 + block.length, 0, 17, 16, 0,
    strings.length, block.length].flatMap cellBytes ++ block ++ strings

def blobOf (ts : List (Option Token)) (i : Nat) : Byte := (assemble ts).getD i 0

/-! ## Bytes at a place -/

/-- The bytes from place `off` on start with `s`. -/
def At (bytes : List Byte) (off : Nat) (s : List Byte) : Prop :=
  ∃ pre post, bytes = pre ++ (s ++ post) ∧ pre.length = off

variable {bytes s t : List Byte} {off : Nat}

theorem At.append (h : At bytes off (s ++ t)) : At bytes off s ∧ At bytes (off + s.length) t := by
  obtain ⟨pre, post, rfl, rfl⟩ := h
  refine ⟨⟨pre, t ++ post, by rw [List.append_assoc], rfl⟩, ⟨pre ++ s, post, ?_, ?_⟩⟩
  · simp only [List.append_assoc]
  · rw [List.length_append]

theorem At.le (h : At bytes off s) : off + s.length ≤ bytes.length := by
  obtain ⟨pre, post, rfl, rfl⟩ := h
  simp only [List.length_append]
  omega

theorem At.startsWith (h : At bytes off s) : startsWith (fun i => bytes.getD i 0) off s = true := by
  induction s generalizing off with
  | nil => rfl
  | cons c s ih =>
      have hrest : At bytes (off + 1) s := (At.append (s := [c]) h).2
      obtain ⟨pre, post, rfl, rfl⟩ := h
      rw [Fdt.startsWith, ih hrest, Bool.and_true, beq_iff_eq]
      simp [List.getD_eq_getElem?_getD]

theorem At.be32 {n : Nat} (h : At bytes off (cellBytes n)) :
    be32 (fun i => bytes.getD i 0) off = BitVec.ofNat 32 n := by
  have hcell : cell (cellBytes n) = BitVec.ofNat 32 n := by
    apply BitVec.eq_of_toNat_eq
    rw [cellBytes, cell, append_byte_toNat, append_byte_toNat, append_byte_toNat]
    simp only [BitVec.toNat_ofNat]
    omega
  rw [be32_eq_cell h.startsWith (Nat.le_refl 4), hcell]

theorem At.cell_append {n : Nat} (h : At bytes off (cellBytes n ++ t)) :
    At bytes off (cellBytes n) ∧ At bytes (off + 4) t := h.append

theorem length_pad (data : List Byte) : (pad data).length = 4 * ((data.length + 3) / 4) := by
  rw [pad, List.length_rightpad]
  omega

/-- The names of a token have no zero byte. -/
def Token.plain : Token → Bool
  | .beginNode name => !name.contains 0
  | .prop name _ => !name.contains 0
  | .endNode => true

/-- The structure block and the strings block are read back. -/
theorem stream_of_at {ts : List (Option Token)} (hplain : ts.reduceOption.all Token.plain = true)
    (hlen : bytes.length ≤ 2 ^ 32) {strings : Nat}
    (hstrings : (offStrings fun i => bytes.getD i 0).toNat = strings) {p : Nat}
    (hstruct : At bytes p (structBytes off ts)) (hnames : At bytes (strings + off) (stringBytes ts)) :
    Stream (fun i => bytes.getD i 0) p ts := by
  induction ts generalizing p off with
  | nil => exact ⟨hstruct.le.trans hlen, hstruct.be32⟩
  | cons token ts ih =>
      match token, hplain, hstruct, hnames with
      | none, hplain, hstruct, hnames =>
          exact ⟨hstruct.append.1.be32, ih hplain hstruct.append.2 hnames⟩
      | some (.beginNode name), hplain, hstruct, hnames =>
          rw [List.reduceOption_cons_of_some, List.all_cons, Bool.and_eq_true] at hplain
          rw [structBytes, List.append_assoc] at hstruct
          obtain ⟨htoken, hrest⟩ := hstruct.append
          obtain ⟨hname, hrest⟩ := hrest.append
          rw [length_pad, List.length_append, List.length_singleton] at hrest
          exact ⟨htoken.be32, (At.append hname).1.startsWith, by simpa [Token.plain] using hplain.1,
            ih hplain.2 hrest hnames⟩
      | some (.prop name data), hplain, hstruct, hnames =>
          rw [List.reduceOption_cons_of_some, List.all_cons, Bool.and_eq_true] at hplain
          rw [structBytes, List.append_assoc, List.append_assoc, List.append_assoc] at hstruct
          obtain ⟨htoken, hrest⟩ := hstruct.cell_append
          obtain ⟨hlenCell, hrest⟩ := hrest.cell_append
          obtain ⟨hoffCell, hrest⟩ := hrest.cell_append
          obtain ⟨hdata, hrest⟩ := hrest.append
          rw [length_pad] at hrest
          have hnames : At bytes (strings + off) (name ++ [0] ++ stringBytes ts) := hnames
          obtain ⟨hname, hnames⟩ := hnames.append
          -- lengths and offsets are below the length of the blob
          have hdataLen := hdata.le
          have hnameLen := hname.le
          rw [length_pad] at hdataLen
          rw [List.length_append, List.length_singleton] at hnameLen hnames
          have hoff : (be32 (fun i => bytes.getD i 0) (p + 8)).toNat = off := by
            rw [hoffCell.be32, BitVec.toNat_ofNat]
            omega
          refine ⟨htoken.be32, ?_, ?_, by simpa [Token.plain] using hplain.1, hdata.startsWith,
            ih hplain.2 hrest ?_⟩
          · rw [hlenCell.be32, BitVec.toNat_ofNat]
            omega
          · rw [hstrings, hoff]
            exact hname.startsWith
          · rwa [Nat.add_assoc strings off, ← Nat.add_assoc off] at hnames
      | some .endNode, hplain, hstruct, hnames =>
          exact ⟨hstruct.append.1.be32, ih hplain hstruct.append.2 hnames⟩

/-- The header, the structure block and the strings block are where they should be. -/
theorem assemble_at (ts : List (Option Token)) :
    At (assemble ts) 0 (cellBytes 0xd00dfeed) ∧ At (assemble ts) 8 (cellBytes 40) ∧
      At (assemble ts) 12 (cellBytes (40 + (structBytes 0 ts).length)) ∧
      At (assemble ts) 40 (structBytes 0 ts) ∧
      At (assemble ts) (40 + (structBytes 0 ts).length) (stringBytes ts) := by
  have hall : At (assemble ts) 0 (assemble ts) :=
    ⟨[], [], by rw [List.append_nil, List.nil_append], rfl⟩
  obtain ⟨hblocks, hstrings⟩ := At.append hall
  obtain ⟨hheader, hstruct⟩ := At.append hblocks
  simp only [List.flatMap_cons] at hheader
  obtain ⟨hmagic, hrest⟩ := hheader.cell_append
  obtain ⟨-, hrest⟩ := hrest.cell_append
  obtain ⟨hoffStruct, hrest⟩ := hrest.cell_append
  refine ⟨hmagic, hoffStruct, hrest.cell_append.1, hstruct, ?_⟩
  rwa [List.length_append, Nat.zero_add] at hstrings

theorem stream_blobOf {ts : List (Option Token)} (hplain : ts.reduceOption.all Token.plain = true)
    (hlen : (assemble ts).length < 2 ^ 32) :
    be32 (blobOf ts) 0 = magic ∧ (offStruct (blobOf ts)).toNat = 40 ∧ Stream (blobOf ts) 40 ts := by
  obtain ⟨hmagic, hoffStruct, hoffStrings, hstruct, hstrings⟩ := assemble_at ts
  refine ⟨hmagic.be32, congrArg BitVec.toNat hoffStruct.be32, ?_⟩
  have hoff : (offStrings (blobOf ts)).toNat = 40 + (structBytes 0 ts).length := by
    have hle := hstrings.le
    show (be32 (fun i => (assemble ts).getD i 0) 12).toNat = _
    rw [hoffStrings.be32, BitVec.toNat_ofNat]
    omega
  exact stream_of_at hplain hlen.le hoff hstruct hstrings

end Fdt

/-- A boot with the blob of these tokens. -/
def blobEnv (ts : List (Option Fdt.Token)) : BootEnv := { oneBank 0 0 with fdt := Fdt.blobOf ts }

open Fdt

/-- Every well-formed tree has a well-formed blob. -/
theorem flattened_blobEnv {ts : List (Option Token)} {root : Node}
    (htokens : ts.reduceOption = root.tokens)
    (h : root.WellFormed ∧ ts.reduceOption.all Token.plain = true ∧ (assemble ts).length < 2 ^ 32) :
    (blobEnv ts).Flattened ts root := by
  obtain ⟨hroot, hplain, hlen⟩ := h
  obtain ⟨hmagic, hoff, hstream⟩ := stream_blobOf hplain hlen
  refine ⟨show (0x48000000 : Word) ≠ 0 by decide, hmagic, ?_, ?_, htokens, hroot⟩
  · show 4 ∣ (offStruct (blobOf ts)).toNat
    rw [hoff]
    decide
  · show Stream (blobOf ts) (offStruct (blobOf ts)).toNat ts
    rw [hoff]
    exact hstream

end Arcline
