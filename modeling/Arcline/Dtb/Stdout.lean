import Arcline.Dtb.Walk

set_option autoImplicit false

/-! # The UART of `/chosen`

`dtb_get_stdout_uart_base` goes over the blob twice. The first pass collects the `stdout-path` of
`/chosen` and the entries of `/aliases`; the path they give is copied to `resolved_path_buf`. The second
pass spells the path of each node in `current_path` and takes the base address from the node whose path
is the one looked for.

The places written in the four arrays of the function are recorded. Memory behind an array is taken to
keep what is written there.
-/

namespace Arcline

namespace Fdt

/-- An array of bytes, with the indices written so far. -/
structure Buf where
  bytes : Nat → Byte
  written : List Nat

def Buf.set (b : Buf) (i : Nat) (x : Byte) : Buf :=
  ⟨fun j => if j = i then x else b.bytes j, i :: b.written⟩

/-! ## The first pass -/

/-- The variables of the first pass: the depth, `stdout_token` with its length, the alias table as
pairs of name and path, and the indices written in `current_path_stack` and in the alias table. -/
structure Collected where
  depth : Int
  stdoutToken : Option (Nat × Nat)
  aliases : List (Nat × Nat)
  stackWrites : List Int
  aliasWrites : List Nat

/-- What is local to a node in the first pass. -/
structure InNode where
  inChosen : Bool
  inAliases : Bool

/-- `extract_path_token`: the length of the token at `off`, of a value of which `n` bytes are left. -/
def pathTokenLen (fdt : Nat → Byte) : Nat → Nat → Nat
  | 0, _ => 0
  | n + 1, off =>
      if fdt off ≠ 0 ∧ fdt off ≠ 0x3a ∧ fdt off ≠ 0x2c then pathTokenLen fdt n (off + 1) + 1 else 0

/-- The first pass of `dtb_get_stdout_uart_base`. -/
def collect (fdt : Nat → Byte) : Pass Collected InNode Collected where
  enter _ s name _ :=
    let s :=
      if s.depth < 16 then
        { s with depth := s.depth + 1, stackWrites := s.depth :: s.stackWrites }
      else s
    some (s,
      { inChosen := s.depth = 2 && startsWith fdt name (bytesOf "chosen")
        inAliases := s.depth = 2 && startsWith fdt name (bytesOf "aliases") })
  prop k s pname pdata len :=
    .ok <|
      if k.inChosen && (startsWith fdt pname (bytesOf "stdout-path") ||
          startsWith fdt pname (bytesOf "stdout")) then
        { s with stdoutToken := some (pdata, pathTokenLen fdt len.toNat pdata) }
      else if k.inAliases && s.aliases.length < 16 then
        { s with
          aliases := s.aliases ++ [(pname, pdata)]
          aliasWrites := s.aliases.length :: s.aliasWrites }
      else s
  leave _ s := some { s with depth := s.depth - 1 }
  up s := if 0 < s.depth then { s with depth := s.depth - 1 } else s
  stop s := s

/-! ## Resolving the path -/

/-- The loop that copies `n` bytes to `resolved_path_buf`, from index `i` on, and ends the string. -/
def copyBytes (fdt : Nat → Byte) : Nat → Nat → Nat → Buf → Buf
  | 0, _, i, b => b.set i 0
  | n + 1, src, i, b => copyBytes fdt n (src + 1) (i + 1) (b.set i (fdt src))

/-- The loop that copies a string of at most `n` bytes. -/
def copyString (fdt : Nat → Byte) : Nat → Nat → Nat → Buf → Buf
  | 0, _, i, b => b.set i 0
  | n + 1, src, i, b =>
      if fdt src ≠ 0 then copyString fdt n (src + 1) (i + 1) (b.set i (fdt src)) else b.set i 0

/-- The name at `an` is the token at `tok`, of which `n` bytes are left. -/
def aliasMatches (fdt : Nat → Byte) : Nat → Nat → Nat → Bool
  | 0, an, _ => fdt an == 0
  | n + 1, an, tok =>
      if fdt an ≠ 0 ∧ fdt tok ≠ 0 ∧ fdt an = fdt tok then aliasMatches fdt n (an + 1) (tok + 1)
      else false

/-- From `stdout_token` to `target_path`, in `resolved_path_buf`. -/
def resolvePath (fdt : Nat → Byte) (s : Collected) (b : Buf) : Option Buf :=
  match s.stdoutToken with
  | none => none
  | some (tok, len) =>
      if len = 0 then none
      else if fdt tok = slash then some (copyBytes fdt (min len 255) tok 0 b)
      else
        (s.aliases.find? fun a => aliasMatches fdt len a.1 tok).map fun a =>
          copyString fdt 255 a.2 0 b

/-! ## The second pass -/

/-- The variables of the second pass, and the number of nodes entered so far. -/
structure Search where
  depth : Int
  targetPath : Nat → Byte
  currentPath : Buf
  nodes : Nat

/-- The result: the number of the node whose properties are used, in the order of the blob, with the
base address, and the indices written in `current_path`. -/
structure Found where
  node : Option (Nat × Word)
  written : List Nat

/-- `path_equals`, from index `i` on. -/
def pathEquals (a b : Nat → Byte) : Nat → Nat → Option Bool
  | 0, _ => none
  | fuel + 1, i =>
      if a i ≠ 0 ∧ b i ≠ 0 then if a i ≠ b i then some false else pathEquals a b fuel (i + 1)
      else some (a i == 0 && b i == 0)

/-- The loop that appends the `n` bytes of a name from `src` on, and the length after it. -/
def appendName (fdt : Nat → Byte) : Nat → Nat → Nat → Buf → Buf × Nat
  | 0, _, cur, b => (b, cur)
  | n + 1, src, cur, b =>
      if cur < 255 then appendName fdt n (src + 1) (cur + 1) (b.set cur (fdt src)) else (b, cur)

/-- Append a separator and a name to `current_path`. -/
def pushPath (fdt : Nat → Byte) (fuel name len : Nat) (b : Buf) : Option Buf :=
  (nameLen b.bytes fuel 0 0).map fun cur =>
    let (b, cur) := if 1 < cur then (b.set cur slash, cur + 1) else (b, cur)
    let (b, cur) := appendName fdt len name cur b
    b.set cur 0

/-- The length at which the last component of a path starts. -/
def lastComponent (bytes : Nat → Byte) : Nat → Nat
  | 0 => 0
  | 1 => 1
  | cur + 2 => if bytes (cur + 1) ≠ slash then lastComponent bytes (cur + 1) else cur + 2

/-- Cut the last component off `current_path`. -/
def popPath (fuel : Nat) (b : Buf) : Option Buf :=
  (nameLen b.bytes fuel 0 0).map fun cur =>
    let cur := lastComponent b.bytes cur
    if 1 < cur then b.set (cur - 1) 0 else b.set 1 0

/-- The second pass of `dtb_get_stdout_uart_base`. -/
def locate (fdt : Nat → Byte) : Pass Search Bool Found where
  enter fuel s name len :=
    (if s.depth = 0 ∧ len = 0 then some s.currentPath
      else pushPath fdt fuel name len s.currentPath).bind fun path =>
        (pathEquals path.bytes s.targetPath fuel 0).map fun atTarget =>
          ({ s with depth := s.depth + 1, currentPath := path, nodes := s.nodes + 1 }, atTarget)
  prop atTarget s pname pdata len :=
    if atTarget && startsWith fdt pname (bytesOf "reg") then
      .error <|
        if 8 ≤ len then
          let hi := be32 fdt pdata
          let lo := be32 fdt (pdata + 4)
          ⟨some (s.nodes - 1, (hi.setWidth 64 <<< 32) ||| lo.setWidth 64), s.currentPath.written⟩
        else if 4 ≤ len then
          ⟨some (s.nodes - 1, (be32 fdt pdata).setWidth 64), s.currentPath.written⟩
        else ⟨none, s.currentPath.written⟩
    else .ok s
  leave fuel s :=
    (popPath fuel s.currentPath).map fun path => { s with depth := s.depth - 1, currentPath := path }
  up s := s
  stop s := ⟨none, s.currentPath.written⟩

/-! ## The whole function -/

/-- What the two buffers hold when the function is called. -/
structure Frame where
  resolvedPathBuf : Nat → Byte
  currentPath : Nat → Byte

/-- A run of the function: the node and the base address it gives, `none` for its error return, and the
indices written in its four arrays. -/
structure StdoutRun where
  found : Option (Nat × Word)
  stackWrites : List Int
  aliasWrites : List Nat
  resolvedWrites : List Nat
  pathWrites : List Nat

/-- The function on a blob. -/
def stdoutUartBase (fdt : Nat → Byte) (frame : Frame) (fuel : Nat) : Option StdoutRun :=
  (walk fdt (collect fdt) fuel none (offStruct fdt) ⟨0, none, [], [], []⟩).bind fun s =>
    match resolvePath fdt s ⟨frame.resolvedPathBuf, []⟩ with
    | none => some ⟨none, s.stackWrites, s.aliasWrites, [], []⟩
    | some target =>
        let path := (Buf.set ⟨frame.currentPath, []⟩ 0 slash).set 1 0
        (walk fdt (locate fdt) fuel none (offStruct fdt) ⟨0, target.bytes, path, 0⟩).map fun r =>
          ⟨r.node, s.stackWrites, s.aliasWrites, target.written, r.written⟩

end Fdt

/-- `dtb_get_stdout_uart_base`, with a place for the result. -/
def BootEnv.dtbGetStdoutUartBase (env : BootEnv) (frame : Fdt.Frame) (fuel : Nat) :
    Option Fdt.StdoutRun :=
  if env.dtbPtr = 0 ∨ Fdt.be32 env.fdt 0 ≠ Fdt.magic then some ⟨none, [], [], [], []⟩
  else Fdt.stdoutUartBase env.fdt frame fuel

end Arcline
