import Arcline.Fuel
import Arcline.Mm.Pmm
import Arcline.Mm.Mmu

set_option autoImplicit false

/-! # Setting up the page allocator from the device tree

`pmm_init_from_dtb` walks the token stream of the flattened device tree twice: for the first memory
node, which gives the RAM region, and for `/reserved-memory`. The blob is a map from offsets to
bytes. Both walks have one form (`turn`): they take one token per step, and differ in what they do with
their variables (`Visit`). A walk has no result (`none`) if the bound on its steps, or on the length of a
name, is too small.
-/

namespace Arcline

/-- What `pmm_init_from_dtb` finds at boot: the linker symbols, the device tree at `dtb_ptr`, and
what `dtb_get_stdout_uart_base` gives. -/
structure BootEnv where
  image : Image
  dtbPtr : Word
  fdt : Nat → Byte
  uartBase : Option Word

namespace Fdt

def beginNode : BitVec 32 := 1
def endNode : BitVec 32 := 2
def prop : BitVec 32 := 3
def nop : BitVec 32 := 4
def tokenEnd : BitVec 32 := 9
def magic : BitVec 32 := 0xd00dfeed

/-- A big-endian 32-bit load: the load of the source followed by `be32_to_cpu_u32`. -/
def be32 (fdt : Nat → Byte) (off : Nat) : BitVec 32 :=
  fdt off ++ fdt (off + 1) ++ fdt (off + 2) ++ fdt (off + 3)

def offStruct (fdt : Nat → Byte) : BitVec 32 := be32 fdt 8
def offStrings (fdt : Nat → Byte) : BitVec 32 := be32 fdt 12
def totalSize (fdt : Nat → Byte) : BitVec 32 := be32 fdt 4

def bytesOf (s : String) : List Byte := s.toList.map fun c => BitVec.ofNat 8 c.toNat

/-- The bytes from `off` on start with `s`. -/
def startsWith (fdt : Nat → Byte) : Nat → List Byte → Bool
  | _, [] => true
  | off, b :: s => fdt off == b && startsWith fdt (off + 1) s

/-- The NUL-terminated string at `off` is `s`. -/
def isString (fdt : Nat → Byte) (off : Nat) (s : String) : Bool :=
  startsWith fdt off (bytesOf s ++ [0])

/-- The length of the NUL-terminated string at `off`. -/
def nameLen (fdt : Nat → Byte) : Nat → Nat → Nat → Option Nat
  | 0, _, _ => none
  | fuel + 1, off, len =>
      if fdt off = 0 then some len else nameLen fdt fuel (off + 1) (len + 1)

/-- `p + ((name_len + 4) & ~3)`. -/
def skipName (p : BitVec 32) (len : Nat) : BitVec 32 := p + (BitVec.ofNat 32 (len + 4) &&& ~~~3)

/-- `p + ((len + 3) & ~3)`. -/
def skipData (p len : BitVec 32) : BitVec 32 := p + ((len + 3) &&& ~~~3)

/-- Up to `n` cells from `q` on, as far as they end by `stop`, the first the most significant. -/
def readCells (fdt : Nat → Byte) (stop : Nat) : Nat → Nat → Word → Word × Nat
  | 0, q, acc => (acc, q)
  | n + 1, q, acc =>
      if q + 4 ≤ stop then
        readCells fdt stop n (q + 4) ((acc <<< 32) ||| (be32 fdt q).setWidth 64)
      else (acc, q)

/-- A cell count read from the tree, or 2 if it is not positive. -/
def cellsOr2 (n : BitVec 32) : Nat := if 0 < n.toInt then n.toNat else 2

/-! ## The loop over the tokens -/

/-- What a loop over the tokens does with its variables `σ` at each token. The name of a node is given by
its place and its length, a property by the places of its name and its value and the length of the value;
it may end the loop. -/
structure Visit (σ ρ : Type) where
  beginNode : σ → Nat → Nat → σ
  prop : σ → Nat → Nat → BitVec 32 → Except ρ σ
  endNode : σ → σ
  /-- The result at the end, or at a token that is not known. -/
  stop : σ → ρ

/-- One turn of the loop, with the cursor at `p`. -/
def turn {σ ρ : Type} (fdt : Nat → Byte) (V : Visit σ ρ) (fuel : Nat) :
    BitVec 32 × σ → Option (Except ρ (BitVec 32 × σ))
  | (p, s) =>
      let token := be32 fdt p.toNat
      let p := p + 4
      if token = beginNode then
        (nameLen fdt fuel p.toNat 0).map fun len => .ok (skipName p len, V.beginNode s p.toNat len)
      else if token = prop then
        let len := be32 fdt p.toNat
        let nameOff := be32 fdt (p + 4).toNat
        let pname := (offStrings fdt).toNat + nameOff.toNat
        let pdata := p + 8
        some ((V.prop s pname pdata.toNat len).map fun s => (skipData pdata len, s))
      else if token = endNode then some (.ok (p, V.endNode s))
      else if token = nop then some (.ok (p, s))
      else some (.error (V.stop s))

/-! ## The memory node -/

/-- The variables of `dtb_find_memory_region` but for the cursor, and the number of nodes entered so far.
The `device_type` flag of the source is left out: it is read only where `in_memory_node` is set, in a
disjunction with it. -/
structure MemoryWalk where
  depth : Nat
  inMemoryNode : Bool
  addrCells : BitVec 32
  sizeCells : BitVec 32
  nodes : Nat

/-- The first `(base, size)` tuple of a `reg` property. -/
def regTuple (fdt : Nat → Byte) (w : MemoryWalk) (pdata len : Nat) : Word × Word :=
  let (base, q) := readCells fdt (pdata + len) (cellsOr2 w.addrCells) pdata 0
  let (size, _) := readCells fdt (pdata + len) (cellsOr2 w.sizeCells) q 0
  (base, size)

/-- What `dtb_find_memory_region` does at each token. It gives the region together with the number of the
node that it is read from, in the order of the blob; `none` is its error return. -/
def memoryVisit (fdt : Nat → Byte) : Visit MemoryWalk (Option (Nat × Word × Word)) where
  beginNode w name len := { w with
    depth := w.depth + 1
    inMemoryNode := 6 ≤ len && startsWith fdt name (bytesOf "memory")
    nodes := w.nodes + 1 }
  prop w pname pdata len :=
    let w :=
      if w.depth = 1 then
        if isString fdt pname "#address-cells" && 4 ≤ len then { w with addrCells := be32 fdt pdata }
        else if isString fdt pname "#size-cells" && 4 ≤ len then { w with sizeCells := be32 fdt pdata }
        else w
      else w
    if w.inMemoryNode && isString fdt pname "reg" then
      .error (some (w.nodes - 1, regTuple fdt w pdata len.toNat))
    else .ok w
  endNode w := { w with depth := w.depth - 1, inMemoryNode := false }
  stop _ := none

/-- The loop of `dtb_find_memory_region`. -/
def memoryRegion (fdt : Nat → Byte) (fuel : Nat) : Option (Option (Nat × Word × Word)) :=
  Fuel.loop (turn fdt (memoryVisit fdt)) fuel (offStruct fdt, ⟨0, false, 2, 2, 0⟩)

/-! ## Reserved memory -/

/-- The variables of `reserve_reserved_memory` but for the cursor; `inReserved` is 1 in the
`/reserved-memory` node and 2 in a child of it. -/
structure ReservedWalk where
  depth : Nat
  inReserved : Nat
  addrCells : BitVec 32
  sizeCells : BitVec 32

/-- Reserve the pages of `n` tuples from `q` on. -/
def reserveTuples (fdt : Nat → Byte) (addrCells sizeCells : Nat) : Nat → Nat → Pmm → Pmm
  | 0, _, pmm => pmm
  | n + 1, q, pmm =>
      let (base, q) := readCells fdt (q + 4 * addrCells) addrCells q 0
      let (size, q) := readCells fdt (q + 4 * sizeCells) sizeCells q 0
      let pmm :=
        if size = 0 then pmm
        else
          let alignedBase := pageDown base
          let alignedEnd := pageUp (base + size)
          pmm.reserveRange alignedBase
            (if alignedBase < alignedEnd then alignedEnd - alignedBase else 0)
      reserveTuples fdt addrCells sizeCells n q pmm

/-- What a property does. The `reg` property is looked at in the `else` branch of the test of
`in_reserved` only. -/
def reservedProp (fdt : Nat → Byte) (w : ReservedWalk) (pname pdata : Nat) (len : BitVec 32)
    (pmm : Pmm) : ReservedWalk × Pmm :=
  if w.inReserved ≠ 0 then
    if isString fdt pname "#address-cells" && 4 ≤ len then
      ({ w with addrCells := be32 fdt pdata }, pmm)
    else if isString fdt pname "#size-cells" && 4 ≤ len then
      ({ w with sizeCells := be32 fdt pdata }, pmm)
    else (w, pmm)
  else if w.inReserved = 2 && isString fdt pname "reg" then
    let cells := w.addrCells.toInt + w.sizeCells.toInt
    let cells := if cells ≤ 0 then 4 else cells
    let tuples := (len.toInt.tdiv (4 * cells)).toNat
    (w, reserveTuples fdt w.addrCells.toInt.toNat w.sizeCells.toInt.toNat tuples pdata pmm)
  else (w, pmm)

/-- What `reserve_reserved_memory` does at each token. -/
def reservedVisit (fdt : Nat → Byte) : Visit (ReservedWalk × Pmm) Pmm where
  beginNode s name _ :=
    let depth := s.1.depth + 1
    let w : ReservedWalk :=
      if depth = 2 && startsWith fdt name (bytesOf "reserved-memory") then ⟨depth, 1, 2, 2⟩
      else { s.1 with depth := depth }
    -- entering a child of `/reserved-memory`
    (if w.inReserved = 1 ∧ 3 ≤ depth then { w with inReserved := 2 } else w, s.2)
  prop s pname pdata len := .ok (reservedProp fdt s.1 pname pdata len s.2)
  endNode s := ({ s.1 with depth := s.1.depth - 1, inReserved := s.1.inReserved - 1 }, s.2)
  stop s := s.2

/-- The cursor and the variables of `reserve_reserved_memory` before its loop. -/
def reservedStart (fdt : Nat → Byte) (pmm : Pmm) : BitVec 32 × ReservedWalk × Pmm :=
  (offStruct fdt, ⟨0, 0, 2, 2⟩, pmm)

/-- The loop of `reserve_reserved_memory`. -/
def reservedMemory (fdt : Nat → Byte) (fuel : Nat) (pmm : Pmm) : Option Pmm :=
  Fuel.loop (turn fdt (reservedVisit fdt)) fuel (reservedStart fdt pmm)

/-! ## What a loop leaves behind -/

section Turn

variable {σ ρ : Type} {fdt : Nat → Byte} {V : Visit σ ρ} {fuel : Nat} {p : BitVec 32} {s : σ}

theorem turn_beginNode (h : be32 fdt p.toNat = beginNode) :
    turn fdt V fuel (p, s) = (nameLen fdt fuel (p + 4).toNat 0).map fun len =>
      .ok (skipName (p + 4) len, V.beginNode s (p + 4).toNat len) :=
  if_pos h

theorem turn_prop (h : be32 fdt p.toNat = prop) :
    turn fdt V fuel (p, s) =
      some ((V.prop s ((offStrings fdt).toNat + (be32 fdt (p + 4 + 4).toNat).toNat) (p + 4 + 8).toNat
        (be32 fdt (p + 4).toNat)).map fun s => (skipData (p + 4 + 8) (be32 fdt (p + 4).toNat), s)) := by
  rw [turn, h]
  rfl

theorem exists_of_map_ok {ε α β : Type} {x : Except ε α} {f : α → β} {b : β} (h : x.map f = .ok b) :
    ∃ a, b = f a := by
  cases x with
  | error e => cases h
  | ok a => exact ⟨a, (Except.ok.inj h).symm⟩

theorem turn_endNode (h : be32 fdt p.toNat = endNode) :
    turn fdt V fuel (p, s) = some (.ok (p + 4, V.endNode s)) := by
  rw [turn, h]
  rfl

theorem turn_nop (h : be32 fdt p.toNat = nop) :
    turn fdt V fuel (p, s) = some (.ok (p + 4, s)) := by
  rw [turn, h]
  rfl

theorem turn_stop (hbegin : be32 fdt p.toNat ≠ beginNode) (hprop : be32 fdt p.toNat ≠ prop)
    (hend : be32 fdt p.toNat ≠ endNode) (hnop : be32 fdt p.toNat ≠ nop) :
    turn fdt V fuel (p, s) = some (.error (V.stop s)) := by
  rw [turn]
  dsimp only
  rw [if_neg hbegin, if_neg hprop, if_neg hend, if_neg hnop]

/-- `Inv` holds of the variables all along, and so `Res` of the result. -/
structure Visit.Keeps (V : Visit σ ρ) (Inv : σ → Prop) (Res : ρ → Prop) : Prop where
  beginNode : ∀ s name len, Inv s → Inv (V.beginNode s name len)
  prop : ∀ s pname pdata len s', Inv s → V.prop s pname pdata len = .ok s' → Inv s'
  found : ∀ s pname pdata len r, Inv s → V.prop s pname pdata len = .error r → Res r
  endNode : ∀ s, Inv s → Inv (V.endNode s)
  stop : ∀ s, Inv s → Res (V.stop s)

/-- What one turn does to the variables. -/
theorem Visit.Keeps.turn {Inv : σ → Prop} {Res : ρ → Prop} (h : V.Keeps Inv Res) (hs : Inv s)
    {next : Except ρ (BitVec 32 × σ)} (hnext : Fdt.turn fdt V fuel (p, s) = some next) :
    Fuel.After (fun s => Inv s.2) Res next := by
  by_cases hbegin : be32 fdt p.toNat = Fdt.beginNode
  · rw [turn_beginNode hbegin] at hnext
    obtain ⟨len, -, rfl⟩ := Option.map_eq_some_iff.mp hnext
    exact h.beginNode s _ len hs
  by_cases hprop : be32 fdt p.toNat = Fdt.prop
  · rw [turn_prop hprop] at hnext
    obtain rfl := Option.some.inj hnext
    cases hstep : V.prop s _ _ _ with
    | error r => exact h.found s _ _ _ r hs hstep
    | ok s' => exact h.prop s _ _ _ s' hs hstep
  by_cases hend : be32 fdt p.toNat = Fdt.endNode
  · rw [turn_endNode hend] at hnext
    obtain rfl := Option.some.inj hnext
    exact h.endNode s hs
  by_cases hnop : be32 fdt p.toNat = nop
  · rw [turn_nop hnop] at hnext
    obtain rfl := Option.some.inj hnext
    exact hs
  · rw [turn_stop hbegin hprop hend hnop] at hnext
    obtain rfl := Option.some.inj hnext
    exact h.stop s hs

theorem Visit.Keeps.loop {Inv : σ → Prop} {Res : ρ → Prop} (h : V.Keeps Inv Res) (hs : Inv s) {r : ρ}
    (hr : Fuel.loop (Fdt.turn fdt V) fuel (p, s) = some r) : Res r := by
  have hturn : ∀ fuel s next, Inv s.2 → Fdt.turn fdt V fuel s = some next →
      Fuel.After (fun s => Inv s.2) Res next := fun _ _ _ hs hnext => h.turn hs hnext
  exact Fuel.loop_invariant hturn hs hr

end Turn

/-- A property changes the walk at most: inside `/reserved-memory` a `reg` property is not looked at,
and outside it is not taken for one of a child. -/
theorem reservedProp_pmm (fdt : Nat → Byte) (w : ReservedWalk) (pname pdata : Nat) (len : BitVec 32)
    (pmm : Pmm) : (reservedProp fdt w pname pdata len pmm).2 = pmm := by
  unfold reservedProp
  by_cases hin : w.inReserved = 0
  · rw [if_neg (by simp [hin]), if_neg (by simp [hin])]
  · rw [if_pos hin]
    split
    · rfl
    · split <;> rfl

/-- `reserve_reserved_memory` reserves nothing, whatever the blob holds. -/
theorem reservedMemory_eq {fdt : Nat → Byte} {fuel : Nat} {pmm pmm' : Pmm}
    (h : reservedMemory fdt fuel pmm = some pmm') : pmm' = pmm := by
  have hkeeps : (reservedVisit fdt).Keeps (fun s => s.2 = pmm) (fun r => r = pmm) :=
    { beginNode := fun _ _ _ hs => hs
      prop := fun s pname pdata len s' hs hs' => by
        cases hs'
        exact (reservedProp_pmm fdt s.1 pname pdata len s.2).trans hs
      found := fun _ _ _ _ _ _ hr => by cases hr
      endNode := fun _ hs => hs
      stop := fun _ hs => hs }
  exact hkeeps.loop rfl h

end Fdt

namespace BootEnv

/-- `dtb_find_memory_region`, with the number of the node it reads. -/
def dtbFindMemoryRegion (env : BootEnv) (fuel : Nat) : Option (Option (Nat × Word × Word)) :=
  if env.dtbPtr = 0 ∨ Fdt.be32 env.fdt 0 ≠ Fdt.magic then some none
  else Fdt.memoryRegion env.fdt fuel

/-- The RAM region used when the tree gives none. -/
def fallback : Word × Word := (0x40000000, 0x40000000)

/-- What is found in the tree, if it is a region at all. -/
def orFallback : Option (Word × Word) → Word × Word
  | none => fallback
  | some (base, size) => if size = 0 then fallback else (base, size)

/-- A region cut to whole pages. -/
def wholePages (r : Word × Word) : Word × Word :=
  let alignedBase := pageUp r.1
  let alignedEnd := pageDown (r.1 + r.2)
  if alignedEnd ≤ alignedBase then fallback else (alignedBase, alignedEnd - alignedBase)

/-- The managed region, base and size. -/
def managedRegion (env : BootEnv) (fuel : Nat) : Option (Word × Word) :=
  (env.dtbFindMemoryRegion fuel).map fun found => wholePages (orFallback (found.map Prod.snd))

/-- The allocator of a region, with every page of it free. -/
def freshPmm (base size : Word) : Pmm :=
  let total := min (size / pageSize).toNat pmmMaxPages
  ⟨fun i => !decide (i < total), base, size, total, total⟩

/-- `reserve_dtb_blob`. -/
def reserveDtbBlob (env : BootEnv) (p : Pmm) : Pmm :=
  if env.dtbPtr = 0 then p
  else p.reserveRange env.dtbPtr ((Fdt.totalSize env.fdt).setWidth 64)

/-- `reserve_reserved_memory`. -/
def reserveReservedMemory (env : BootEnv) (fuel : Nat) (p : Pmm) : Option Pmm :=
  if env.dtbPtr = 0 ∨ Fdt.be32 env.fdt 0 ≠ Fdt.magic then some p
  else Fdt.reservedMemory env.fdt fuel p

/-- The page of the UART, if there is one. -/
def reserveUart (env : BootEnv) (p : Pmm) : Pmm :=
  match env.uartBase with
  | none => p
  | some base => if base = 0 then p else p.reserveRange (pageDown base) pageSize

/-- The first 1 MiB of the region. -/
def reserveLow (p : Pmm) : Pmm :=
  if p.memBase < p.memBase + p.memSize then p.reserveRange p.memBase 0x100000 else p

/-- The kernel image, then the boot stack. -/
def reserveImage (env : BootEnv) (p : Pmm) : Pmm :=
  let p := p.reserveRange env.image.kernelStart (env.image.kernelEnd - env.image.kernelStart)
  p.reserveRange env.image.stackBottom (env.image.stackTop - env.image.stackBottom)

/-- `pmm_init_from_dtb`. -/
def pmmInitFromDtb (env : BootEnv) (fuel : Nat) : Option Pmm :=
  (env.managedRegion fuel).bind fun r =>
    let p := env.reserveDtbBlob (env.reserveImage (freshPmm r.1 r.2))
    (env.reserveReservedMemory fuel p).map fun p => reserveLow (env.reserveUart p)

end BootEnv

end Arcline
