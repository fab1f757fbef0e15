import Arcline.Dtb.Assemble

set_option autoImplicit false

/-! # The RAM node

`dtb_find_memory_region` takes the first node of the blob whose name starts with `memory` and that has
a `reg` property. The RAM of a tree is in the first child of the root that is named `memory` or
`memory@unit` and has a `reg` property. The walk is followed token by token on the tree itself
(`memoryToken`), and then node by node. Nodes are numbered in the order of the blob, so that what is said
is which node is read, and not only what is found there.
-/

namespace Arcline

namespace Fdt

variable {fdt : Nat → Byte} {p off : Nat}

/-! ## Cells -/

/-- `readCells` on a value: up to `n` cells, and what is left of the value. -/
def takeCells : Nat → List Byte → Word → Word × List Byte
  | 0, data, acc => (acc, data)
  | n + 1, data, acc =>
      if 4 ≤ data.length then takeCells n (data.drop 4) ((acc <<< 32) ||| (cell data).setWidth 64)
      else (acc, data)

theorem readCells_eq {data : List Byte} (hdata : startsWith fdt off data = true) (n : Nat)
    (acc : Word) :
    ∃ q, readCells fdt (off + data.length) n off acc = ((takeCells n data acc).1, q) ∧
      q + (takeCells n data acc).2.length = off + data.length ∧
      startsWith fdt q (takeCells n data acc).2 = true := by
  induction n generalizing off data acc with
  | zero => exact ⟨off, rfl, rfl, hdata⟩
  | succ n ih =>
      rw [readCells, takeCells]
      by_cases hlen : 4 ≤ data.length
      · rw [if_pos (by omega), if_pos hlen, be32_eq_cell hdata hlen]
        have hstop : off + data.length = off + 4 + (data.drop 4).length := by
          rw [List.length_drop]
          omega
        rw [hstop]
        exact ih (startsWith_drop hdata 4 hlen) _
      · rw [if_neg (by omega), if_neg hlen]
        exact ⟨off, rfl, rfl, hdata⟩

/-- The tuple `dtb_find_memory_region` reads from a `reg` property. -/
def firstTuple (addrCells sizeCells : BitVec 32) (data : List Byte) : Word × Word :=
  let (base, rest) := takeCells (cellsOr2 addrCells) data 0
  (base, (takeCells (cellsOr2 sizeCells) rest 0).1)

theorem regTuple_eq {data : List Byte} (hdata : startsWith fdt off data = true) (w : MemoryWalk) :
    regTuple fdt w off data.length = firstTuple w.addrCells w.sizeCells data := by
  obtain ⟨q, hbase, hstop, hrest⟩ := readCells_eq hdata (cellsOr2 w.addrCells) 0
  obtain ⟨q', hsize, -⟩ := readCells_eq hrest (cellsOr2 w.sizeCells) 0
  rw [hstop] at hsize
  unfold regTuple firstTuple
  rw [hbase]
  dsimp only
  rw [hsize]

/-! ## The walk on tokens -/

/-- What a property of the root does to the two cell counts. -/
def updateCells (w : MemoryWalk) (name data : List Byte) : MemoryWalk :=
  if name = bytesOf "#address-cells" ∧ 4 ≤ data.length then { w with addrCells := cell data }
  else if name = bytesOf "#size-cells" ∧ 4 ≤ data.length then { w with sizeCells := cell data }
  else w

/-- `memoryVisit` on tokens. -/
def memoryToken (w : MemoryWalk) : Token → Except (Option (Nat × Word × Word)) MemoryWalk
  | .beginNode name => .ok { w with
      depth := w.depth + 1
      inMemoryNode := (bytesOf "memory").isPrefixOf name
      nodes := w.nodes + 1 }
  | .prop name data =>
      let w := if w.depth = 1 then updateCells w name data else w
      if w.inMemoryNode && name == bytesOf "reg" then
        .error (some (w.nodes - 1, firstTuple w.addrCells w.sizeCells data))
      else .ok w
  | .endNode => .ok { w with depth := w.depth - 1, inMemoryNode := false }

theorem inMemoryNode_eq {name : List Byte} (hname : startsWith fdt off (name ++ [0]) = true) :
    (decide (6 ≤ name.length) && startsWith fdt off (bytesOf "memory")) =
      (bytesOf "memory").isPrefixOf name := by
  rw [Bool.eq_iff_iff, Bool.and_eq_true, decide_eq_true_iff,
    startsWith_prefix_iff hname (by decide), List.isPrefixOf_iff_prefix]
  exact ⟨And.right, fun h => ⟨h.length_le, h⟩⟩

/-- The cell counts after a property, in the walk over the blob. -/
theorem updateCells_eq {name data : List Byte} {pname : Nat} {len : BitVec 32} (w : MemoryWalk)
    (hname : startsWith fdt pname (name ++ [0]) = true) (hzero : 0 ∉ name)
    (hdata : startsWith fdt off data = true) (hlen : len.toNat = data.length) :
    (if isString fdt pname "#address-cells" && 4 ≤ len then { w with addrCells := be32 fdt off }
      else if isString fdt pname "#size-cells" && 4 ≤ len then { w with sizeCells := be32 fdt off }
      else w) = updateCells w name data := by
  have hfour : (4 ≤ len) ↔ 4 ≤ data.length := by
    rw [BitVec.le_def, hlen]
    rfl
  have haddr := isString_iff (s := "#address-cells") hname hzero (by decide)
  have hsize := isString_iff (s := "#size-cells") hname hzero (by decide)
  simp only [updateCells, Bool.and_eq_true, decide_eq_true_eq, haddr, hsize, hfour]
  split
  · rename_i h
    rw [be32_eq_cell hdata h.2]
  · split
    · rename_i h
      rw [be32_eq_cell hdata h.2]
    · rfl

theorem acts_memoryVisit (fdt : Nat → Byte) : (memoryVisit fdt).Acts fdt id memoryToken where
  beginNode {s off name} hname _ := by
    show _ = Except.ok { s with
      depth := s.depth + 1
      inMemoryNode := decide (6 ≤ name.length) && startsWith fdt off (bytesOf "memory")
      nodes := s.nodes + 1 }
    rw [inMemoryNode_eq hname]
    rfl
  prop {s pname pdata name data len} hname hzero hdata hlen := by
    rw [startsWith_append, Bool.and_eq_true] at hdata
    have hreg : isString fdt pname "reg" = (name == bytesOf "reg") := by
      rw [Bool.eq_iff_iff, isString_iff hname hzero (by decide), beq_iff_eq]
    simp only [memoryVisit, memoryToken, id, updateCells_eq _ hname hzero hdata.1 hlen, hreg, hlen,
      regTuple_eq hdata.1, Except.map_id]
  endNode _ := rfl

/-! ## The walk on nodes -/

/-- The walk ends with what it has found, or goes on with its variables `w`. -/
def orGoOn (found : Option (Nat × Word × Word)) (w : MemoryWalk) :
    Except (Option (Nat × Word × Word)) MemoryWalk :=
  match found with
  | some r => .error (some r)
  | none => .ok w

theorem orGoOn_bind {a b : Option (Nat × Word × Word)} {w w' : MemoryWalk}
    {f : MemoryWalk → Except (Option (Nat × Word × Word)) MemoryWalk} (h : f w = orGoOn b w') :
    (orGoOn a w >>= f) = orGoOn (a.or b) w' := by
  cases a with
  | some r => rfl
  | none => exact h

/-- What the walk takes from a node: the first tuple of its `reg`, if its name starts with
`memory`. -/
def Node.taken (cells : BitVec 32 × BitVec 32) (n : Node) : Option (Word × Word) :=
  if (bytesOf "memory").isPrefixOf n.name then
    (n.prop? "reg").map (firstTuple cells.1 cells.2)
  else none

/-- What it takes from the nodes `l`, of which the first has the number `i`. -/
def takenFrom (cells : BitVec 32 × BitVec 32) (i : Nat) (l : List Node) : Option (Nat × Word × Word) :=
  (l.zipIdx i).findSome? fun n => (n.1.taken cells).map fun r => (n.2, r)

theorem takenFrom_append (cells : BitVec 32 × BitVec 32) (i : Nat) (l l' : List Node) :
    takenFrom cells i (l ++ l') = (takenFrom cells i l).or (takenFrom cells (i + l.length) l') := by
  rw [takenFrom, List.zipIdx_append, List.findSome?_append]
  rfl

theorem takenFrom_cons (cells : BitVec 32 × BitVec 32) (i : Nat) (n : Node) (l : List Node) :
    takenFrom cells i (n :: l) = ((n.taken cells).map fun r => (i, r)).or (takenFrom cells (i + 1) l) := by
  rw [takenFrom, List.zipIdx_cons, List.findSome?_cons]
  cases n.taken cells <;> rfl

/-- The properties of a node below the root. -/
theorem foldlM_props {w : MemoryWalk} (hdepth : w.depth ≠ 1) (props : List Property) :
    (props.map fun q => Token.prop q.name q.data).foldlM memoryToken w =
      orGoOn (if w.inMemoryNode then ((props.find? fun q => q.name == bytesOf "reg").map
          Property.data).map fun data => (w.nodes - 1, firstTuple w.addrCells w.sizeCells data)
        else none) w := by
  induction props with
  | nil => cases w.inMemoryNode <;> rfl
  | cons q props ih =>
      have htoken : memoryToken w (.prop q.name q.data) =
          if w.inMemoryNode && q.name == bytesOf "reg" then
            .error (some (w.nodes - 1, firstTuple w.addrCells w.sizeCells q.data))
          else .ok w := by
        rw [memoryToken, if_neg hdepth]
      rw [List.map_cons, List.foldlM_cons, htoken, List.find?_cons]
      cases hin : w.inMemoryNode with
      | false =>
          rw [hin] at ih
          exact ih
      | true =>
          rw [hin] at ih
          cases hreg : q.name == bytesOf "reg" with
          | false => exact ih
          | true => rfl

mutual

/-- The tokens of a node below the root. -/
theorem Node.foldlM_tokens (n : Node) {w : MemoryWalk} (hdepth : 1 ≤ w.depth) :
    n.tokens.foldlM memoryToken w = orGoOn (takenFrom (w.addrCells, w.sizeCells) w.nodes n.nodes)
      { w with inMemoryNode := false, nodes := w.nodes + n.nodes.length } := by
  match n with
  | .mk name props children =>
      rw [Node.tokens, List.foldlM_cons, Node.nodes, takenFrom_cons]
      show (props.map _ ++ _).foldlM memoryToken { w with
        depth := w.depth + 1
        inMemoryNode := (bytesOf "memory").isPrefixOf name
        nodes := w.nodes + 1 } = _
      have htaken : ((Node.mk name props children).taken (w.addrCells, w.sizeCells)).map
          (fun r => (w.nodes, r)) =
          if (bytesOf "memory").isPrefixOf name then ((props.find? fun q => q.name == bytesOf "reg").map
            Property.data).map fun data => (w.nodes, firstTuple w.addrCells w.sizeCells data)
          else none := by
        rw [Node.taken]
        split
        · rw [if_pos ‹_›, Option.map_map]
          rfl
        · rw [if_neg ‹_›]
          rfl
      rw [List.foldlM_append, foldlM_props (show w.depth + 1 ≠ 1 by omega), htaken]
      refine orGoOn_bind ((Node.foldlM_tokensAll children (show 1 ≤ w.depth + 1 by omega)).trans ?_)
      rw [List.length_cons, Nat.add_sub_cancel, Nat.add_assoc, Nat.add_comm 1]

/-- The children of a node, followed by its end. -/
theorem Node.foldlM_tokensAll (ns : List Node) {w : MemoryWalk} (hdepth : 1 ≤ w.depth) :
    (Node.tokensAll ns ++ [Token.endNode]).foldlM memoryToken w =
      orGoOn (takenFrom (w.addrCells, w.sizeCells) w.nodes (Node.nodesAll ns))
        { w with
          depth := w.depth - 1
          inMemoryNode := false
          nodes := w.nodes + (Node.nodesAll ns).length } := by
  match ns with
  | [] => rfl
  | n :: ns =>
      rw [Node.tokensAll, Node.nodesAll, List.append_assoc, List.foldlM_append, n.foldlM_tokens hdepth,
        takenFrom_append]
      refine orGoOn_bind ((Node.foldlM_tokensAll ns
        (w := { w with inMemoryNode := false, nodes := w.nodes + n.nodes.length }) hdepth).trans ?_)
      rw [List.length_append, Nat.add_assoc]

end

/-! ## The cells of the root -/

theorem foldlM_rootProps {w : MemoryWalk} (hdepth : w.depth = 1) (hin : w.inMemoryNode = false)
    (props : List Property) :
    (props.map fun q => Token.prop q.name q.data).foldlM memoryToken w =
      .ok (props.foldl (fun w q => updateCells w q.name q.data) w) := by
  have hkeeps : ∀ (w : MemoryWalk) (name data : List Byte), (updateCells w name data).depth = w.depth ∧
      (updateCells w name data).inMemoryNode = w.inMemoryNode := by
    intro w name data
    unfold updateCells
    split
    · exact ⟨rfl, rfl⟩
    · split <;> exact ⟨rfl, rfl⟩
  induction props generalizing w with
  | nil => rfl
  | cons q props ih =>
      obtain ⟨hd, hm⟩ := hkeeps w q.name q.data
      have htoken : memoryToken w (.prop q.name q.data) = .ok (updateCells w q.name q.data) := by
        rw [memoryToken, if_pos hdepth, hm, hin]
        rfl
      rw [List.map_cons, List.foldlM_cons, htoken, List.foldl_cons]
      exact ih (hd.trans hdepth) (hm.trans hin)

theorem updateCells_foldl {props : List Property} (hdistinct : (props.map Property.name).Nodup)
    (hlen : ∀ q ∈ props, q.name = bytesOf "#address-cells" ∨ q.name = bytesOf "#size-cells" →
      q.data.length = 4) (w : MemoryWalk) :
    props.foldl (fun w q => updateCells w q.name q.data) w = { w with
      addrCells := ((props.find? fun q => q.name == bytesOf "#address-cells").map
        fun q => cell q.data).getD w.addrCells
      sizeCells := ((props.find? fun q => q.name == bytesOf "#size-cells").map
        fun q => cell q.data).getD w.sizeCells } := by
  induction props generalizing w with
  | nil => rfl
  | cons q props ih =>
      rw [List.map_cons, List.nodup_cons] at hdistinct
      have hnone : ∀ s : String, q.name = bytesOf s →
          props.find? (fun q => q.name == bytesOf s) = none := by
        intro s hs
        rw [List.find?_eq_none]
        intro q' hq' heq
        exact hdistinct.1 (List.mem_map.mpr ⟨q', hq', (beq_iff_eq.mp heq).trans hs.symm⟩)
      rw [List.foldl_cons, ih hdistinct.2 fun q' hq' => hlen q' (List.mem_cons_of_mem q hq'),
        List.find?_cons, List.find?_cons]
      unfold updateCells
      have hne : bytesOf "#address-cells" ≠ bytesOf "#size-cells" := by decide
      by_cases haddr : q.name = bytesOf "#address-cells"
      · have hfour := hlen q List.mem_cons_self (.inl haddr)
        rw [if_pos ⟨haddr, hfour.ge⟩, hnone _ haddr, haddr, beq_self_eq_true,
          beq_false_of_ne hne]
        rfl
      · rw [if_neg (fun h => haddr h.1), beq_false_of_ne haddr]
        by_cases hsize : q.name = bytesOf "#size-cells"
        · have hfour := hlen q List.mem_cons_self (.inr hsize)
          rw [if_pos ⟨hsize, hfour.ge⟩, hnone _ hsize, hsize, beq_self_eq_true]
          rfl
        · rw [if_neg (fun h => hsize h.1), beq_false_of_ne hsize]

namespace Node

/-- The cell counts `dtb_find_memory_region` uses. -/
def rootCells (root : Node) : BitVec 32 × BitVec 32 :=
  (((root.prop? "#address-cells").map cell).getD 2, ((root.prop? "#size-cells").map cell).getD 2)

theorem WellFormed.foldlM_tokens {root : Node} (h : root.WellFormed) :
    andThen (root.tokens.foldlM memoryToken ⟨0, false, 2, 2, 0⟩) (fun _ => none) =
      takenFrom root.rootCells 0 root.nodes := by
  have hproper := h.proper root root.mem_nodes_self
  have hname := h.name
  cases root with
  | mk name props children =>
      obtain rfl : name = [] := hname
      have hcells : props.foldl (fun w q => updateCells w q.name q.data) ⟨1, false, 2, 2, 1⟩ =
          ⟨1, false, (Node.mk [] props children).rootCells.1,
            (Node.mk [] props children).rootCells.2, 1⟩ := by
        refine (updateCells_foldl hproper.propsDistinct hproper.cells _).trans ?_
        rw [rootCells, prop?, prop?, Option.map_map, Option.map_map]
        rfl
      rw [tokens, List.foldlM_cons]
      show andThen ((props.map _ ++ _).foldlM memoryToken ⟨1, false, 2, 2, 1⟩) _ = _
      rw [List.foldlM_append, foldlM_rootProps rfl rfl, hcells]
      show andThen ((tokensAll children ++ [Token.endNode]).foldlM memoryToken _) _ = _
      -- the name of the root is empty, so nothing is taken from it
      rw [foldlM_tokensAll children (Nat.le_refl 1), nodes, takenFrom_cons]
      show andThen (orGoOn _ _) _ = takenFrom _ 1 (nodesAll children)
      cases takenFrom (Node.mk [] props children).rootCells 1 (nodesAll children) <;> rfl

/-! ## The RAM of a tree -/

/-- The name of a RAM node: `memory` or `memory@unit`. -/
def isRam (n : Node) : Bool :=
  n.name == bytesOf "memory" || (bytesOf "memory@").isPrefixOf n.name

def hasReg (n : Node) : Bool := (n.prop? "reg").isSome

/-- Nodes that follow each other in the blob, the first with the number `i`: each number is that of the
node in the order of the blob. -/
def numberAll : Nat → List Node → List (Node × Nat)
  | _, [] => []
  | i, n :: ns => (n, i) :: numberAll (i + n.nodes.length) ns

/-- The first child of the root that is a RAM node and has a `reg` property, with its number. -/
def ramNode (root : Node) : Option (Node × Nat) :=
  (numberAll 1 root.children).find? fun c => c.1.isRam && c.1.hasReg

/-- The RAM node, by its number, and its first tuple, in the cells of the root. -/
def ram (root : Node) : Option (Nat × Nat × Nat) :=
  root.ramNode.bind fun c => (root.regionsOf c.1).head?.map fun r => (c.2, r)

/-- The first node of the blob, at any depth, whose name starts with `memory` and that has a `reg`
property, with its number. -/
def memoryNode (root : Node) : Option (Node × Nat) :=
  root.nodes.zipIdx.find? fun n => (bytesOf "memory").isPrefixOf n.1.name && n.1.hasReg

end Node

/-- One or two cells, read as a number. -/
theorem takeCells_eq {n : Nat} (hn : n = 1 ∨ n = 2) {data : List Byte} (hlen : 4 * n ≤ data.length) :
    (takeCells n data 0).1.toNat = beNat (data.take (4 * n)) ∧
      (takeCells n data 0).2 = data.drop (4 * n) := by
  have hfirst : (((0 : Word) <<< 32) ||| (cell data).setWidth 64).toNat = beNat (data.take 4) := by
    rw [shl_or_cell_toNat _ (by decide), beNat_take_four (by omega)]
    exact Nat.zero_add _
  rcases hn with rfl | rfl
  · rw [takeCells, if_pos hlen, takeCells]
    exact ⟨hfirst, rfl⟩
  · have hdrop : 4 ≤ (data.drop 4).length := by
      rw [List.length_drop]
      omega
    rw [takeCells, if_pos (by omega), takeCells, if_pos hdrop, takeCells, List.drop_drop]
    refine ⟨?_, rfl⟩
    have hlt : beNat (data.take 4) < 2 ^ 32 := by
      rw [beNat_take_four (by omega)]
      exact (cell data).isLt
    rw [shl_or_cell_toNat _ (by rw [hfirst]; exact hlt), hfirst, ← beNat_take_four hdrop,
      show (4 * 2 : Nat) = 4 + 4 by rfl, List.take_add, beNat_append, List.length_take,
      Nat.min_eq_left hdrop, show (256 : Nat) ^ 4 = 2 ^ 32 by decide]

theorem findSome?_eq_bind {α β : Type} {f : α → Option β} {q : α → Bool}
    (h : ∀ a, q a = (f a).isSome) (l : List α) : l.findSome? f = (l.find? q).bind f := by
  induction l with
  | nil => rfl
  | cons a l ih =>
      rw [List.findSome?_cons, List.find?_cons, h a, ih]
      cases ha : f a with
      | none => rfl
      | some b => exact ha.symm

namespace Node

theorem isSome_taken (cells : BitVec 32 × BitVec 32) (n : Node) :
    ((bytesOf "memory").isPrefixOf n.name && n.hasReg) = (n.taken cells).isSome := by
  unfold taken hasReg
  cases (bytesOf "memory").isPrefixOf n.name <;> simp

theorem isPrefixOf_of_isRam {n : Node} (h : n.isRam = true) :
    (bytesOf "memory").isPrefixOf n.name = true := by
  rw [isRam, Bool.or_eq_true, beq_iff_eq] at h
  rw [List.isPrefixOf_iff_prefix]
  rcases h with h | h
  · exact ⟨[], by rw [List.append_nil, h]⟩
  · exact .trans (by decide) (List.isPrefixOf_iff_prefix.mp h)

variable {root c : Node}

/-- A declared cell count is the one the walk uses. -/
theorem Proper.cellsOr2_eq (h : root.Proper) {name : String}
    (hname : name = "#address-cells" ∨ name = "#size-cells") {k : Nat}
    (hdeclared : root.cellCount? name = some k) (hk : k = 1 ∨ k = 2) :
    cellsOr2 (((root.prop? name).map cell).getD 2) = k := by
  obtain ⟨data, hdata, hcount⟩ := Option.map_eq_some_iff.mp hdeclared
  have hlen : data.length = 4 :=
    h.cells _ (prop?_eq_some hdata) (hname.imp (congrArg bytesOf) (congrArg bytesOf))
  rw [beNat_take_four hlen.ge] at hcount
  rw [hdata, Option.map_some, Option.getD_some, cellsOr2, if_pos, hcount]
  rw [BitVec.toInt_eq_toNat_of_lt (by omega)]
  omega

/-- The walk reads the first tuple of a RAM node. -/
theorem Proper.taken_eq (h : root.Proper) {a s : Nat} (ha : root.cellCount? "#address-cells" = some a)
    (hs : root.cellCount? "#size-cells" = some s) (hcounts : (a = 1 ∨ a = 2) ∧ (s = 1 ∨ s = 2))
    (hc : c ∈ root.children) (hram : c.isRam = true) :
    (c.taken root.rootCells).map (fun r => (r.1.toNat, r.2.toNat)) = (root.regionsOf c).head? := by
  have haddr : root.cells "#address-cells" = a := congrArg (Option.getD · 2) ha
  have hsize : root.cells "#size-cells" = s := congrArg (Option.getD · 2) hs
  have hsizeCells : root.sizeCells = s := congrArg (Option.getD · 1) hs
  unfold taken regionsOf
  rw [if_pos (isPrefixOf_of_isRam hram), haddr, hsize]
  cases hreg : c.prop? "reg" with
  | none =>
      -- without a `reg` property there is no tuple
      simp [regTuples]
  | some data =>
      obtain ⟨hne, hdvd⟩ := h.reg c hc data hreg
      rw [addressCells, haddr, hsizeCells] at hdvd
      have hpos : 0 < data.length := List.length_pos_iff.mpr hne
      have hlen : 4 * (a + s) ≤ data.length := Nat.le_of_dvd hpos hdvd
      obtain ⟨count, hcount⟩ : ∃ n, data.length / (4 * (a + s)) = n + 1 :=
        ⟨data.length / (4 * (a + s)) - 1, by
          have := Nat.div_pos hlen (by omega)
          omega⟩
      obtain ⟨hbase, hrest⟩ := takeCells_eq hcounts.1 (show 4 * a ≤ data.length by omega)
      obtain ⟨hlimit, -⟩ := takeCells_eq hcounts.2
        (show 4 * s ≤ (data.drop (4 * a)).length by rw [List.length_drop]; omega)
      show _ = (regTuples a s (data.length / (4 * (a + s))) data).head?
      rw [hcount, regTuples, List.head?_cons, Option.map_some, Option.map_some,
        firstTuple, rootCells, h.cellsOr2_eq (.inl rfl) ha hcounts.1,
        h.cellsOr2_eq (.inr rfl) hs hcounts.2]
      dsimp only
      rw [hbase, hrest, hlimit]

/-- Numbers of children are places in the blob. -/
theorem mem_numberAll {ns : List Node} {i k : Nat} (h : (c, i) ∈ numberAll k ns) :
    c ∈ ns ∧ k ≤ i ∧ (nodesAll ns)[i - k]? = some c := by
  induction ns generalizing k with
  | nil => exact absurd h List.not_mem_nil
  | cons n ns ih =>
      rcases List.mem_cons.mp h with heq | h
      · obtain ⟨rfl, rfl⟩ := Prod.mk.inj heq
        refine ⟨List.mem_cons_self, Nat.le_refl _, ?_⟩
        rw [Nat.sub_self, nodesAll]
        cases c
        rfl
      · obtain ⟨hmem, hle, hget⟩ := ih h
        refine ⟨List.mem_cons_of_mem n hmem, by omega, ?_⟩
        rw [nodesAll, List.getElem?_append_right (by omega), ← hget]
        congr 1
        omega

theorem ramNode_eq_some {i : Nat} (h : root.ramNode = some (c, i)) :
    c ∈ root.children ∧ c.isRam = true ∧ c.hasReg = true ∧ root.nodes[i]? = some c := by
  have hfound := List.find?_some h
  rw [Bool.and_eq_true] at hfound
  obtain ⟨hmem, hle, hget⟩ := mem_numberAll (List.mem_of_find?_eq_some h)
  refine ⟨hmem, hfound.1, hfound.2, ?_⟩
  rcases i with _ | i
  · omega
  cases root
  exact hget

theorem memoryNode_eq_some {i : Nat} (h : root.memoryNode = some (c, i)) :
    (c.taken root.rootCells).isSome = true ∧ root.nodes[i]? = some c := by
  have hfound := List.find?_some h
  rw [isSome_taken root.rootCells] at hfound
  exact ⟨hfound, List.mem_zipIdx_iff_getElem?.mp (List.mem_of_find?_eq_some h)⟩

/-- The node that is read is the RAM node, or neither exists. -/
def RamFound (root : Node) : Prop := root.memoryNode.map Prod.snd = root.ramNode.map Prod.snd

/-- The node that is read and the RAM node start with the same tuple. -/
def SameTuple (root : Node) : Prop :=
  ∃ m c, root.memoryNode = some m ∧ root.ramNode = some c ∧
    m.1.taken root.rootCells = c.1.taken root.rootCells

/-- What is taken from a node, with its number. -/
def takenAt (root : Node) (n : Node × Nat) : Option (Nat × Word × Word) :=
  (n.1.taken root.rootCells).map fun r => (n.2, r)

theorem takenFrom_nodes (root : Node) :
    takenFrom root.rootCells 0 root.nodes = root.memoryNode.bind root.takenAt := by
  refine findSome?_eq_bind (fun n => ?_) _
  rw [isSome_taken root.rootCells, Option.isSome_map]

/-- A RAM node is taken. -/
theorem exists_takenAt {n : Node × Nat} (h : root.memoryNode = some n ∨ root.ramNode = some n) :
    ∃ r, n.1.taken root.rootCells = some r := by
  apply Option.isSome_iff_exists.mp
  rcases h with h | h
  · exact (memoryNode_eq_some h).1
  · obtain ⟨-, hram, hreg, -⟩ := ramNode_eq_some h
    rw [← isSome_taken, isPrefixOf_of_isRam hram, hreg]
    rfl

/-- Nodes with one number are one node. -/
theorem eq_of_number {m n : Node × Nat} (hm : root.memoryNode = some m) (hn : root.ramNode = some n)
    (h : m.2 = n.2) : m = n := by
  have hget := (memoryNode_eq_some hm).2
  rw [h, (ramNode_eq_some hn).2.2.2] at hget
  exact Prod.ext (Option.some.inj hget).symm h

theorem ramFound_iff (root : Node) :
    root.memoryNode.bind root.takenAt = root.ramNode.bind root.takenAt ↔ root.RamFound := by
  unfold RamFound
  cases hm : root.memoryNode with
  | none =>
      cases hc : root.ramNode with
      | none => exact iff_of_true rfl rfl
      | some c =>
          obtain ⟨r, hr⟩ := exists_takenAt (.inr hc)
          simp [takenAt, hr]
  | some m =>
      obtain ⟨r, hr⟩ := exists_takenAt (.inl hm)
      cases hc : root.ramNode with
      | none => simp [takenAt, hr]
      | some c =>
          obtain ⟨r', hr'⟩ := exists_takenAt (.inr hc)
          simp only [Option.bind_some, Option.map_some, Option.some.injEq]
          constructor
          · intro h
            rw [takenAt, takenAt, hr, hr'] at h
            exact congrArg Prod.fst (Option.some.inj h)
          · intro h
            rw [eq_of_number hm hc h]

theorem sameRegion_iff (root : Node) :
    (root.memoryNode.bind root.takenAt).map Prod.snd = (root.ramNode.bind root.takenAt).map Prod.snd ↔
      root.RamFound ∨ root.SameTuple := by
  constructor
  · intro h
    cases hm : root.memoryNode with
    | none =>
        cases hc : root.ramNode with
        | none => exact .inl (by rw [RamFound, hm, hc])
        | some c =>
            obtain ⟨r, hr⟩ := exists_takenAt (.inr hc)
            simp [hm, hc, takenAt, hr] at h
    | some m =>
        obtain ⟨r, hr⟩ := exists_takenAt (.inl hm)
        cases hc : root.ramNode with
        | none => simp [hm, hc, takenAt, hr] at h
        | some c =>
            obtain ⟨r', hr'⟩ := exists_takenAt (.inr hc)
            refine .inr ⟨m, c, hm, hc, ?_⟩
            simpa [hm, hc, takenAt, hr, hr'] using h
  · rintro (h | ⟨m, c, hm, hc, h⟩)
    · rw [(ramFound_iff root).mpr h]
    · simp [hm, hc, takenAt, h]

end Node

end Fdt

open Fdt

/-- **The RAM region.** On a well-formed tree whose root declares one or two cells each,
`dtb_find_memory_region` comes to an end. It reads the RAM node and gives its first tuple, or fails if
there is none, just if no other node is taken for it. Where another one is, it still gives the right tuple
just if that node starts with the same one. -/
theorem ram_region_iff {env : BootEnv} {ts : List (Option Token)} {root : Node}
    (h : env.Flattened ts root)
    (ha : root.cellCount? "#address-cells" = some 1 ∨ root.cellCount? "#address-cells" = some 2)
    (hs : root.cellCount? "#size-cells" = some 1 ∨ root.cellCount? "#size-cells" = some 2) :
    ∃ steps, ∀ fuel, steps ≤ fuel → ∃ found, env.dtbFindMemoryRegion fuel = some found ∧
      (found.map (fun r => (r.1, r.2.1.toNat, r.2.2.toNat)) = root.ram ↔ root.RamFound) ∧
      (found.map (fun r => (r.2.1.toNat, r.2.2.toNat)) = root.ram.map Prod.snd ↔
        root.RamFound ∨ root.SameTuple) := by
  refine ⟨2 ^ 32 + ts.length + 1, fun fuel hfuel => ⟨root.memoryNode.bind root.takenAt, ?_, ?_⟩⟩
  · unfold BootEnv.dtbFindMemoryRegion memoryRegion
    rw [if_neg (not_or.mpr ⟨h.ptr, not_not.mpr h.magic⟩),
      h.stream.loop_eq (acts_memoryVisit env.fdt) (fun _ => none) (fun _ => rfl) rfl hfuel, h.tokens]
    exact congrArg some (h.wellFormed.foldlM_tokens.trans root.takenFrom_nodes)
  · have hproper := h.wellFormed.proper root root.mem_nodes_self
    obtain ⟨a, ha', hacount⟩ : ∃ a, root.cellCount? "#address-cells" = some a ∧ (a = 1 ∨ a = 2) :=
      ha.elim (fun h => ⟨1, h, .inl rfl⟩) (fun h => ⟨2, h, .inr rfl⟩)
    obtain ⟨s, hs', hscount⟩ : ∃ s, root.cellCount? "#size-cells" = some s ∧ (s = 1 ∨ s = 2) :=
      hs.elim (fun h => ⟨1, h, .inl rfl⟩) (fun h => ⟨2, h, .inr rfl⟩)
    have hram : root.ram = (root.ramNode.bind root.takenAt).map
        (fun r => (r.1, r.2.1.toNat, r.2.2.toNat)) := by
      unfold Node.ram
      cases hc : root.ramNode with
      | none => rfl
      | some c =>
          obtain ⟨hmem, hisRam, -, -⟩ := Node.ramNode_eq_some hc
          rw [Option.bind_some, Option.bind_some, Node.takenAt,
            ← hproper.taken_eq ha' hs' ⟨hacount, hscount⟩ hmem hisRam, Option.map_map, Option.map_map]
          rfl
    have hinj : Function.Injective fun r : Word × Word => (r.1.toNat, r.2.toNat) := by
      intro r r' heq
      rw [Prod.mk.injEq] at heq
      exact Prod.ext (BitVec.eq_of_toNat_eq heq.1) (BitVec.eq_of_toNat_eq heq.2)
    have hinj' : Function.Injective fun r : Nat × Word × Word => (r.1, r.2.1.toNat, r.2.2.toNat) := by
      intro r r' heq
      rw [Prod.mk.injEq] at heq
      exact Prod.ext heq.1 (hinj heq.2)
    constructor
    · rw [hram, (Option.map_injective hinj').eq_iff, Node.ramFound_iff]
    · rw [hram, ← Node.sameRegion_iff, ← (Option.map_injective hinj).eq_iff, Option.map_map,
        Option.map_map, Option.map_map]
      rfl

/-! ## A memory controller -/

/-- A tree with 1 GiB of RAM at 1 GiB, one cell each, behind a node with the given name. -/
def ramRoot (name : String) : Node :=
  .mk [] [⟨bytesOf "#address-cells", [0, 0, 0, 1]⟩, ⟨bytesOf "#size-cells", [0, 0, 0, 1]⟩] [
    .mk (bytesOf name) [⟨bytesOf "reg", [0x09, 0, 0, 0, 0, 0, 0x10, 0]⟩] [],
    .mk (bytesOf "memory@40000000") [⟨bytesOf "reg", [0x40, 0, 0, 0, 0x40, 0, 0, 0]⟩] []]

def ramTokens (name : String) : List (Option Token) := (ramRoot name).tokens.map some

theorem flattened_ramTokens {name : String} (h : name = "pl011@9000000" ∨ name = "memory-controller") :
    (blobEnv (ramTokens name)).Flattened (ramTokens name) (ramRoot name) := by
  rcases h with rfl | rfl
  · exact flattened_blobEnv rfl (by decide +kernel)
  · exact flattened_blobEnv rfl (by decide +kernel)

theorem ram_region_behind_uart :
    ∃ fuel found, (blobEnv (ramTokens "pl011@9000000")).dtbFindMemoryRegion fuel = some found ∧
      found.map (fun r => (r.1, r.2.1.toNat, r.2.2.toNat)) = some (2, 0x40000000, 0x40000000) := by
  obtain ⟨steps, hwalk⟩ := ram_region_iff (flattened_ramTokens (.inl rfl))
    (.inl (by decide)) (.inl (by decide))
  obtain ⟨found, hfound, hiff⟩ := hwalk steps (Nat.le_refl steps)
  have hram : (ramRoot "pl011@9000000").RamFound := by
    unfold Node.RamFound
    decide
  exact ⟨steps, found, hfound, (hiff.1.mpr hram).trans (by decide)⟩

/-- A node `memory-controller` is taken for RAM. -/
theorem ram_region_is_controller :
    (blobEnv (ramTokens "memory-controller")).Flattened (ramTokens "memory-controller")
        (ramRoot "memory-controller") ∧
      (ramRoot "memory-controller").ram = some (2, 0x40000000, 0x40000000) ∧
      (blobEnv (ramTokens "memory-controller")).dtbFindMemoryRegion 30 =
        some (some (1, 0x09000000, 0x1000)) :=
  ⟨flattened_ramTokens (.inr rfl), by decide, by decide +kernel⟩

end Arcline
