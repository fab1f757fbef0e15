import Arcline.Dtb.Assemble
import Arcline.Dtb.NodeSearch

set_option autoImplicit false

/-! # The base address of the UART, and the bounds of the path

The base address is read from the first property of the selected node whose name starts with `reg`: its
first 8 bytes, or its first 4 if it has fewer than 8. That is the first address of `reg` for two address
cells, but for one address cell only if no size follows. The writes to `current_path` are in bounds as
long as the names of all nodes with children, with a separator each, fit.
-/

namespace Arcline

namespace Fdt

/-! ## Nodes and their places -/

/-- A node with its parent and the names on the way to it from the root. -/
structure Place where
  names : List (List Byte)
  parent : Option Node
  node : Node

namespace Node

mutual

/-- The places of a node and of all nodes below it, in the order of the blob. -/
def placesFrom (names : List (List Byte)) (parent : Option Node) : Node → List Place
  | .mk name props children =>
      ⟨names, parent, .mk name props children⟩ ::
        placesAll names (.mk name props children) children

def placesAll (names : List (List Byte)) (parent : Node) : List Node → List Place
  | [] => []
  | n :: ns => n.placesFrom (names ++ [n.name]) (some parent) ++ placesAll names parent ns

end

def places (root : Node) : List Place := root.placesFrom [] none

mutual

theorem map_placesFrom (names : List (List Byte)) (parent : Option Node) (n : Node) :
    (n.placesFrom names parent).map Place.node = n.nodes := by
  match n with
  | .mk name props children =>
      rw [placesFrom, nodes, List.map_cons, map_placesAll names _ children]

theorem map_placesAll (names : List (List Byte)) (parent : Node) (ns : List Node) :
    (placesAll names parent ns).map Place.node = nodesAll ns := by
  match ns with
  | [] => rfl
  | n :: ns =>
      rw [placesAll, nodesAll, List.map_append, map_placesFrom (names ++ [n.name]) (some parent) n,
        map_placesAll names parent ns]

end

theorem map_places (root : Node) : root.places.map Place.node = root.nodes :=
  map_placesFrom [] none root

mutual

/-- A node is a child of the parent its place names, and both are nodes of the tree. -/
theorem mem_placesFrom (names : List (List Byte)) (parent : Option Node) (n : Node) :
    ∀ pl ∈ n.placesFrom names parent, pl = ⟨names, parent, n⟩ ∨
      ∃ m, pl.parent = some m ∧ m ∈ n.nodes ∧ pl.node ∈ m.children := by
  match n with
  | .mk name props children =>
      intro pl hpl
      rw [placesFrom] at hpl
      rcases List.mem_cons.mp hpl with rfl | hpl
      · exact .inl rfl
      · refine .inr ?_
        rcases mem_placesAll names (.mk name props children) children pl hpl with
          ⟨hparent, hmem⟩ | ⟨m, hparent, hm, hmem⟩
        · exact ⟨_, hparent, mem_nodes_self _, hmem⟩
        · exact ⟨m, hparent, by rw [nodes]; exact List.mem_cons_of_mem _ hm, hmem⟩

theorem mem_placesAll (names : List (List Byte)) (parent : Node) (ns : List Node) :
    ∀ pl ∈ placesAll names parent ns, (pl.parent = some parent ∧ pl.node ∈ ns) ∨
      ∃ m, pl.parent = some m ∧ m ∈ nodesAll ns ∧ pl.node ∈ m.children := by
  match ns with
  | [] => exact fun pl hpl => absurd hpl List.not_mem_nil
  | n :: ns =>
      intro pl hpl
      rw [placesAll] at hpl
      rw [nodesAll]
      rcases List.mem_append.mp hpl with hpl | hpl
      · rcases mem_placesFrom _ _ n pl hpl with rfl | ⟨m, hparent, hm, hmem⟩
        · exact .inl ⟨rfl, List.mem_cons_self⟩
        · exact .inr ⟨m, hparent, List.mem_append_left _ hm, hmem⟩
      · rcases mem_placesAll names parent ns pl hpl with ⟨hparent, hmem⟩ | ⟨m, hparent, hm, hmem⟩
        · exact .inl ⟨hparent, List.mem_cons_of_mem n hmem⟩
        · exact .inr ⟨m, hparent, List.mem_append_right _ hm, hmem⟩

end

theorem mem_places {root : Node} {pl : Place} (h : pl ∈ root.places) {parent : Node}
    (hparent : pl.parent = some parent) : parent ∈ root.nodes ∧ pl.node ∈ parent.children := by
  rcases mem_placesFrom [] none root pl h with rfl | ⟨m, hm, hnodes, hchild⟩
  · cases hparent
  · rw [hm] at hparent
    cases hparent
    exact ⟨hnodes, hchild⟩

/-! ## The base address -/

/-- The number a value starts with, as the source reads it. -/
def leadingNumber (data : List Byte) : Nat := beNat (data.take (if 8 ≤ data.length then 8 else 4))

/-- For `a` address cells, the source reads the first address of `reg`: `reg` is the first property
whose name starts with `reg`, and it has two address cells, or no room for a second cell, or starts
with zeros. Where another property comes first, it has to start with the same number. -/
def ReadsReg (a : Nat) (n : Node) : Prop :=
  ∃ q data, n.regLike = some q ∧ n.prop? "reg" = some data ∧
    if q.name = bytesOf "reg" then a = 2 ∨ data.length < 8 ∨ beNat (data.take 8) = 0
    else leadingNumber q.data = beNat (data.take (4 * a))

end Node

theorem regValue_toNat {data : List Byte} {base : Word} (h : regValue data = some base) :
    base.toNat = Node.leadingNumber data := by
  unfold regValue at h
  unfold Node.leadingNumber
  have hcell : ((cell data).setWidth 64).toNat = (cell data).toNat := by
    rw [BitVec.toNat_setWidth]
    have := (cell data).isLt
    omega
  by_cases h8 : 8 ≤ data.length
  · rw [if_pos h8, Option.some_inj] at h
    have hdrop : 4 ≤ (data.drop 4).length := by
      rw [List.length_drop]
      omega
    rw [if_pos h8, ← h, shl_or_cell_toNat _ (by rw [hcell]; exact (cell data).isLt), hcell,
      ← beNat_take_four (by omega), ← beNat_take_four hdrop, show 8 = 4 + 4 by rfl, List.take_add,
      beNat_append, List.length_take, Nat.min_eq_left hdrop, show (256 : Nat) ^ 4 = 2 ^ 32 by decide]
  · rw [if_neg h8] at h
    by_cases h4 : 4 ≤ data.length
    · rw [if_pos h4, Option.some_inj] at h
      rw [if_neg h8, ← h, hcell, beNat_take_four h4]
    · rw [if_neg h4] at h
      cases h

namespace Node

/-- The first property whose name starts with `reg` is `reg` itself. -/
theorem prop?_of_regLike {n : Node} {q : Property} (hq : n.regLike = some q)
    (hname : q.name = bytesOf "reg") : n.prop? "reg" = some q.data := by
  unfold regLike at hq
  unfold prop?
  rw [Option.map_eq_some_iff]
  refine ⟨q, ?_, rfl⟩
  generalize n.props = props at hq
  induction props with
  | nil => cases hq
  | cons r props ih =>
      rw [List.find?_cons] at hq ⊢
      by_cases hr : (bytesOf "reg").isPrefixOf r.name = true
      · rw [hr] at hq
        cases hq
        rw [hname, beq_self_eq_true]
      · rw [Bool.eq_false_iff.mpr hr] at hq
        have hne : r.name ≠ bytesOf "reg" := by
          intro heq
          rw [heq] at hr
          exact hr (by decide)
        rw [beq_false_of_ne hne]
        exact ih hq

theorem leadingNumber_eq_iff {a : Nat} (ha : a = 1 ∨ a = 2) {data : List Byte}
    (hlen : 4 * a ≤ data.length) :
    leadingNumber data = beNat (data.take (4 * a)) ↔
      a = 2 ∨ data.length < 8 ∨ beNat (data.take 8) = 0 := by
  unfold leadingNumber
  rcases ha with rfl | rfl
  · by_cases h8 : 8 ≤ data.length
    · have hdrop : 4 ≤ (data.drop 4).length := by
        rw [List.length_drop]
        omega
      have htake : beNat (data.take 8) = beNat (data.take 4) * 2 ^ 32 + beNat ((data.drop 4).take 4) := by
        rw [show 8 = 4 + 4 by rfl, List.take_add, beNat_append, List.length_take,
          Nat.min_eq_left hdrop, show (256 : Nat) ^ 4 = 2 ^ 32 by decide]
      have hlow : beNat ((data.drop 4).take 4) < 2 ^ 32 := by
        rw [beNat_take_four hdrop]
        exact (cell (data.drop 4)).isLt
      rw [if_pos h8, show 4 * 1 = 4 by rfl]
      omega
    · rw [if_neg h8]
      exact iff_of_true rfl (.inr (.inl (by omega)))
  · rw [if_pos hlen]
    exact iff_of_true rfl (.inl rfl)

/-- The number read from a child of `parent` is the first address of its `reg`, in the address cells of
the parent, just if `ReadsReg` holds. -/
theorem Proper.readsReg_iff {parent n : Node} (h : parent.Proper) (hn : n ∈ parent.children) {a : Nat}
    (hcount : parent.cellCount? "#address-cells" = some a) (ha : a = 1 ∨ a = 2) {q : Property}
    (hq : n.regLike = some q) :
    (∃ data, n.prop? "reg" = some data ∧ leadingNumber q.data = beNat (data.take (4 * a))) ↔
      ReadsReg a n := by
  have haddr : parent.addressCells = a := congrArg (Option.getD · 2) hcount
  -- if the property is `reg` itself, the cells decide
  have hreg : ∀ data, n.prop? "reg" = some data → q.name = bytesOf "reg" →
      (leadingNumber q.data = beNat (data.take (4 * a)) ↔
        a = 2 ∨ data.length < 8 ∨ beNat (data.take 8) = 0) := by
    intro data hdata hname
    have hsame := prop?_of_regLike hq hname
    rw [hdata, Option.some_inj] at hsame
    obtain ⟨hne, hdvd⟩ := h.reg n hn data hdata
    have hle := Nat.le_of_dvd (List.length_pos_iff.mpr hne) hdvd
    rw [haddr] at hle
    rw [← hsame]
    exact leadingNumber_eq_iff ha (by omega)
  constructor
  · rintro ⟨data, hdata, hnumber⟩
    refine ⟨q, data, hq, hdata, ?_⟩
    split
    · rename_i hname
      exact (hreg data hdata hname).mp hnumber
    · exact hnumber
  · rintro ⟨q', data, hq', hdata, hcond⟩
    rw [hq, Option.some_inj] at hq'
    subst hq'
    refine ⟨data, hdata, ?_⟩
    split at hcond
    · rename_i hname
      exact (hreg data hdata hname).mpr hcond
    · exact hcond

end Node

end Fdt

open Fdt

/-- **The base address of the UART.** On a well-formed tree `dtb_get_stdout_uart_base` comes to an end.
If it returns 0, the base address is the first address of the `reg` of the selected node, in the one or
two address cells its parent declares, just if `ReadsReg` holds of the node. -/
theorem uart_base_iff {env : BootEnv} {ts : List (Option Token)} {root : Node}
    (h : env.Flattened ts root) :
    ∃ steps, ∀ fuel, steps ≤ fuel → ∀ frame, ∃ run,
      env.dtbGetStdoutUartBase frame fuel = some run ∧
      ∀ i base, run.found = some (i, base) → ∃ pl, root.places[i]? = some pl ∧
        ∀ parent a, pl.parent = some parent → parent.cellCount? "#address-cells" = some a →
          (a = 1 ∨ a = 2) →
            ((∃ data, pl.node.prop? "reg" = some data ∧ base.toNat = beNat (data.take (4 * a))) ↔
              pl.node.ReadsReg a) := by
  obtain ⟨steps, hrun⟩ := h.dtbGetStdoutUartBase_eq
  refine ⟨steps, fun fuel hfuel frame => ?_⟩
  obtain ⟨run, hsome, hfollows⟩ := hrun fuel hfuel frame
  refine ⟨run, hsome, fun i base hfound => ?_⟩
  rw [hfollows.found] at hfound
  obtain ⟨target, -, hlocated⟩ := Option.bind_eq_some_iff.mp hfound
  rw [h.wellFormed.located_eq] at hlocated
  obtain ⟨k, n, q, hik, -, -, hn, hq, hbase⟩ := exists_of_search hlocated
  rw [Nat.zero_add] at hik
  subst hik
  rw [← root.map_places, List.getElem?_map] at hn
  obtain ⟨pl, hpl, rfl⟩ := Option.map_eq_some_iff.mp hn
  refine ⟨pl, hpl, fun parent a hparent hcount ha => ?_⟩
  obtain ⟨hmem, hchild⟩ := Node.mem_places (List.mem_of_getElem? hpl) hparent
  rw [regValue_toNat hbase]
  exact (h.wellFormed.proper parent hmem).readsReg_iff hchild hcount ha hq

/-! ## A UART with one or two address cells -/

/-- A tree with a UART at `0x09000000`, and with `k` address and size cells. -/
def uartRoot (k : Byte) (reg : List Byte) : Node :=
  .mk [] [⟨bytesOf "#address-cells", [0, 0, 0, k]⟩, ⟨bytesOf "#size-cells", [0, 0, 0, k]⟩] [
    .mk (bytesOf "chosen") [⟨bytesOf "stdout-path", bytesOf "/uart:115200" ++ [0]⟩] [],
    .mk (bytesOf "uart") [⟨bytesOf "reg", reg⟩] []]

/-- One address cell and one size cell. -/
def uartOneCell : Node := uartRoot 1 [0x09, 0, 0, 0, 0, 0, 0x10, 0]

/-- Two cells each. -/
def uartTwoCells : Node := uartRoot 2 [0, 0, 0, 0, 0x09, 0, 0, 0, 0, 0, 0, 0, 0, 0, 0x10, 0]

theorem flattened_uartOneCell :
    (blobEnv (uartOneCell.tokens.map some)).Flattened (uartOneCell.tokens.map some) uartOneCell :=
  flattened_blobEnv rfl (by decide +kernel)

theorem flattened_uartTwoCells :
    (blobEnv (uartTwoCells.tokens.map some)).Flattened (uartTwoCells.tokens.map some) uartTwoCells :=
  flattened_blobEnv rfl (by decide +kernel)

theorem uart_base_two_cells :
    ∃ fuel run base, (blobEnv (uartTwoCells.tokens.map some)).dtbGetStdoutUartBase
        ⟨fun _ => 0xff, fun _ => 0xff⟩ fuel = some run ∧
      run.found = some (2, base) ∧ base.toNat = 0x09000000 := by
  obtain ⟨n, hn⟩ := uart_base_iff flattened_uartTwoCells
  obtain ⟨m, hm⟩ := flattened_uartTwoCells.dtbGetStdoutUartBase_eq
  obtain ⟨run, hrun, hiff⟩ := hn (n + m) (Nat.le_add_right n m) ⟨fun _ => 0xff, fun _ => 0xff⟩
  obtain ⟨run', hrun', hfollows⟩ := hm (n + m) (Nat.le_add_left m n) ⟨fun _ => 0xff, fun _ => 0xff⟩
  rw [hrun, Option.some_inj] at hrun'
  subst hrun'
  have hfound : run.found = some (2, 0x09000000) := hfollows.found.trans (by decide)
  refine ⟨n + m, run, 0x09000000, hrun, hfound, ?_⟩
  obtain ⟨pl, hpl, hbase⟩ := hiff 2 0x09000000 hfound
  have hplace : pl = ⟨[bytesOf "uart"], some uartTwoCells, .mk (bytesOf "uart") [⟨bytesOf "reg",
      [0, 0, 0, 0, 0x09, 0, 0, 0, 0, 0, 0, 0, 0, 0, 0x10, 0]⟩] []⟩ := by
    have hplaces : uartTwoCells.places[2]? = some ⟨[bytesOf "uart"], some uartTwoCells,
      .mk (bytesOf "uart") [⟨bytesOf "reg",
        [0, 0, 0, 0, 0x09, 0, 0, 0, 0, 0, 0, 0, 0, 0, 0x10, 0]⟩] []⟩ := rfl
    rw [hplaces, Option.some_inj] at hpl
    exact hpl.symm
  subst hplace
  obtain ⟨data, hdata, hvalue⟩ := (hbase uartTwoCells 2 rfl (by decide) (.inr rfl)).mpr
    ⟨_, _, rfl, rfl, .inl rfl⟩
  cases hdata
  rw [hvalue]
  decide

/-- With one address cell the size is read as part of the address. -/
theorem uart_base_takes_size :
    (blobEnv (uartOneCell.tokens.map some)).Flattened (uartOneCell.tokens.map some) uartOneCell ∧
      uartOneCell.cellCount? "#address-cells" = some 1 ∧
      ((blobEnv (uartOneCell.tokens.map some)).dtbGetStdoutUartBase
        ⟨fun _ => 0xff, fun _ => 0xff⟩ 60).map StdoutRun.found =
          some (some (2, 0x0900000000001000)) :=
  ⟨flattened_uartOneCell, by decide, by decide +kernel⟩

/-! ## The bounds of the path -/

namespace Fdt

/-- The bytes of the names of the nodes with children, with a separator each. -/
def openBytes (ns : List Node) : Nat :=
  ((ns.filter fun n => !n.children.isEmpty).map fun n => n.name.length + 1).sum

theorem openBytes_cons (n : Node) (ns : List Node) :
    openBytes (n :: ns) = (if n.children.isEmpty then 0 else n.name.length + 1) + openBytes ns := by
  unfold openBytes
  rw [List.filter_cons]
  cases n.children.isEmpty with
  | true => simp
  | false => simp

theorem length_enterPath (path name : List Byte) :
    (enterPath path name).length =
      (separated path).length + min (254 - (separated path).length) name.length := by
  rw [enterPath, List.length_append, List.length_take]

/-- The separator behind a path that has just been extended. -/
theorem length_separated_enterPath (path : List Byte) {name : List Byte} (hname : name ≠ []) :
    (separated (enterPath path name)).length = (enterPath path name).length + 1 := by
  have hpos : 0 < name.length := List.length_pos_iff.mpr hname
  have hne : enterPath path name ≠ [] := by
    rw [← List.length_pos_iff, length_enterPath]
    omega
  rw [separated, if_neg hne, List.length_append, List.length_singleton]

/-- A path fits just if the names in front of it do. -/
theorem spelled_fits_iff {ns : List Node} (hnames : ∀ n ∈ ns, n.name ≠ []) {path p : List Byte}
    {j : Nat} (hp : (spelled path ns)[j]? = some p) :
    p.length ≤ 254 ↔ (separated path).length + openBytes (ns.take j) ≤ 254 := by
  induction ns generalizing path j with
  | nil => cases hp
  | cons n ns ih =>
      cases j with
      | zero =>
          cases hp
          rw [length_enterPath, List.take_zero]
          show _ ↔ (separated path).length + 0 ≤ 254
          omega
      | succ j =>
          rw [ih (fun m hm => hnames m (List.mem_cons_of_mem n hm)) hp, List.take_succ_cons,
            openBytes_cons]
          unfold pathBehind
          cases n.children.isEmpty with
          | true => simp
          | false =>
              have hname := hnames n List.mem_cons_self
              simp only [Bool.false_eq_true, if_false, length_separated_enterPath path hname,
                length_enterPath]
              omega

theorem length_spelled (path : List Byte) (ns : List Node) : (spelled path ns).length = ns.length := by
  induction ns generalizing path with
  | nil => rfl
  | cons n ns ih => rw [spelled, List.length_cons, List.length_cons, ih]

theorem Node.WellFormed.spelled_fits_iff {root : Node} (h : root.WellFormed) {p : List Byte} {j : Nat}
    (hp : (spelled [] root.nodes)[j]? = some p) :
    p.length ≤ 254 ↔ openBytes (root.nodes.take j).tail ≤ 254 := by
  have htail := root.name_of_mem_nodes h.proper
  rw [root.nodes_eq_cons] at hp ⊢
  -- the root has an empty name and leaves the path empty
  have henter : enterPath [] root.name = [] := by
    rw [h.name]
    rfl
  have hbehind : pathBehind [] root = [] := by
    rw [pathBehind, henter, ite_self]
  rw [spelled, henter, hbehind] at hp
  cases j with
  | zero =>
      cases hp
      exact iff_of_true (Nat.zero_le _) (Nat.zero_le _)
  | succ j =>
      rw [Fdt.spelled_fits_iff (fun n hn => (htail n hn).1) hp, List.take_succ_cons, List.tail_cons]
      show 0 + openBytes (root.nodes.tail.take j) ≤ 254 ↔ _
      rw [Nat.zero_add]

end Fdt

/-- **The arrays of `dtb_get_stdout_uart_base`.** On a well-formed tree the function comes to an end. All
its writes are in bounds just if, for each node the second pass comes to, the names of the nodes with
children in front of it fit in the path. -/
theorem stdout_in_bounds_iff {env : BootEnv} {ts : List (Option Token)} {root : Node}
    (h : env.Flattened ts root) :
    ∃ steps, ∀ fuel, steps ≤ fuel → ∀ frame, ∃ run,
      env.dtbGetStdoutUartBase frame fuel = some run ∧
      (run.InBounds ↔ ∀ target, root.resolved = some target → ∀ j < root.nodes.length,
        (∀ k < j, ¬ Matches target [] root.nodes k) →
          openBytes (root.nodes.take j).tail ≤ 254) := by
  obtain ⟨steps, hrun⟩ := h.dtbGetStdoutUartBase_eq
  refine ⟨steps, fun fuel hfuel frame => ?_⟩
  obtain ⟨run, hsome, hfollows⟩ := hrun fuel hfuel frame
  refine ⟨run, hsome, ?_⟩
  rw [hfollows.inBounds]
  refine forall_congr' fun target => imp_congr_right fun _ => ?_
  rw [h.wellFormed.located_eq, search_safe_iff, and_iff_right rfl]
  constructor
  · intro hfits j hj hfirst
    have hp : (spelled [] root.nodes)[j]? = some _ :=
      List.getElem?_eq_getElem (by rw [length_spelled]; exact hj)
    exact (h.wellFormed.spelled_fits_iff hp).mp (hfits j _ hp hfirst)
  · intro hfits j p hp hfirst
    have hj : j < root.nodes.length := by
      obtain ⟨hj, -⟩ := List.getElem?_eq_some_iff.mp hp
      rwa [length_spelled] at hj
    exact (h.wellFormed.spelled_fits_iff hp).mpr (hfits j hj hfirst)

/-! ## Buses with long names -/

/-- A name of 31 bytes. -/
def busName (i : Nat) : List Byte := List.replicate 30 0x62 ++ [BitVec.ofNat 8 (0x30 + i)]

/-- A tree with `n` buses, each with a device. -/
def busRoot (n : Nat) : Node :=
  .mk [] [] (.mk (bytesOf "chosen") [⟨bytesOf "stdout-path", bytesOf "/uart" ++ [0]⟩] [] ::
    (List.range n).map fun i => .mk (busName i) [] [.mk (bytesOf "device") [] []])

theorem flattened_busRoot {n : Nat} (h : n = 7 ∨ n = 8) :
    (blobEnv ((busRoot n).tokens.map some)).Flattened ((busRoot n).tokens.map some) (busRoot n) := by
  rcases h with rfl | rfl
  · exact flattened_blobEnv rfl (by decide +kernel)
  · exact flattened_blobEnv rfl (by decide +kernel)

theorem stdout_in_bounds_seven_buses :
    ∃ fuel run, (blobEnv ((busRoot 7).tokens.map some)).dtbGetStdoutUartBase
        ⟨fun _ => 0xff, fun _ => 0xff⟩ fuel = some run ∧ run.InBounds := by
  obtain ⟨steps, hrun⟩ := stdout_in_bounds_iff (flattened_busRoot (.inl rfl))
  obtain ⟨run, hsome, hiff⟩ := hrun steps (Nat.le_refl steps) ⟨fun _ => 0xff, fun _ => 0xff⟩
  refine ⟨steps, run, hsome, hiff.mpr fun target _ j hj _ => ?_⟩
  have hall : (List.range (busRoot 7).nodes.length).all
      (fun j => openBytes ((busRoot 7).nodes.take j).tail ≤ 254) = true := by decide +kernel
  exact of_decide_eq_true (List.all_eq_true.mp hall j (List.mem_range.mpr hj))

/-- With eight buses the path is written past its end. -/
theorem stdout_writes_out_of_bounds :
    (blobEnv ((busRoot 8).tokens.map some)).Flattened ((busRoot 8).tokens.map some) (busRoot 8) ∧
      ∃ fuel run, (blobEnv ((busRoot 8).tokens.map some)).dtbGetStdoutUartBase
        ⟨fun _ => 0xff, fun _ => 0xff⟩ fuel = some run ∧ ¬ run.InBounds := by
  refine ⟨flattened_busRoot (.inr rfl), ?_⟩
  obtain ⟨steps, hrun⟩ := (flattened_busRoot (n := 8) (.inr rfl)).dtbGetStdoutUartBase_eq
  obtain ⟨run, hsome, hfollows⟩ := hrun steps (Nat.le_refl steps) ⟨fun _ => 0xff, fun _ => 0xff⟩
  refine ⟨steps, run, hsome, ?_⟩
  intro hin
  have hsafe := hfollows.inBounds.mp hin (bytesOf "/uart") (by decide +kernel)
  exact absurd hsafe (by decide +kernel)

end Arcline
