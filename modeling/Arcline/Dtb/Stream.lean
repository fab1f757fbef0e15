import Mathlib.Data.List.ReduceOption
import Mathlib.Tactic.Ring
import Arcline.Mm.Reserved

set_option autoImplicit false

/-! # Well-formed device trees

`Encodes` leaves open where the `NOP` tokens of a blob are and what its padding holds. `Stream` says
both, and can be evaluated; on a stream a loop over the tokens is followed token by token.
`WellFormed` says which trees follow the conventions for names, cell counts and `reg` properties.
-/

namespace Arcline

namespace Fdt

/-! ## Streams of tokens -/

/-- A value with zeros behind it up to a multiple of 4 bytes. -/
def pad (data : List Byte) : List Byte := data.rightpad (4 * ((data.length + 3) / 4)) 0

/-- From `p` on, the blob holds the tokens, `none` for a `NOP`, and then the end token. -/
def Stream (fdt : Nat → Byte) : Nat → List (Option Token) → Prop
  | p, [] => p + 4 ≤ 2 ^ 32 ∧ be32 fdt p = tokenEnd
  | p, none :: ts => be32 fdt p = nop ∧ Stream fdt (p + 4) ts
  | p, some (.beginNode name) :: ts =>
      be32 fdt p = beginNode ∧ startsWith fdt (p + 4) (name ++ [0]) = true ∧ 0 ∉ name ∧
        Stream fdt (p + 4 + 4 * ((name.length + 4) / 4)) ts
  | p, some (.prop name data) :: ts =>
      be32 fdt p = prop ∧ (be32 fdt (p + 4)).toNat = data.length ∧
        startsWith fdt ((offStrings fdt).toNat + (be32 fdt (p + 8)).toNat) (name ++ [0]) = true ∧
        0 ∉ name ∧ startsWith fdt (p + 12) (pad data) = true ∧
        Stream fdt (p + 12 + 4 * ((data.length + 3) / 4)) ts
  | p, some .endNode :: ts => be32 fdt p = endNode ∧ Stream fdt (p + 4) ts

variable {fdt : Nat → Byte} {p off : Nat} {ts : List (Option Token)}

theorem startsWith_append (s t : List Byte) :
    startsWith fdt off (s ++ t) = (startsWith fdt off s && startsWith fdt (off + s.length) t) := by
  induction s generalizing off with
  | nil => rfl
  | cons b s ih =>
      rw [List.cons_append, startsWith, startsWith, ih, Bool.and_assoc, List.length_cons,
        Nat.add_assoc, Nat.add_comm 1]

theorem Stream.encodes (h : Stream fdt p ts) : Encodes fdt p ts.reduceOption := by
  induction ts generalizing p with
  | nil => exact .done h.1 h.2
  | cons t ts ih =>
      match t, h with
      | none, ⟨htoken, hrest⟩ => exact .nop htoken (ih hrest)
      | some (.beginNode name), ⟨htoken, hname, hzero, hrest⟩ =>
          exact .beginNode htoken hname hzero (ih hrest)
      | some (.prop name data), ⟨htoken, hlen, hname, _, hdata, hrest⟩ =>
          rw [pad, List.rightpad, startsWith_append, Bool.and_eq_true] at hdata
          exact .prop htoken hlen hname hdata.1 (ih hrest)
      | some .endNode, ⟨htoken, hrest⟩ => exact .endNode htoken (ih hrest)

theorem Stream.le (h : Stream fdt p ts) : p + 4 ≤ 2 ^ 32 := h.encodes.le

theorem be32_top (fdt : Nat → Byte) (off : Nat) : (be32 fdt off).extractLsb' 24 8 = fdt off := by
  ext i hi
  rw [BitVec.getElem_extractLsb', be32, BitVec.getLsbD_append, BitVec.getLsbD_append,
    BitVec.getLsbD_append, if_neg (by omega), if_neg (by omega), if_neg (by omega),
    show 24 + i - 8 - 8 - 8 = i by omega]
  exact BitVec.getLsbD_eq_getElem hi

/-- A token starts with a zero byte. -/
theorem Stream.head_eq_zero (h : Stream fdt p ts) : fdt p = 0 := by
  rw [← be32_top fdt p]
  match ts, h with
  | [], h => rw [h.2]; rfl
  | none :: _, h => rw [h.1]; rfl
  | some (.beginNode _) :: _, h => rw [h.1]; rfl
  | some (.prop _ _) :: _, h => rw [h.1]; rfl
  | some .endNode :: _, h => rw [h.1]; rfl

/-- A value is followed by a zero byte: padding, or the first byte of the next token. -/
theorem Stream.data_zero {data : List Byte} (hdata : startsWith fdt off (pad data) = true)
    (h : Stream fdt (off + 4 * ((data.length + 3) / 4)) ts) :
    startsWith fdt off (data ++ [0]) = true := by
  rw [pad, List.rightpad, startsWith_append, Bool.and_eq_true] at hdata
  rw [startsWith_append, hdata.1, Bool.true_and]
  cases hpad : 4 * ((data.length + 3) / 4) - data.length with
  | zero =>
      -- no padding: the next token follows
      rw [show 4 * ((data.length + 3) / 4) = data.length by omega] at h
      simp [startsWith, h.head_eq_zero]
  | succ k =>
      rw [hpad, List.replicate_succ, startsWith, Bool.and_eq_true] at hdata
      simpa [startsWith] using hdata.2.1

/-! ## A loop over a stream -/

section Loop

variable {σ τ ρ : Type} {V : Visit σ ρ} {view : σ → τ} {act : τ → Token → Except ρ τ} {q : BitVec 32}
  {fuel : Nat}

/-- What a loop does at each token, given the names and values themselves; `view` is what is seen of its
variables. -/
structure Visit.Acts (fdt : Nat → Byte) (V : Visit σ ρ) (view : σ → τ) (act : τ → Token → Except ρ τ) :
    Prop where
  beginNode : ∀ {s off name}, startsWith fdt off (name ++ [0]) = true → 0 ∉ name →
    act (view s) (.beginNode name) = .ok (view (V.beginNode s off name.length))
  prop : ∀ {s pname pdata name data len}, startsWith fdt pname (name ++ [0]) = true → 0 ∉ name →
    startsWith fdt pdata (data ++ [0]) = true → BitVec.toNat len = data.length →
      act (view s) (.prop name data) = (V.prop s pname pdata len).map view
  endNode : ∀ s, act (view s) .endNode = .ok (view (V.endNode s))

/-- One turn takes one token of the stream. -/
theorem Stream.turn (hacts : V.Acts fdt view act) {t : Option Token} (h : Stream fdt p (t :: ts))
    (hq : q.toNat = p) (hfuel : 2 ^ 32 ≤ fuel) (s : σ) :
    ∃ next, Fdt.turn fdt V fuel (q, s) = some next ∧
      (next.map fun s' => view s'.2) = t.elim (.ok (view s)) (act (view s)) ∧
      ∀ s', next = .ok s' → Stream fdt s'.1.toNat ts := by
  match t, h with
  | none, ⟨htoken, hrest⟩ =>
      refine ⟨_, turn_nop (hq ▸ htoken), rfl, fun s' hs' => ?_⟩
      cases hs'
      exact (hrest.encodes.add_four hq).symm ▸ hrest
  | some (.beginNode name), ⟨htoken, hname, hzero, hrest⟩ =>
      obtain ⟨hp4, hskip⟩ := hrest.encodes.skipName_toNat hq
      have hle := hrest.le
      have hlen := nameLen_eq (hp4 ▸ hname) hzero (show name.length < fuel by omega) 0
      rw [Nat.zero_add] at hlen
      refine ⟨.ok (skipName (q + 4) name.length, V.beginNode s (q + 4).toNat name.length), ?_,
        (hacts.beginNode (hp4 ▸ hname) hzero).symm, fun s' hs' => ?_⟩
      · rw [turn_beginNode (hq ▸ htoken), hlen]
        rfl
      · cases hs'
        exact hskip.symm ▸ hrest
  | some (.prop name data), ⟨htoken, hlen, hname, hzero, hpad, hrest⟩ =>
      have hle := hrest.le
      obtain ⟨hp4, hp8, hp12, hskip⟩ := prop_places hq hlen (by omega)
      refine ⟨_, turn_prop (hq ▸ htoken), ?_, fun s' hs' => ?_⟩
      · rw [hp4, hp8, hp12, Option.elim_some, hacts.prop hname hzero (hrest.data_zero hpad) hlen]
        cases V.prop s _ _ _ <;> rfl
      · rw [hp4] at hs'
        obtain ⟨s₁, rfl⟩ := exists_of_map_ok hs'
        exact hskip.symm ▸ hrest
  | some .endNode, ⟨htoken, hrest⟩ =>
      refine ⟨_, turn_endNode (hq ▸ htoken), (hacts.endNode s).symm, fun s' hs' => ?_⟩
      cases hs'
      exact (hrest.encodes.add_four hq).symm ▸ hrest

/-- A loop goes on with `f` unless it has ended. -/
def andThen {τ ρ : Type} (x : Except ρ τ) (f : τ → ρ) : ρ :=
  match x with
  | .error r => r
  | .ok t => f t

/-- **The loop over a whole stream** does at each token what `act` says. -/
theorem Stream.loop_eq (hacts : V.Acts fdt view act) (stop : τ → ρ) (hstop : ∀ s, V.stop s = stop (view s))
    (h : Stream fdt p ts) (hq : q.toNat = p) (hfuel : 2 ^ 32 + ts.length < fuel) (s : σ) :
    Fuel.loop (Fdt.turn fdt V) fuel (q, s) =
      some (andThen (ts.reduceOption.foldlM act (view s)) stop) := by
  induction ts generalizing p q fuel s with
  | nil =>
      rcases fuel with _ | fuel
      · omega
      have hturn : Fdt.turn fdt V fuel (q, s) = some (.error (V.stop s)) := by
        apply turn_stop <;> rw [hq, h.2] <;> decide
      rw [Fuel.loop_of_error hturn, hstop]
      rfl
  | cons t ts ih =>
      rcases fuel with _ | fuel
      · omega
      rw [List.length_cons] at hfuel
      obtain ⟨next, hturn, hview, hrest⟩ := h.turn hacts hq (show 2 ^ 32 ≤ fuel by omega) s
      have hfold : (t :: ts).reduceOption.foldlM act (view s) =
          (next.map fun s' => view s'.2).bind fun t => ts.reduceOption.foldlM act t := by
        rw [hview]
        cases t with
        | none => rfl
        | some t => rw [List.reduceOption_cons_of_some, List.foldlM_cons]; rfl
      rw [hfold]
      cases next with
      | error r => exact Fuel.loop_of_error hturn
      | ok s' => exact (Fuel.loop_of_ok hturn).trans (ih (hrest s' rfl) rfl (by omega) s'.2)

end Loop

/-! ## Comparing strings -/

/-- Comparing the first bytes of a string. -/
theorem startsWith_prefix_iff {data s : List Byte} (hdata : startsWith fdt off (data ++ [0]) = true)
    (hs : 0 ∉ s) : startsWith fdt off s = true ↔ s <+: data := by
  induction s generalizing data off with
  | nil => simp [startsWith]
  | cons b s ih =>
      simp only [List.mem_cons, not_or] at hs
      cases data with
      | nil =>
          have h0 : fdt off = 0 := by simpa [startsWith] using hdata
          rw [startsWith, h0, beq_false_of_ne hs.1]
          simp
      | cons a data =>
          simp only [List.cons_append, startsWith, Bool.and_eq_true, beq_iff_eq] at hdata
          rw [startsWith, Bool.and_eq_true, beq_iff_eq, hdata.1, ih hdata.2 hs.2,
            List.cons_prefix_cons, @eq_comm _ a b]

/-- Comparing whole strings. -/
theorem startsWith_string_iff {name s : List Byte} (hname : startsWith fdt off (name ++ [0]) = true)
    (hzero : 0 ∉ name) (hs : 0 ∉ s) : startsWith fdt off (s ++ [0]) = true ↔ name = s := by
  constructor
  · intro h
    have hpre : s <+: name :=
      (startsWith_prefix_iff hname hs).mp (by rw [startsWith_append, Bool.and_eq_true] at h; exact h.1)
    have hpre' : name <+: s :=
      (startsWith_prefix_iff h hzero).mp
        (by rw [startsWith_append, Bool.and_eq_true] at hname; exact hname.1)
    exact hpre'.eq_of_length_le hpre.length_le
  · rintro rfl
    exact hname

theorem isString_iff {name : List Byte} {s : String}
    (hname : startsWith fdt off (name ++ [0]) = true) (hzero : 0 ∉ name) (hs : 0 ∉ bytesOf s) :
    isString fdt off s = true ↔ name = bytesOf s :=
  startsWith_string_iff hname hzero hs

/-! ## Cells -/

/-- The cell a value starts with. -/
def cell : List Byte → BitVec 32
  | a :: b :: c :: d :: _ => a ++ b ++ c ++ d
  | _ => 0

theorem be32_eq_cell {data : List Byte} (hdata : startsWith fdt off data = true)
    (hlen : 4 ≤ data.length) : be32 fdt off = cell data := by
  match data, hlen with
  | a :: b :: c :: d :: _, _ =>
      simp only [startsWith, Bool.and_eq_true, beq_iff_eq] at hdata
      obtain ⟨ha, hb, hc, hd, -⟩ := hdata
      rw [be32, cell, ha, hb, hc, hd]

theorem startsWith_drop {data : List Byte} (hdata : startsWith fdt off data = true) (n : Nat)
    (hlen : n ≤ data.length) : startsWith fdt (off + n) (data.drop n) = true := by
  rw [← List.take_append_drop n data, startsWith_append, Bool.and_eq_true, List.length_take,
    Nat.min_eq_left hlen] at hdata
  exact hdata.2

theorem beNat_append (s t : List Byte) : beNat (s ++ t) = beNat s * 256 ^ t.length + beNat t := by
  have hfold : ∀ (l : List Byte) (n : Nat),
      l.foldl (fun n b => 256 * n + b.toNat) n =
        n * 256 ^ l.length + l.foldl (fun n b => 256 * n + b.toNat) 0 := by
    intro l
    induction l with
    | nil => intro n; simp
    | cons b l ih =>
        intro n
        rw [List.foldl_cons, List.foldl_cons, ih, ih (256 * 0 + b.toNat), List.length_cons]
        ring
  unfold beNat
  rw [List.foldl_append, hfold]

theorem append_byte_toNat {w : Nat} (x : BitVec w) (b : Byte) :
    (x ++ b).toNat = x.toNat * 2 ^ 8 + b.toNat := by
  rw [BitVec.toNat_append, ← Nat.shiftLeft_add_eq_or_of_lt b.isLt, Nat.shiftLeft_eq]

theorem beNat_take_four {data : List Byte} (hlen : 4 ≤ data.length) :
    beNat (data.take 4) = (cell data).toNat := by
  match data, hlen with
  | a :: b :: c :: d :: _, _ =>
      rw [cell, append_byte_toNat, append_byte_toNat, append_byte_toNat]
      simp only [List.take_succ_cons, List.take_zero, beNat, List.foldl_cons, List.foldl_nil]
      omega

theorem shl_or_cell_toNat {acc : Word} (c : BitVec 32) (h : acc.toNat < 2 ^ 32) :
    ((acc <<< 32) ||| c.setWidth 64).toNat = acc.toNat * 2 ^ 32 + c.toNat := by
  have hc := c.isLt
  have hshl : (acc <<< 32).toNat = acc.toNat <<< 32 := by
    rw [BitVec.toNat_shiftLeft, Nat.mod_eq_of_lt]
    rw [Nat.shiftLeft_eq]
    omega
  have hset : (c.setWidth 64).toNat = c.toNat := by
    rw [BitVec.toNat_setWidth]
    omega
  rw [BitVec.toNat_or, hshl, hset, ← Nat.shiftLeft_add_eq_or_of_lt hc, Nat.shiftLeft_eq]

/-! ## Well-formed trees -/

def slash : Byte := 0x2f

namespace Node

mutual

/-- The nodes in the order of the blob. -/
def nodes : Node → List Node
  | .mk name props children => .mk name props children :: nodesAll children

def nodesAll : List Node → List Node
  | [] => []
  | n :: ns => n.nodes ++ nodesAll ns

end

def addressCells (n : Node) : Nat := n.cells "#address-cells"

def sizeCells (n : Node) : Nat :=
  ((n.prop? "#size-cells").map fun data => beNat (data.take 4)).getD 1

/-- The number of cells a node declares. -/
def cellCount? (n : Node) (name : String) : Option Nat :=
  (n.prop? name).map fun data => beNat (data.take 4)

/-- The conventions for the names of properties and children, for the cell counts, and for the `reg`
properties of the children, which are sequences of tuples. -/
structure Proper (n : Node) : Prop where
  propNames : ∀ q ∈ n.props, q.name ≠ []
  propsDistinct : (n.props.map Property.name).Nodup
  childNames : ∀ c ∈ n.children, c.name ≠ [] ∧ slash ∉ c.name
  childrenDistinct : (n.children.map name).Nodup
  cells : ∀ q ∈ n.props,
    q.name = bytesOf "#address-cells" ∨ q.name = bytesOf "#size-cells" → q.data.length = 4
  reg : ∀ c ∈ n.children, ∀ data ∈ c.prop? "reg",
    data ≠ [] ∧ 4 * (n.addressCells + n.sizeCells) ∣ data.length

instance (n : Node) : Decidable n.Proper :=
  decidable_of_iff (_ ∧ _ ∧ _ ∧ _ ∧ _ ∧ _)
    ⟨fun h => ⟨h.1, h.2.1, h.2.2.1, h.2.2.2.1, h.2.2.2.2.1, h.2.2.2.2.2⟩,
      fun h => ⟨h.propNames, h.propsDistinct, h.childNames, h.childrenDistinct, h.cells, h.reg⟩⟩

structure WellFormed (root : Node) : Prop where
  name : root.name = []
  proper : ∀ n ∈ root.nodes, n.Proper

instance (root : Node) : Decidable root.WellFormed :=
  decidable_of_iff (_ ∧ _) ⟨fun h => ⟨h.1, h.2⟩, fun h => ⟨h.name, h.proper⟩⟩

theorem prop?_eq_some {n : Node} {name : String} {data : List Byte} (h : n.prop? name = some data) :
    ⟨bytesOf name, data⟩ ∈ n.props := by
  obtain ⟨q, hfind, rfl⟩ := Option.map_eq_some_iff.mp h
  have hname : q.name = bytesOf name := by simpa using List.find?_some hfind
  rw [← hname]
  exact List.mem_of_find?_eq_some hfind

theorem mem_nodes_self (n : Node) : n ∈ n.nodes := by
  cases n
  exact List.mem_cons_self

end Node

end Fdt

/-- The blob at `dtb_ptr` is well-formed: it holds the tokens of a well-formed tree, with `NOP` tokens
between them. -/
structure BootEnv.Flattened (env : BootEnv) (ts : List (Option Fdt.Token)) (root : Fdt.Node) :
    Prop where
  ptr : env.dtbPtr ≠ 0
  magic : Fdt.be32 env.fdt 0 = Fdt.magic
  aligned : 4 ∣ (Fdt.offStruct env.fdt).toNat
  stream : Fdt.Stream env.fdt (Fdt.offStruct env.fdt).toNat ts
  tokens : ts.reduceOption = root.tokens
  wellFormed : root.WellFormed

end Arcline
