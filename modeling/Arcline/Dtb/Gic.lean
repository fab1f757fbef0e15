import Arcline.Dtb.Assemble

set_option autoImplicit false

/-! # The version of the interrupt controller

`gic_detect_version` walks the tokens of the device tree for a `compatible` property that starts with
`arm,gic-v3`. It ends at the first token it does not know, and `NOP` is one of them: the version is
right if such a property comes before the first `NOP`, or if there is none at all.
-/

namespace Arcline

namespace Fdt

/-- `gic_detect_version`, from the token at `p` on. -/
def gicVersion (fdt : Nat → Byte) : Nat → BitVec 32 → Option Nat
  | 0, _ => none
  | fuel + 1, p =>
      let token := be32 fdt p.toNat
      let p := p + 4
      if token = beginNode then
        (nameLen fdt fuel p.toNat 0).bind fun len =>
          gicVersion fdt fuel ((p + BitVec.ofNat 32 len + 4) &&& ~~~3)
      else if token = prop then
        let len := be32 fdt p.toNat
        let nameOff := be32 fdt (p + 4).toNat
        let pname := (offStrings fdt).toNat + nameOff.toNat
        if isString fdt pname "compatible" && startsWith fdt (p + 8).toNat (bytesOf "arm,gic-v3") then
          some 3
        else gicVersion fdt fuel ((p + 8 + len + 3) &&& ~~~3)
      else if token = endNode then gicVersion fdt fuel p
      else some 2

end Fdt

/-- `gic_detect_version`. -/
def BootEnv.gicDetectVersion (env : BootEnv) (fuel : Nat) : Option Nat :=
  if env.dtbPtr = 0 then some 2 else Fdt.gicVersion env.fdt fuel (Fdt.offStruct env.fdt)

namespace Fdt

/-! ## What the tree says -/

def Property.isGicV3 (q : Property) : Bool :=
  q.name == bytesOf "compatible" && (bytesOf "arm,gic-v3").isPrefixOf q.data

/-- The version the tree declares. -/
def Node.declaredGic (root : Node) : Nat :=
  if root.nodes.any fun n => n.props.any Property.isGicV3 then 3 else 2

def Token.isGicV3 : Token → Bool
  | .prop name data => Property.isGicV3 ⟨name, data⟩
  | _ => false

mutual

theorem Node.any_tokens (n : Node) :
    n.tokens.any Token.isGicV3 = n.nodes.any fun m => m.props.any Property.isGicV3 := by
  match n with
  | .mk name props children =>
      rw [Node.tokens, Node.nodes, List.any_cons, List.any_append, List.any_append, List.any_cons,
        Node.any_tokensAll children, List.any_map]
      simp [Token.isGicV3, Node.props, Function.comp_def]

theorem Node.any_tokensAll (ns : List Node) :
    (Node.tokensAll ns).any Token.isGicV3 =
      (Node.nodesAll ns).any fun m => m.props.any Property.isGicV3 := by
  match ns with
  | [] => rfl
  | n :: ns =>
      rw [Node.tokensAll, Node.nodesAll, List.any_append, List.any_append, n.any_tokens,
        Node.any_tokensAll ns]

end

/-! ## What the walk sees -/

/-- The tokens before the first `NOP`. -/
def beforeNop : List (Option Token) → List Token
  | some t :: ts => t :: beforeNop ts
  | _ => []

variable {fdt : Nat → Byte} {p len : Nat} {ts : List (Option Token)}

/-- The rounding of the source is that of the format, since the structure block is aligned. -/
theorem roundName_toNat {q : BitVec 32} (hp : 4 ∣ p) (hq : q.toNat = p)
    (h : p + 4 * ((len + 4) / 4) < 2 ^ 32) :
    ((q + BitVec.ofNat 32 len + 4) &&& ~~~3).toNat = p + 4 * ((len + 4) / 4) := by
  have hsum : (q + BitVec.ofNat 32 len + 4).toNat = (p + len + 4) % 2 ^ 32 := by
    simp [BitVec.toNat_add, hq]
  rw [and_not_three, hsum]
  omega

theorem roundData_toNat {q n : BitVec 32} (hp : 4 ∣ p) (hq : q.toNat = p) (hn : n.toNat = len)
    (h : p + 4 * ((len + 3) / 4) < 2 ^ 32) :
    ((q + n + 3) &&& ~~~3).toNat = p + 4 * ((len + 3) / 4) := by
  have hsum : (q + n + 3).toNat = (p + len + 3) % 2 ^ 32 := by
    simp [BitVec.toNat_add, hq, hn]
  rw [and_not_three, hsum]
  omega

theorem isGicV3_prop {name data : List Byte} {off : Nat}
    (hname : startsWith fdt off (name ++ [0]) = true) (hzero : 0 ∉ name)
    (hdata : startsWith fdt p (data ++ [0]) = true) :
    (isString fdt off "compatible" && startsWith fdt p (bytesOf "arm,gic-v3")) =
      (Token.prop name data).isGicV3 := by
  rw [Bool.eq_iff_iff, Bool.and_eq_true, isString_iff hname hzero (by decide),
    startsWith_prefix_iff hdata (by decide)]
  simp [Token.isGicV3, Property.isGicV3]

theorem gicVersion_eq (h : Stream fdt p ts) (hp : 4 ∣ p) :
    ∃ steps, ∀ fuel, steps ≤ fuel → ∀ q : BitVec 32, q.toNat = p →
      gicVersion fdt fuel q = some (if (beforeNop ts).any Token.isGicV3 then 3 else 2) := by
  induction ts generalizing p with
  | nil =>
      refine ⟨1, fun fuel hfuel q hq => ?_⟩
      rcases fuel with _ | fuel
      · omega
      rw [gicVersion, hq, h.2]
      rfl
  | cons t ts ih =>
      match t, h with
      | none, h =>
          -- the walk ends at a token it does not know
          refine ⟨1, fun fuel hfuel q hq => ?_⟩
          rcases fuel with _ | fuel
          · omega
          rw [gicVersion, hq, h.1]
          rfl
      | some (.beginNode name), ⟨htoken, hname, hzero, hrest⟩ =>
          obtain ⟨steps, ih⟩ := ih hrest (by omega)
          refine ⟨steps + name.length + 2, fun fuel hfuel q hq => ?_⟩
          rcases fuel with _ | fuel
          · omega
          have hle := hrest.le
          have hp4 : (q + 4).toNat = p + 4 := toNat_add_lt hq (show p + 4 < 2 ^ 32 by omega)
          have hlen := nameLen_eq (hp4 ▸ hname) hzero (show name.length < fuel by omega) 0
          rw [Nat.zero_add] at hlen
          rw [gicVersion, hq, htoken]
          dsimp only
          rw [if_pos rfl, hlen, Option.bind_some]
          exact ih fuel (by omega) _ (roundName_toNat (by omega) hp4 (by omega))
      | some (.prop name data), ⟨htoken, hlen, hname, hzero, hdata, hrest⟩ =>
          obtain ⟨steps, ih⟩ := ih hrest (by omega)
          refine ⟨steps + 1, fun fuel hfuel q hq => ?_⟩
          rcases fuel with _ | fuel
          · omega
          have hle := hrest.le
          obtain ⟨hp4, hp8, hp12, -⟩ := prop_places hq hlen (by omega)
          rw [gicVersion, hq, htoken]
          dsimp only
          rw [if_neg (by decide), if_pos rfl, hp4, hp8, hp12,
            isGicV3_prop hname hzero (hrest.data_zero hdata), beforeNop, List.any_cons]
          by_cases hgic : (Token.prop name data).isGicV3 = true
          · rw [hgic]
            rfl
          · rw [if_neg hgic, Bool.eq_false_iff.mpr hgic, Bool.false_or]
            exact ih fuel (by omega) _ (roundData_toNat (by omega) hp12 hlen (by omega))
      | some .endNode, ⟨htoken, hrest⟩ =>
          obtain ⟨steps, ih⟩ := ih hrest (by omega)
          refine ⟨steps + 1, fun fuel hfuel q hq => ?_⟩
          rcases fuel with _ | fuel
          · omega
          rw [gicVersion, hq, htoken]
          exact ih fuel (by omega) _ (hrest.encodes.add_four hq)

theorem any_beforeNop_le (ts : List (Option Token)) (h : (beforeNop ts).any Token.isGicV3 = true) :
    ts.reduceOption.any Token.isGicV3 = true := by
  induction ts with
  | nil => exact h
  | cons t ts ih =>
      match t, h with
      | none, h => simp [beforeNop] at h
      | some t, h =>
          rw [beforeNop, List.any_cons, Bool.or_eq_true] at h
          rw [List.reduceOption_cons_of_some, List.any_cons, Bool.or_eq_true]
          exact h.imp_right ih

/-- If the tree declares version 3, a property that says so comes before the first `NOP`. -/
def GicBeforeNop (ts : List (Option Token)) (root : Node) : Prop :=
  root.declaredGic = 3 → ∃ t ∈ beforeNop ts, t.isGicV3 = true

end Fdt

open Fdt

theorem BootEnv.Flattened.gicDetectVersion_eq {env : BootEnv} {ts : List (Option Token)} {root : Node}
    (h : env.Flattened ts root) :
    ∃ steps, ∀ fuel, steps ≤ fuel → ∃ v, env.gicDetectVersion fuel = some v ∧ (v = 2 ∨ v = 3) ∧
      (v = root.declaredGic ↔ GicBeforeNop ts root) := by
  obtain ⟨steps, hwalk⟩ := gicVersion_eq h.stream h.aligned
  refine ⟨steps, fun fuel hfuel =>
    ⟨if (beforeNop ts).any Token.isGicV3 then 3 else 2, ?_, ?_, ?_⟩⟩
  · unfold BootEnv.gicDetectVersion
    rw [if_neg h.ptr]
    exact hwalk fuel hfuel _ rfl
  · split
    · exact .inr rfl
    · exact .inl rfl
  · have hdeclared : root.declaredGic = if root.tokens.any Token.isGicV3 then 3 else 2 := by
      rw [Node.any_tokens, Node.declaredGic]
    have hle := any_beforeNop_le ts
    rw [h.tokens] at hle
    unfold GicBeforeNop
    rw [hdeclared, ← List.any_eq_true]
    by_cases hbefore : (beforeNop ts).any Token.isGicV3 = true
    · simp [hbefore, hle hbefore]
    · rw [if_neg hbefore]
      by_cases htree : root.tokens.any Token.isGicV3 = true
      · simp [htree, hbefore]
      · simp [htree]

/-- **The version of the interrupt controller.** `gic_detect_version` comes to an end on a well-formed
tree, and gives the version the tree declares just if no `NOP` comes before the property that says so.
Two blobs of one tree give the same version just if that holds of both or of neither. -/
theorem gic_version_iff {env env' : BootEnv} {ts ts' : List (Option Token)} {root : Node}
    (h : env.Flattened ts root) (h' : env'.Flattened ts' root) :
    ∃ steps, ∀ fuel, steps ≤ fuel → ∃ v v', env.gicDetectVersion fuel = some v ∧
      env'.gicDetectVersion fuel = some v' ∧
      (v = root.declaredGic ↔ GicBeforeNop ts root) ∧
      (v = v' ↔ (GicBeforeNop ts root ↔ GicBeforeNop ts' root)) := by
  obtain ⟨n, hn⟩ := h.gicDetectVersion_eq
  obtain ⟨n', hn'⟩ := h'.gicDetectVersion_eq
  refine ⟨n + n', fun fuel hfuel => ?_⟩
  obtain ⟨v, hv, hrange, hiff⟩ := hn fuel (by omega)
  obtain ⟨v', hv', hrange', hiff'⟩ := hn' fuel (by omega)
  refine ⟨v, v', hv, hv', hiff, ?_⟩
  have hroot : root.declaredGic = 2 ∨ root.declaredGic = 3 := by
    unfold Node.declaredGic
    split
    · exact .inr rfl
    · exact .inl rfl
  rw [← hiff, ← hiff']
  omega

/-! ## A tree with a version 3 controller -/

def gicRoot : Node :=
  .mk [] [] [.mk (bytesOf "intc") [⟨bytesOf "compatible", bytesOf "arm,gic-v3" ++ [0]⟩] []]

/-- The tokens of the tree with a `NOP` in front, or behind. -/
def gicNopFirst : List (Option Token) := none :: gicRoot.tokens.map some

def gicNopLast : List (Option Token) := gicRoot.tokens.map some ++ [none]

theorem flattened_gicNopFirst : (blobEnv gicNopFirst).Flattened gicNopFirst gicRoot :=
  flattened_blobEnv rfl (by decide +kernel)

theorem flattened_gicNopLast : (blobEnv gicNopLast).Flattened gicNopLast gicRoot :=
  flattened_blobEnv rfl (by decide +kernel)

theorem gic_version_nop_last :
    GicBeforeNop gicNopLast gicRoot ∧ ¬ GicBeforeNop gicNopFirst gicRoot ∧
      ∃ fuel v v', (blobEnv gicNopLast).gicDetectVersion fuel = some v ∧
        (blobEnv gicNopFirst).gicDetectVersion fuel = some v' ∧ v = gicRoot.declaredGic ∧ v ≠ v' := by
  have hlast : GicBeforeNop gicNopLast gicRoot := fun _ => List.any_eq_true.mp (by decide)
  have hfirst : ¬ GicBeforeNop gicNopFirst gicRoot := by
    intro h
    obtain ⟨t, ht, -⟩ := h (by decide)
    exact absurd ht List.not_mem_nil
  obtain ⟨steps, hwalk⟩ := gic_version_iff flattened_gicNopLast flattened_gicNopFirst
  obtain ⟨v, v', hv, hv', hiff, hsame⟩ := hwalk steps (Nat.le_refl steps)
  refine ⟨hlast, hfirst, steps, v, v', hv, hv', hiff.mpr hlast, ?_⟩
  intro heq
  exact hfirst ((hsame.mp heq).mp hlast)

/-- A `NOP` in front hides the controller. -/
theorem gic_hidden_by_nop :
    (blobEnv gicNopFirst).Flattened gicNopFirst gicRoot ∧ gicRoot.declaredGic = 3 ∧
      (blobEnv gicNopFirst).gicDetectVersion 10 = some 2 :=
  ⟨flattened_gicNopFirst, by decide, by decide +kernel⟩

end Arcline
