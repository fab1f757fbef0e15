import Arcline.Mm.PmmInit

set_option autoImplicit false

/-! # Flattened device trees

A device tree is a tree of named nodes with properties. Flattened, it is a sequence of tokens in the
structure block of the blob, each with its payload and aligned to 4 bytes; the names of properties lie
in the strings block. `Encodes` says which blobs are the flattened form of a tree. On such a blob a loop
over the tokens comes to an end, whatever it does at each of them.
-/

namespace Arcline

namespace Fdt

/-! ## Trees and their blobs -/

structure Property where
  name : List Byte
  data : List Byte

inductive Node
  | mk (name : List Byte) (props : List Property) (children : List Node)

inductive Token
  | beginNode (name : List Byte)
  | prop (name data : List Byte)
  | endNode

namespace Node

def name : Node → List Byte
  | .mk name _ _ => name

def props : Node → List Property
  | .mk _ props _ => props

def children : Node → List Node
  | .mk _ _ children => children

mutual

/-- The tokens of a node: its properties, then its children, between the two tokens of the node. -/
def tokens : Node → List Token
  | .mk name props children =>
      .beginNode name :: (props.map (fun q => .prop q.name q.data) ++ (tokensAll children ++ [.endNode]))

def tokensAll : List Node → List Token
  | [] => []
  | n :: ns => n.tokens ++ tokensAll ns

end

end Node

/-- From `p` on, the blob holds the tokens, with `NOP` tokens anywhere between them, and then the end
token. -/
inductive Encodes (fdt : Nat → Byte) : Nat → List Token → Prop
  | done {p : Nat} : p + 4 ≤ 2 ^ 32 → be32 fdt p = tokenEnd → Encodes fdt p []
  | nop {p : Nat} {ts : List Token} :
      be32 fdt p = nop → Encodes fdt (p + 4) ts → Encodes fdt p ts
  | beginNode {p : Nat} {name : List Byte} {ts : List Token} :
      be32 fdt p = beginNode → startsWith fdt (p + 4) (name ++ [0]) = true → 0 ∉ name →
      Encodes fdt (p + 4 + 4 * ((name.length + 4) / 4)) ts → Encodes fdt p (.beginNode name :: ts)
  | prop {p : Nat} {name data : List Byte} {ts : List Token} :
      be32 fdt p = prop → (be32 fdt (p + 4)).toNat = data.length →
      startsWith fdt ((offStrings fdt).toNat + (be32 fdt (p + 8)).toNat) (name ++ [0]) = true →
      startsWith fdt (p + 12) data = true →
      Encodes fdt (p + 12 + 4 * ((data.length + 3) / 4)) ts → Encodes fdt p (.prop name data :: ts)
  | endNode {p : Nat} {ts : List Token} :
      be32 fdt p = endNode → Encodes fdt (p + 4) ts → Encodes fdt p (.endNode :: ts)

variable {fdt : Nat → Byte} {p off len fuel : Nat} {ts : List Token}

theorem Encodes.le (h : Encodes fdt p ts) : p + 4 ≤ 2 ^ 32 := by
  induction h with
  | done hp _ => exact hp
  | nop _ _ ih => omega
  | beginNode _ _ _ _ ih => omega
  | prop _ _ _ _ _ ih => omega
  | endNode _ _ ih => omega

/-! ## The loops come to an end -/

theorem nameLen_eq {name : List Byte} (hname : startsWith fdt off (name ++ [0]) = true)
    (hzero : 0 ∉ name) (hfuel : name.length < fuel) (len : Nat) :
    nameLen fdt fuel off len = some (len + name.length) := by
  induction name generalizing fuel off len with
  | nil =>
      rcases fuel with _ | fuel
      · omega
      have h0 : fdt off = 0 := by simpa [startsWith] using hname
      rw [nameLen, if_pos h0]
      rfl
  | cons b name ih =>
      simp only [List.length_cons] at hfuel
      rcases fuel with _ | fuel
      · omega
      simp only [List.cons_append, startsWith, Bool.and_eq_true, beq_iff_eq] at hname
      obtain ⟨hb, hname⟩ := hname
      simp only [List.mem_cons, not_or] at hzero
      have hb0 : fdt off ≠ 0 := fun h0 => hzero.1 (h0.symm.trans hb)
      rw [nameLen, if_neg hb0, ih hname hzero.2 (by omega), List.length_cons]
      congr 1
      omega

theorem and_not_three (x : BitVec 32) : (x &&& ~~~3).toNat = x.toNat / 4 * 4 := by
  have hmod : (x &&& 3).toNat = x.toNat % 4 := by
    rw [BitVec.toNat_and]
    exact Nat.and_two_pow_sub_one_eq_mod x.toNat 2
  have hle : x &&& 3 ≤ x := by
    rw [BitVec.le_def, hmod]
    exact Nat.mod_le _ _
  rw [and_not_eq_sub, BitVec.toNat_sub_of_le hle, hmod]
  omega

theorem skipName_toNat {q : BitVec 32} (h : q.toNat + 4 * ((len + 4) / 4) < 2 ^ 32) :
    (skipName q len).toNat = q.toNat + 4 * ((len + 4) / 4) := by
  rw [skipName, BitVec.toNat_add, and_not_three, BitVec.toNat_ofNat]
  omega

theorem skipData_toNat {q n : BitVec 32} (h : q.toNat + 4 * ((n.toNat + 3) / 4) < 2 ^ 32) :
    (skipData q n).toNat = q.toNat + 4 * ((n.toNat + 3) / 4) := by
  have h3 : (n + 3).toNat = n.toNat + 3 := BitVec.toNat_add_of_lt (by
    show n.toNat + 3 < 2 ^ 32
    omega)
  rw [skipData, BitVec.toNat_add, and_not_three, h3]
  omega

/-- A later place of the blob. -/
theorem toNat_add_lt {q k : BitVec 32} (hq : q.toNat = p) (h : p + k.toNat < 2 ^ 32) :
    (q + k).toNat = p + k.toNat := by
  rw [BitVec.toNat_add_of_lt (by rw [hq]; exact h), hq]

theorem Encodes.add_four {q : BitVec 32} (h : Encodes fdt (p + 4) ts) (hq : q.toNat = p) :
    (q + 4).toNat = p + 4 := by
  have hle := h.le
  exact toNat_add_lt hq (show p + 4 < 2 ^ 32 by omega)

/-- The place behind the name of a node. -/
theorem Encodes.skipName_toNat {q : BitVec 32}
    (h : Encodes fdt (p + 4 + 4 * ((len + 4) / 4)) ts) (hq : q.toNat = p) :
    (q + 4).toNat = p + 4 ∧ (skipName (q + 4) len).toNat = p + 4 + 4 * ((len + 4) / 4) := by
  have hle := h.le
  have hp4 : (q + 4).toNat = p + 4 := toNat_add_lt hq (show p + 4 < 2 ^ 32 by omega)
  refine ⟨hp4, ?_⟩
  rw [Fdt.skipName_toNat (by omega), hp4]

/-- The places in a property at `p`, and the one behind it. -/
theorem prop_places {q : BitVec 32} (hq : q.toNat = p)
    (hlen : (be32 fdt (p + 4)).toNat = len) (hle : p + 12 + 4 * ((len + 3) / 4) < 2 ^ 32) :
    (q + 4).toNat = p + 4 ∧ (q + 4 + 4).toNat = p + 8 ∧ (q + 4 + 8).toNat = p + 12 ∧
      (skipData (q + 4 + 8) (be32 fdt (p + 4))).toNat = p + 12 + 4 * ((len + 3) / 4) := by
  have hp4 : (q + 4).toNat = p + 4 := toNat_add_lt hq (show p + 4 < 2 ^ 32 by omega)
  have hp12 : (q + 4 + 8).toNat = p + 12 := toNat_add_lt hp4 (show p + 4 + 8 < 2 ^ 32 by omega)
  refine ⟨hp4, toNat_add_lt hp4 (show p + 4 + 4 < 2 ^ 32 by omega), hp12, ?_⟩
  rw [skipData_toNat (by rw [hp12, hlen]; exact hle), hp12, hlen]

/-- A loop over the tokens comes to an end on a flattened tree. -/
theorem Encodes.loop_returns {σ ρ : Type} (V : Visit σ ρ) (h : Encodes fdt p ts) (q : BitVec 32)
    (hq : q.toNat = p) (s : σ) : Fuel.Returns fun fuel => Fuel.loop (turn fdt V) fuel (q, s) := by
  induction h generalizing q s with
  | @done p hp htoken =>
      have hturn : Fuel.ReturnsAs (fun fuel => turn fdt V fuel (q, s)) (.error (V.stop s)) := by
        refine ⟨0, fun fuel _ => ?_⟩
        apply turn_stop <;> rw [hq, htoken] <;> decide
      exact .loop hturn fun s' hs' => by cases hs'
  | @nop p ts htoken hrest ih =>
      refine .loop ⟨0, fun fuel _ => turn_nop (hq ▸ htoken)⟩ fun s' hs' => ?_
      cases hs'
      exact ih _ (hrest.add_four hq) s
  | @beginNode p name ts htoken hname hzero hrest ih =>
      obtain ⟨hp4, hskip⟩ := hrest.skipName_toNat hq
      have hturn : Fuel.ReturnsAs (fun fuel => turn fdt V fuel (q, s))
          (.ok (skipName (q + 4) name.length, V.beginNode s (q + 4).toNat name.length)) := by
        refine ⟨name.length + 1, fun fuel hfuel => (turn_beginNode (hq ▸ htoken)).trans ?_⟩
        rw [nameLen_eq (hp4 ▸ hname) hzero hfuel, Nat.zero_add]
        rfl
      refine .loop hturn fun s' hs' => ?_
      cases hs'
      exact ih _ hskip _
  | @prop p name data ts htoken hlen hname hdata hrest ih =>
      refine .loop ⟨0, fun fuel _ => turn_prop (hq ▸ htoken)⟩ fun s' hs' => ?_
      obtain ⟨s₁, rfl⟩ := exists_of_map_ok hs'
      have hle := hrest.le
      obtain ⟨hp4, -, -, hskip⟩ := prop_places hq hlen (by omega)
      exact ih _ (hp4.symm ▸ hskip) s₁
  | @endNode p ts htoken hrest ih =>
      refine .loop ⟨0, fun fuel _ => turn_endNode (hq ▸ htoken)⟩ fun s' hs' => ?_
      cases hs'
      exact ih _ (hrest.add_four hq) _

end Fdt

end Arcline
