import Arcline.Dtb.Assemble

set_option autoImplicit false

/-! # Where the walk over `/reserved-memory` is

`reserve_reserved_memory` keeps the number of open nodes in `depth`, and in `in_reserved` whether it is
in the `/reserved-memory` node or below it. A turn of its loop takes one token; what it does to the two
variables is read off the token (`nest`), and what they should be off the names of the open nodes
(`rightNesting`). The flag has no depth of its own: the end of a node two levels below `/reserved-memory`
already steps it back, and a node whose name merely starts with `reserved-memory` sets it.
-/

namespace Arcline

namespace Fdt

/-! ## The turns of the loop -/

/-- The cursor and the variables after `n` turns. -/
def reservedTurns (fdt : Nat → Byte) (fuel : Nat) :
    Nat → BitVec 32 × ReservedWalk × Pmm → Option (BitVec 32 × ReservedWalk × Pmm)
  | 0, s => some s
  | n + 1, s =>
      (turn fdt (reservedVisit fdt) fuel s).bind fun next =>
        match next with
        | .error _ => none
        | .ok s => reservedTurns fdt fuel n s

/-! ## What the variables should be -/

/-- The names of the open nodes, the root first, after one more token. -/
def enter : List (List Byte) → Token → List (List Byte)
  | path, .beginNode name => path ++ [name]
  | path, .prop _ _ => path
  | path, .endNode => path.dropLast

/-- The names of the open nodes after these tokens. -/
def openNodes (ts : List Token) : List (List Byte) := ts.foldl enter []

/-- One of the open nodes is `/reserved-memory`: it is a child of the root. -/
def InReserved (path : List (List Byte)) : Prop := path[1]? = some (bytesOf "reserved-memory")

instance (path : List (List Byte)) : Decidable (InReserved path) :=
  inferInstanceAs (Decidable (_ = _))

/-- The nesting state is right: `depth` counts the open nodes, `in_reserved` is 1 if the innermost one
is `/reserved-memory`, 2 if it is below that, and 0 otherwise. -/
structure ReservedWalk.Right (w : ReservedWalk) (path : List (List Byte)) : Prop where
  depth : w.depth = path.length
  innermost : w.inReserved = 1 ↔ InReserved path ∧ path.length = 2
  below : w.inReserved = 2 ↔ InReserved path ∧ 2 < path.length
  outside : w.inReserved = 0 ↔ ¬ InReserved path

/-- The two variables. -/
def ReservedWalk.nesting (w : ReservedWalk) : Nat × Nat := (w.depth, w.inReserved)

/-- Their right values. -/
def rightNesting (path : List (List Byte)) : Nat × Nat :=
  (path.length, if InReserved path then if path.length = 2 then 1 else 2 else 0)

theorem InReserved.two_le {path : List (List Byte)} (h : InReserved path) : 2 ≤ path.length := by
  obtain ⟨hlt, -⟩ := List.getElem?_eq_some_iff.mp h
  exact hlt

theorem ReservedWalk.right_iff (w : ReservedWalk) (path : List (List Byte)) :
    w.Right path ↔ w.nesting = rightNesting path := by
  rw [rightNesting, ReservedWalk.nesting, Prod.mk.injEq]
  by_cases hin : InReserved path
  · have hlen := hin.two_le
    rw [if_pos hin]
    constructor
    · intro h
      refine ⟨h.depth, ?_⟩
      split
      · exact h.innermost.mpr ⟨hin, ‹_›⟩
      · exact h.below.mpr ⟨hin, by omega⟩
    · rintro ⟨hdepth, hflag⟩
      split at hflag
      · exact ⟨hdepth, by simp [*], by simp [*], by simp [*]⟩
      · exact ⟨hdepth, by simp [*], by simp [*]; omega, by simp [*]⟩
  · rw [if_neg hin]
    constructor
    · intro h
      exact ⟨h.depth, h.outside.mpr hin⟩
    · rintro ⟨hdepth, hflag⟩
      exact ⟨hdepth, by simp [*], by simp [*], by simp [*]⟩

/-! ## What a token does to them -/

/-- The effect of a token on `depth` and `in_reserved`. -/
def nest : Nat × Nat → Token → Nat × Nat
  | s, .beginNode name =>
      let depth := s.1 + 1
      let inReserved := if depth = 2 ∧ bytesOf "reserved-memory" <+: name then 1 else s.2
      (depth, if inReserved = 1 ∧ 3 ≤ depth then 2 else inReserved)
  | s, .prop _ _ => s
  | s, .endNode => (s.1 - 1, s.2 - 1)

variable {fdt : Nat → Byte} {p fuel : Nat} {ts : List (Option Token)}

theorem reservedProp_nesting (fdt : Nat → Byte) (w : ReservedWalk) (pname pdata : Nat)
    (len : BitVec 32) (pmm : Pmm) :
    (reservedProp fdt w pname pdata len pmm).1.nesting = w.nesting := by
  unfold reservedProp
  split
  · split
    · rfl
    · split
      · rfl
      · rfl
  · split
    · rfl
    · rfl

/-- A turn does to the two variables what `nest` says. -/
theorem acts_reservedVisit (fdt : Nat → Byte) :
    (reservedVisit fdt).Acts fdt (fun s => s.1.nesting) fun s t => .ok (nest s t) where
  beginNode {s off name} hname _ := by
    have hcond : (decide (s.1.depth + 1 = 2) && startsWith fdt off (bytesOf "reserved-memory")) =
        decide (s.1.depth + 1 = 2 ∧ bytesOf "reserved-memory" <+: name) := by
      rw [Bool.eq_iff_iff, Bool.and_eq_true, decide_eq_true_eq, decide_eq_true_eq,
        startsWith_prefix_iff hname (by decide)]
    show Except.ok (nest (s.1.depth, s.1.inReserved) (.beginNode name)) = _
    simp only [reservedVisit, hcond, decide_eq_true_eq, nest, ReservedWalk.nesting]
    by_cases hres : s.1.depth + 1 = 2 ∧ bytesOf "reserved-memory" <+: name
    · simp only [if_pos hres]
      split <;> rfl
    · simp only [if_neg hres]
      split <;> rfl
  prop {s pname pdata name data len} _ _ _ _ :=
    congrArg Except.ok (reservedProp_nesting fdt s.1 pname pdata len s.2).symm
  endNode _ := rfl

/-- The two variables after `n` turns. -/
theorem Stream.reservedTurns (h : Stream fdt p ts) {q : BitVec 32} (hq : q.toNat = p)
    (hfuel : 2 ^ 32 ≤ fuel) (s : ReservedWalk × Pmm) {n : Nat} (hn : n ≤ ts.length) :
    ∃ s', reservedTurns fdt fuel n (q, s) = some s' ∧
      s'.2.1.nesting = (ts.take n).reduceOption.foldl nest s.1.nesting := by
  induction n generalizing p ts q s with
  | zero => exact ⟨(q, s), rfl, rfl⟩
  | succ n ih =>
      cases ts with
      | nil => exact absurd hn (by simp)
      | cons t ts =>
          obtain ⟨next, hturn, hview, hrest⟩ := h.turn (acts_reservedVisit fdt) hq hfuel s
          cases next with
          | error r => cases t <;> cases hview
          | ok s₁ =>
              obtain ⟨s₂, hturns, hnest⟩ := ih (hrest s₁ rfl) rfl s₁.2 (Nat.le_of_succ_le_succ hn)
              refine ⟨s₂, ?_, ?_⟩
              · rw [Fdt.reservedTurns, hturn]
                exact hturns
              · rw [hnest]
                cases t with
                | none =>
                    have hsame : s₁.2.1.nesting = s.1.nesting := Except.ok.inj hview
                    rw [hsame]
                    rfl
                | some t =>
                    have hstep : s₁.2.1.nesting = nest s.1.nesting t := Except.ok.inj hview
                    rw [hstep]
                    rfl

/-! ## The nesting over a tree -/

/-- Along these tokens, from the open nodes `path` on, the two variables stay right. -/
def Tracks : List (List Byte) → List Token → Prop
  | _, [] => True
  | path, t :: ts => nest (rightNesting path) t = rightNesting (enter path t) ∧ Tracks (enter path t) ts

/-- It is enough to look at each token, and only at tokens that are not `NOP`. -/
theorem tracks_iff (path : List (List Byte)) (ts : List (Option Token)) :
    Tracks path ts.reduceOption ↔
      ∀ n ≤ ts.length, (ts.take n).reduceOption.foldl nest (rightNesting path) =
        rightNesting ((ts.take n).reduceOption.foldl enter path) := by
  induction ts generalizing path with
  | nil =>
      refine ⟨fun _ n _ => ?_, fun _ => trivial⟩
      rw [List.take_nil]
      rfl
  | cons t ts ih =>
      cases t with
      | none =>
          rw [List.reduceOption_cons_of_none, ih]
          constructor
          · intro h n hn
            cases n with
            | zero => rfl
            | succ n => exact h n (Nat.le_of_succ_le_succ hn)
          · intro h n hn
            exact h (n + 1) (Nat.succ_le_succ hn)
      | some t =>
          rw [List.reduceOption_cons_of_some, Tracks, ih]
          constructor
          · rintro ⟨hfirst, h⟩ n hn
            cases n with
            | zero => rfl
            | succ n =>
                rw [List.take_succ_cons, List.reduceOption_cons_of_some, List.foldl_cons, hfirst]
                exact h n (Nat.le_of_succ_le_succ hn)
          · intro h
            have hfirst : nest (rightNesting path) t = rightNesting (enter path t) :=
              h 1 (Nat.succ_le_succ (Nat.zero_le _))
            refine ⟨hfirst, fun n hn => ?_⟩
            have hn' := h (n + 1) (Nat.succ_le_succ hn)
            rwa [List.take_succ_cons, List.reduceOption_cons_of_some, List.foldl_cons, hfirst] at hn'

theorem tracks_append (path : List (List Byte)) (l l' : List Token) :
    Tracks path (l ++ l') ↔ Tracks path l ∧ Tracks (l.foldl enter path) l' := by
  induction l generalizing path with
  | nil => simp [Tracks]
  | cons t l ih => rw [List.cons_append, Tracks, Tracks, ih, and_assoc, List.foldl_cons]

/-- Properties change nothing. -/
theorem foldl_enter_props (path : List (List Byte)) (props : List Property) :
    (props.map fun q => Token.prop q.name q.data).foldl enter path = path := by
  induction props with
  | nil => rfl
  | cons q props ih => rw [List.map_cons, List.foldl_cons, enter, ih]

theorem tracks_props (path : List (List Byte)) (props : List Property) :
    Tracks path (props.map fun q => Token.prop q.name q.data) := by
  induction props with
  | nil => trivial
  | cons q props ih => exact ⟨rfl, ih⟩

namespace Node

mutual

/-- After the tokens of a node the same nodes are open as before. -/
theorem foldl_enter_tokens (n : Node) (path : List (List Byte)) : n.tokens.foldl enter path = path := by
  match n with
  | .mk name props children =>
      rw [tokens, List.foldl_cons, List.foldl_append, List.foldl_append, foldl_enter_props,
        foldl_enter_tokensAll children]
      show (path ++ [name]).dropLast = path
      exact List.dropLast_concat

theorem foldl_enter_tokensAll (ns : List Node) (path : List (List Byte)) :
    (tokensAll ns).foldl enter path = path := by
  match ns with
  | [] => rfl
  | n :: ns => rw [tokensAll, List.foldl_append, n.foldl_enter_tokens, foldl_enter_tokensAll ns]

end

theorem tracks_tokensAll (ns : List Node) (path : List (List Byte)) :
    Tracks path (tokensAll ns) ↔ ∀ n ∈ ns, Tracks path n.tokens := by
  induction ns with
  | nil => simp [tokensAll, Tracks]
  | cons n ns ih => rw [tokensAll, tracks_append, n.foldl_enter_tokens, ih, List.forall_mem_cons]

/-- The tokens at which a node can go wrong: its first, those of its children, and its last. -/
theorem tracks_tokens (n : Node) (path : List (List Byte)) :
    Tracks path n.tokens ↔
      nest (rightNesting path) (.beginNode n.name) = rightNesting (path ++ [n.name]) ∧
        (∀ c ∈ n.children, Tracks (path ++ [n.name]) c.tokens) ∧
        nest (rightNesting (path ++ [n.name])) .endNode = rightNesting path := by
  match n with
  | .mk name props children =>
      rw [tokens, Tracks, tracks_append, tracks_append, foldl_enter_props, foldl_enter_tokensAll,
        tracks_tokensAll]
      simp only [tracks_props, true_and, Tracks, and_true, enter, List.dropLast_concat, Node.name,
        Node.children]

end Node

section Tokens

variable {path : List (List Byte)} {name : List Byte}

theorem inReserved_append (h : 2 ≤ path.length) : InReserved (path ++ [name]) ↔ InReserved path := by
  rw [InReserved, InReserved, List.getElem?_append_left (by omega)]

/-- Below the children of the root the start of a node is always counted right. -/
theorem nest_beginNode_deep (h : 2 ≤ path.length) :
    nest (rightNesting path) (.beginNode name) = rightNesting (path ++ [name]) := by
  rw [nest, rightNesting, rightNesting, List.length_append, List.length_singleton,
    if_neg (show ¬ (path.length + 1 = 2 ∧ _) by omega)]
  simp only [inReserved_append h]
  by_cases hin : InReserved path
  · simp only [hin, if_true]
    split
    · rw [if_pos ⟨rfl, by omega⟩, if_neg (by omega)]
    · rw [if_neg (by omega), if_neg (by omega)]
  · simp only [hin, if_false]
    rfl

/-- A child of the root is counted right if its name does not just start with `reserved-memory`. -/
theorem nest_beginNode_child (root : List Byte) :
    nest (rightNesting [root]) (.beginNode name) = rightNesting ([root] ++ [name]) ↔
      (bytesOf "reserved-memory" <+: name → name = bytesOf "reserved-memory") := by
  have hroot : ¬ InReserved [root] := fun h => absurd h.two_le (by simp)
  have hchild : InReserved ([root] ++ [name]) ↔ name = bytesOf "reserved-memory" := by
    simp [InReserved]
  rw [nest, rightNesting, rightNesting, if_neg hroot]
  simp only [hchild, List.length_singleton, List.length_append, Nat.reduceAdd, true_and,
    Prod.mk.injEq, if_true]
  rw [if_neg (by omega)]
  by_cases hpre : bytesOf "reserved-memory" <+: name
  · by_cases hname : name = bytesOf "reserved-memory"
    · simp [hname]
    · simp [hpre, hname]
  · by_cases hname : name = bytesOf "reserved-memory"
    · exact absurd (hname ▸ List.prefix_refl _) hpre
    · simp [hpre, hname]

/-- The end of a node is counted right outside `/reserved-memory`, and not more than one level below. -/
theorem nest_endNode :
    nest (rightNesting (path ++ [name])) .endNode = rightNesting path ↔
      (InReserved (path ++ [name]) → path.length ≤ 2) := by
  rw [nest, rightNesting, rightNesting, List.length_append, List.length_singleton, Prod.mk.injEq]
  by_cases hlen : 2 ≤ path.length
  · simp only [inReserved_append hlen]
    by_cases hin : InReserved path
    · simp only [hin, if_true, if_neg (show ¬ path.length + 1 = 2 by omega)]
      split
      · simp; omega
      · simp; omega
    · simp [hin]
  · have hout : ¬ InReserved path := fun h => hlen h.two_le
    rw [if_neg hout]
    constructor
    · intro _ _
      omega
    · intro _
      refine ⟨by simp, ?_⟩
      split
      · have h2 := InReserved.two_le ‹_›
        rw [List.length_append, List.length_singleton] at h2
        rw [if_pos (by omega)]
        rfl
      · rfl

end Tokens

namespace Node

mutual

/-- Outside `/reserved-memory` all is counted right. -/
theorem tracks_outside (n : Node) {path : List (List Byte)} (hlen : 2 ≤ path.length)
    (hout : ¬ InReserved path) : Tracks path n.tokens := by
  match n with
  | .mk name props children =>
      rw [tracks_tokens]
      have hout' : ¬ InReserved (path ++ [name]) := fun h => hout ((inReserved_append hlen).mp h)
      refine ⟨nest_beginNode_deep hlen, ?_, nest_endNode.mpr fun h => absurd h hout'⟩
      exact tracksAll_outside children (by simp; omega) hout'

theorem tracksAll_outside (ns : List Node) {path : List (List Byte)} (hlen : 2 ≤ path.length)
    (hout : ¬ InReserved path) : ∀ n ∈ ns, Tracks path n.tokens := by
  match ns with
  | [] => exact fun n hn => absurd hn List.not_mem_nil
  | n :: ns =>
      exact List.forall_mem_cons.mpr ⟨n.tracks_outside hlen hout, tracksAll_outside ns hlen hout⟩

end

/-- Nothing two levels below `/reserved-memory` is counted right, whatever it is. -/
theorem not_tracks_below (n : Node) {path : List (List Byte)} (hlen : 2 < path.length)
    (hin : InReserved path) : ¬ Tracks path n.tokens := by
  intro h
  have hend := nest_endNode.mp ((n.tracks_tokens path).mp h).2.2
  have hle := hend ((inReserved_append (by omega)).mpr hin)
  omega

/-- A grandchild of the root. -/
theorem tracks_grandchild (n : Node) (root child : List Byte) :
    Tracks [root, child] n.tokens ↔ (child = bytesOf "reserved-memory" → n.children = []) := by
  have hin : InReserved [root, child] ↔ child = bytesOf "reserved-memory" := by simp [InReserved]
  constructor
  · intro h hchild
    by_contra hne
    obtain ⟨c, hc⟩ := List.exists_mem_of_ne_nil _ hne
    exact not_tracks_below c (by simp) ((inReserved_append (by simp)).mpr (hin.mpr hchild))
      (((n.tracks_tokens _).mp h).2.1 c hc)
  · intro h
    by_cases hchild : child = bytesOf "reserved-memory"
    · rw [tracks_tokens, h hchild]
      refine ⟨nest_beginNode_deep (by simp), fun c hc => absurd hc List.not_mem_nil, ?_⟩
      exact nest_endNode.mpr fun _ => by simp
    · exact n.tracks_outside (by simp) fun hr => hchild (hin.mp hr)

/-- A child of the root whose name starts with `reserved-memory` is named so, and its children have no
children. -/
def FlatReserved (root : Node) : Prop :=
  ∀ c ∈ root.children, bytesOf "reserved-memory" <+: c.name →
    c.name = bytesOf "reserved-memory" ∧ ∀ g ∈ c.children, g.children = []

theorem tracks_child (n : Node) (root : List Byte) :
    Tracks [root] n.tokens ↔
      (bytesOf "reserved-memory" <+: n.name →
        n.name = bytesOf "reserved-memory" ∧ ∀ g ∈ n.children, g.children = []) := by
  have hend : nest (rightNesting ([root] ++ [n.name])) .endNode = rightNesting [root] :=
    nest_endNode.mpr fun _ => by simp
  rw [tracks_tokens, nest_beginNode_child, and_iff_left hend]
  simp only [List.singleton_append, tracks_grandchild]
  constructor
  · rintro ⟨hname, hchildren⟩ hpre
    exact ⟨hname hpre, fun g hg => hchildren g hg (hname hpre)⟩
  · intro h
    refine ⟨fun hpre => (h hpre).1, fun g hg hname => ?_⟩
    exact (h (hname ▸ List.prefix_refl _)).2 g hg

theorem tracks_root (root : Node) : Tracks [] root.tokens ↔ root.FlatReserved := by
  have hbegin : nest (rightNesting []) (.beginNode root.name) = rightNesting ([] ++ [root.name]) := rfl
  have hend : nest (rightNesting ([] ++ [root.name])) .endNode = rightNesting [] :=
    nest_endNode.mpr fun _ => by simp
  rw [tracks_tokens, and_iff_left hend, and_iff_right hbegin]
  simp only [List.nil_append, tracks_child, FlatReserved]

end Node

end Fdt

open Fdt BootEnv

namespace BootEnv

/-- **The nesting state of `reserve_reserved_memory`.** On a well-formed tree the walk takes one token
after the other, and `depth` and `in_reserved` are right after each of them just if a child of the root
whose name starts with `reserved-memory` is the `/reserved-memory` node and has no grandchildren. -/
theorem reserved_nesting_iff {env : BootEnv} {ts : List (Option Token)} {root : Node}
    (h : env.Flattened ts root) (pmm : Pmm) {fuel : Nat} (hfuel : 2 ^ 32 ≤ fuel) :
    (∀ n ≤ ts.length, ∃ p w pmm',
        reservedTurns env.fdt fuel n (reservedStart env.fdt pmm) = some (p, w, pmm') ∧
          w.Right (openNodes (ts.take n).reduceOption)) ↔ root.FlatReserved := by
  rw [← root.tracks_root, ← h.tokens, tracks_iff]
  -- the two variables start at 0, as they should
  have hturns := fun n (hn : n ≤ ts.length) =>
    h.stream.reservedTurns rfl hfuel (⟨0, 0, 2, 2⟩, pmm) hn
  refine forall₂_congr fun n hn => ?_
  obtain ⟨⟨p, w, pmm'⟩, hstate, hnest⟩ := hturns n hn
  have hright : w.Right (openNodes (ts.take n).reduceOption) ↔
      (ts.take n).reduceOption.foldl nest (rightNesting []) =
        rightNesting (openNodes (ts.take n).reduceOption) := by
    rw [w.right_iff]
    exact Eq.congr_left hnest
  rw [← openNodes, ← hright]
  constructor
  · rintro ⟨p₁, w₁, pmm₁, hstate₁, hw₁⟩
    obtain ⟨-, rfl, -⟩ : p₁ = p ∧ w₁ = w ∧ pmm₁ = pmm' := by
      simpa only [Option.some.injEq, Prod.mk.injEq] using hstate₁.symm.trans hstate
    exact hw₁
  · intro hw
    exact ⟨p, w, pmm', hstate, hw⟩

end BootEnv

/-! ## Two trees -/

/-- `/reserved-memory/a`, and a node behind it. -/
def flatRoot : Node :=
  .mk [] [] [.mk (bytesOf "reserved-memory") [] [.mk (bytesOf "a") [] []], .mk (bytesOf "soc") [] []]

def flatTokens : List (Option Token) := flatRoot.tokens.map some

theorem flattened_flatTokens : (blobEnv flatTokens).Flattened flatTokens flatRoot :=
  flattened_blobEnv rfl (by decide +kernel)

theorem reserved_nesting_flat :
    flatRoot.FlatReserved ∧ ∃ p w pmm,
      reservedTurns (blobEnv flatTokens).fdt (2 ^ 32) 3 (reservedStart (blobEnv flatTokens).fdt
        (freshPmm 0 0)) = some (p, w, pmm) ∧
      w.Right [[], bytesOf "reserved-memory", bytesOf "a"] := by
  have hflat : flatRoot.FlatReserved := by
    unfold Node.FlatReserved
    decide +kernel
  exact ⟨hflat, (reserved_nesting_iff flattened_flatTokens (freshPmm 0 0) (Nat.le_refl _)).mpr hflat
    3 (by decide)⟩

/-- `/reserved-memory/a` with a child `b`. -/
def deepRoot : Node :=
  .mk [] [] [.mk (bytesOf "reserved-memory") [] [.mk (bytesOf "a") [] [.mk (bytesOf "b") [] []]]]

def deepTokens : List (Option Token) := deepRoot.tokens.map some

theorem flattened_deepTokens : (blobEnv deepTokens).Flattened deepTokens deepRoot :=
  flattened_blobEnv rfl (by decide +kernel)

/-- After the end of `b` the walk is inside `a` with the flag of `/reserved-memory`; after the end of `a`
it is in `/reserved-memory` with no flag. -/
theorem reserved_nesting_lost :
    ∃ s s' : BitVec 32 × ReservedWalk × Pmm,
      reservedTurns (blobEnv deepTokens).fdt (2 ^ 32) 5
        (reservedStart (blobEnv deepTokens).fdt (freshPmm 0 0)) = some s ∧
      openNodes (deepTokens.take 5).reduceOption = [[], bytesOf "reserved-memory", bytesOf "a"] ∧
      s.2.1.inReserved = 1 ∧ ¬ s.2.1.Right (openNodes (deepTokens.take 5).reduceOption) ∧
      reservedTurns (blobEnv deepTokens).fdt (2 ^ 32) 6
        (reservedStart (blobEnv deepTokens).fdt (freshPmm 0 0)) = some s' ∧
      openNodes (deepTokens.take 6).reduceOption = [[], bytesOf "reserved-memory"] ∧
      s'.2.1.inReserved = 0 ∧ ¬ s'.2.1.Right (openNodes (deepTokens.take 6).reduceOption) := by
  have hturns := fun n hn => flattened_deepTokens.stream.reservedTurns
    (n := n) rfl (Nat.le_refl _) (⟨0, 0, 2, 2⟩, freshPmm 0 0) hn
  obtain ⟨s, hs, hnest⟩ := hturns 5 (by decide)
  obtain ⟨s', hs', hnest'⟩ := hturns 6 (by decide)
  have hnest : s.2.1.nesting = (3, 1) := hnest
  have hnest' : s'.2.1.nesting = (2, 0) := hnest'
  refine ⟨s, s', hs, rfl, congrArg Prod.snd hnest, ?_, hs', rfl, congrArg Prod.snd hnest', ?_⟩
  · rw [s.2.1.right_iff, hnest]
    decide
  · rw [s'.2.1.right_iff, hnest']
    decide

end Arcline
