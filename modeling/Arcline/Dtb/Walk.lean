import Arcline.Dtb.Stream

set_option autoImplicit false

/-! # A walk over the blob in two loops

The two passes of `dtb_get_stdout_uart_base` have one form. An outer loop takes the tokens; at the
begin of a node it hands over to an inner loop, which takes the properties of the node and ends with
its end or with the begin of its first child. `walk` is that form, and a `Pass` says what one pass
does at each token. On a well-formed blob a pass is followed on the tokens (`TokenPass.run`) and then on
the nodes of the tree (`TokenPass.visit`).
-/

namespace Arcline

namespace Fdt

/-- `align4`. -/
def align4 (x : BitVec 32) : BitVec 32 := (x + 3) &&& ~~~3

/-- What a pass does in the state `σ`. Entering a node also sets what is local to the node, `κ`; a
property may end the pass with a result. Names and values are given by their places in the blob. The
first argument of `enter` and `leave` bounds the steps of their own loops. -/
structure Pass (σ κ ρ : Type) where
  enter : Nat → σ → Nat → Nat → Option (σ × κ)
  prop : κ → σ → Nat → Nat → BitVec 32 → Except ρ σ
  /-- The end of a node in the inner loop. -/
  leave : Nat → σ → Option σ
  /-- The end of a node in the outer loop. -/
  up : σ → σ
  stop : σ → ρ

/-- The two loops, from the token at `p` on; `some k` in the inner one. -/
def walk {σ κ ρ : Type} (fdt : Nat → Byte) (P : Pass σ κ ρ) :
    Nat → Option κ → BitVec 32 → σ → Option ρ
  | 0, _, _, _ => none
  | fuel + 1, inner, p, s =>
      let token := be32 fdt p.toNat
      let q := p + 4
      if token = beginNode then
        match inner with
        | some _ => walk fdt P fuel none p s    -- `p -= 4`, and back to the outer loop
        | none =>
            (nameLen fdt fuel q.toNat 0).bind fun len =>
              (P.enter fuel s q.toNat len).bind fun (s, k) =>
                walk fdt P fuel (some k) (q + align4 (BitVec.ofNat 32 (len + 1))) s
      else if token = prop then
        let len := be32 fdt q.toNat
        let nameOff := be32 fdt (q + 4).toNat
        let next := q + 8 + align4 len
        match inner with
        | some k =>
            match P.prop k s ((offStrings fdt).toNat + nameOff.toNat) (q + 8).toNat len with
            | .error r => some r
            | .ok s => walk fdt P fuel (some k) next s
        | none => walk fdt P fuel none next s
      else if token = endNode then
        match inner with
        | some _ => (P.leave fuel s).bind (walk fdt P fuel none q)
        | none => walk fdt P fuel none q (P.up s)
      else if token = nop then walk fdt P fuel inner q s
      else some (P.stop s)

/-! ## Passes over tokens -/

/-- A pass that is given names and values themselves. -/
structure TokenPass (τ κ ρ : Type) where
  enter : τ → List Byte → τ × κ
  prop : κ → τ → List Byte → List Byte → Except ρ τ
  leave : τ → τ
  up : τ → τ
  stop : τ → ρ

/-- The walk on tokens. -/
def TokenPass.run {τ κ ρ : Type} (A : TokenPass τ κ ρ) : Option κ → τ → List Token → ρ
  | _, t, [] => A.stop t
  | _, t, .beginNode name :: ts => A.run (some (A.enter t name).2) (A.enter t name).1 ts
  | some k, t, .prop name data :: ts =>
      match A.prop k t name data with
      | .error r => r
      | .ok t => A.run (some k) t ts
  | none, t, .prop _ _ :: ts => A.run none t ts
  | some _, t, .endNode :: ts => A.run none (A.leave t) ts
  | none, t, .endNode :: ts => A.run none (A.up t) ts

variable {σ τ κ κ' ρ ρ' : Type} {fdt : Nat → Byte} {p : Nat}

/-- The pass over the blob does what the pass over tokens does: `Out` relates their states in the outer
loop, `In` in the inner one, and `Res` their results. -/
structure Simulates (fdt : Nat → Byte) (P : Pass σ κ ρ) (A : TokenPass τ κ' ρ') (Out : σ → τ → Prop)
    (In : κ → κ' → σ → τ → Prop) (Res : ρ → ρ' → Prop) : Prop where
  enter : ∀ t name, ∃ steps, ∀ fuel, steps ≤ fuel → ∀ s off, Out s t →
    startsWith fdt off (name ++ [0]) = true → 0 ∉ name →
      ∃ s' k, P.enter fuel s off name.length = some (s', k) ∧
        In k (A.enter t name).2 s' (A.enter t name).1
  prop : ∀ {k k' s t name data pname pdata len}, In k k' s t →
    startsWith fdt pname (name ++ [0]) = true → 0 ∉ name →
    startsWith fdt pdata (data ++ [0]) = true → BitVec.toNat len = data.length →
      (∃ r r', P.prop k s pname pdata len = .error r ∧ A.prop k' t name data = .error r' ∧ Res r r') ∨
      ∃ s' t', P.prop k s pname pdata len = .ok s' ∧ A.prop k' t name data = .ok t' ∧ In k k' s' t'
  leave : ∀ t, ∃ steps, ∀ fuel, steps ≤ fuel → ∀ k k' s, In k k' s t →
    ∃ s', P.leave fuel s = some s' ∧ Out s' (A.leave t)
  back : ∀ {k k' s t}, In k k' s t → Out s t
  up : ∀ {s t}, Out s t → Out (P.up s) (A.up t)
  stop : ∀ {s t}, Out s t → Res (P.stop s) (A.stop t)

/-- The relation of the states, in either loop. -/
def Related (Out : σ → τ → Prop) (In : κ → κ' → σ → τ → Prop) : Option κ → Option κ' → σ → τ → Prop
  | none, none => Out
  | some k, some k' => In k k'
  | _, _ => fun _ _ => False

variable {P : Pass σ κ ρ} {A : TokenPass τ κ' ρ'} {Out : σ → τ → Prop}
  {In : κ → κ' → σ → τ → Prop} {Res : ρ → ρ' → Prop} {inner : Option κ} {inner' : Option κ'}
  {s : σ} {t : τ}

theorem Simulates.out (h : Simulates fdt P A Out In Res) (hrel : Related Out In inner inner' s t) :
    Out s t := by
  match inner, inner', hrel with
  | none, none, hrel => exact hrel
  | some _, some _, hrel => exact h.back hrel

/-- The rounding of this walk is that of the walks for memory. -/
theorem add_align4_name (q : BitVec 32) (len : Nat) :
    q + align4 (BitVec.ofNat 32 (len + 1)) = skipName q len := by
  unfold align4 skipName
  rw [show len + 4 = len + 1 + 3 by rfl, BitVec.ofNat_add (len + 1) 3]
  rfl

theorem align4_name_toNat {q : BitVec 32} {len : Nat} (hq : q.toNat = p)
    (h : p + 4 * ((len + 4) / 4) < 2 ^ 32) :
    (q + align4 (BitVec.ofNat 32 (len + 1))).toNat = p + 4 * ((len + 4) / 4) := by
  rw [add_align4_name, skipName_toNat (by omega), hq]

/-- From the place `p` on, the walk gives what the pass over tokens gives for `ts`. -/
def Agrees (fdt : Nat → Byte) (P : Pass σ κ ρ) (A : TokenPass τ κ' ρ') (Out : σ → τ → Prop)
    (In : κ → κ' → σ → τ → Prop) (Res : ρ → ρ' → Prop) (inner' : Option κ') (t : τ) (p : Nat)
    (ts : List Token) : Prop :=
  ∃ steps, ∀ fuel, steps ≤ fuel → ∀ inner s (q : BitVec 32), q.toNat = p →
    Related Out In inner inner' s t →
      ∃ r, walk fdt P fuel inner q s = some r ∧ Res r (A.run inner' t ts)

/-- A turn of the walk that goes on: it comes to `p'`, where the pass over tokens still has `ts'`. -/
theorem Agrees.of_turn {next' : Option κ'} {t' : τ} {p' : Nat} {ts ts' : List Token} (n : Nat)
    (h : Agrees fdt P A Out In Res next' t' p' ts') (hrun : A.run inner' t ts = A.run next' t' ts')
    (hturn : ∀ fuel, n ≤ fuel → ∀ inner s (q : BitVec 32), q.toNat = p → Related Out In inner inner' s t →
      ∃ next s' q', walk fdt P (fuel + 1) inner q s = walk fdt P fuel next q' s' ∧ q'.toNat = p' ∧
        Related Out In next next' s' t') :
    Agrees fdt P A Out In Res inner' t p ts := by
  obtain ⟨m, h⟩ := h
  refine ⟨n + m + 1, fun fuel hfuel inner s q hq hrel => ?_⟩
  rcases fuel with _ | fuel
  · omega
  obtain ⟨next, s', q', hwalk, hq', hrel'⟩ := hturn fuel (by omega) inner s q hq hrel
  rw [hwalk, hrun]
  exact h fuel (by omega) next s' q' hq' hrel'

section

variable (hsim : Simulates fdt P A Out In Res) {ts : List Token}

include hsim

theorem Simulates.agrees_stop (htoken : be32 fdt p = tokenEnd) :
    Agrees fdt P A Out In Res inner' t p [] := by
  refine ⟨1, fun fuel hfuel inner s q hq hrel => ⟨P.stop s, ?_, hsim.stop (hsim.out hrel)⟩⟩
  rcases fuel with _ | fuel
  · omega
  rw [walk.eq_def]
  dsimp only
  rw [hq, htoken]
  rfl

/-- A node is entered in the outer loop; the inner one leaves its begin to that. -/
theorem Simulates.agrees_beginNode {name : List Byte} (htoken : be32 fdt p = beginNode)
    (hname : startsWith fdt (p + 4) (name ++ [0]) = true) (hzero : 0 ∉ name)
    (hle : p + 4 + 4 * ((name.length + 4) / 4) < 2 ^ 32)
    (h : Agrees fdt P A Out In Res (some (A.enter t name).2) (A.enter t name).1
      (p + 4 + 4 * ((name.length + 4) / 4)) ts) :
    Agrees fdt P A Out In Res inner' t p (.beginNode name :: ts) := by
  obtain ⟨n, henter⟩ := hsim.enter t name
  obtain ⟨m, h⟩ := h
  have houter : ∀ fuel, n + m + name.length + 1 ≤ fuel → ∀ s (q : BitVec 32), q.toNat = p →
      Out s t → ∃ r, walk fdt P (fuel + 1) none q s = some r ∧
        Res r (A.run (some (A.enter t name).2) (A.enter t name).1 ts) := by
    intro fuel hfuel s q hq hout
    have hp4 : (q + 4).toNat = p + 4 := toNat_add_lt hq (show p + 4 < 2 ^ 32 by omega)
    have hlen := nameLen_eq (hp4 ▸ hname) hzero (show name.length < fuel by omega) 0
    rw [Nat.zero_add] at hlen
    obtain ⟨s', k, hs', hin⟩ := henter fuel (by omega) s _ hout (hp4 ▸ hname) hzero
    rw [walk, hq, htoken]
    dsimp only
    rw [if_pos rfl, hlen, Option.bind_some, hs', Option.bind_some]
    exact h fuel (by omega) (some k) s' _ (align4_name_toNat hp4 hle) hin
  refine ⟨n + m + name.length + 3, fun fuel hfuel inner s q hq hrel => ?_⟩
  obtain ⟨fuel, rfl⟩ : ∃ f, fuel = f + 2 := ⟨fuel - 2, by omega⟩
  have hout := hsim.out hrel
  cases inner with
  | none => exact houter (fuel + 1) (by omega) s q hq hout
  | some k =>
      rw [walk, hq, htoken]
      exact houter fuel (by omega) s q hq hout

/-- A property is looked at in the inner loop, and may end the pass. -/
theorem Simulates.agrees_prop {name data : List Byte} {k' : κ'} (htoken : be32 fdt p = Fdt.prop)
    (hlen : (be32 fdt (p + 4)).toNat = data.length)
    (hname : startsWith fdt ((offStrings fdt).toNat + (be32 fdt (p + 8)).toNat) (name ++ [0]) = true)
    (hzero : 0 ∉ name) (hdata : startsWith fdt (p + 12) (data ++ [0]) = true)
    (hle : p + 12 + 4 * ((data.length + 3) / 4) < 2 ^ 32)
    (h : ∀ t', A.prop k' t name data = .ok t' →
      Agrees fdt P A Out In Res (some k') t' (p + 12 + 4 * ((data.length + 3) / 4)) ts) :
    Agrees fdt P A Out In Res (some k') t p (.prop name data :: ts) := by
  have hunfold : ∀ fuel k s (q : BitVec 32), q.toNat = p → walk fdt P (fuel + 1) (some k) q s =
      match P.prop k s ((offStrings fdt).toNat + (be32 fdt (p + 8)).toNat) (p + 12) (be32 fdt (p + 4)) with
      | .error r => some r
      | .ok s => walk fdt P fuel (some k) (q + 4 + 8 + align4 (be32 fdt (p + 4))) s := by
    intro fuel k s q hq
    obtain ⟨hp4, hp8, hp12, -⟩ := prop_places hq hlen hle
    rw [walk, hq, htoken]
    dsimp only
    rw [if_neg (by decide), if_pos rfl, hp4, hp8, hp12]
  cases hprop : A.prop k' t name data with
  | error r' =>
      refine ⟨1, fun fuel hfuel inner s q hq hrel => ?_⟩
      rcases fuel with _ | fuel
      · omega
      match inner, hrel with
      | some k, hrel =>
          rw [hunfold fuel k s q hq, TokenPass.run, hprop]
          rcases hsim.prop hrel hname hzero hdata hlen with ⟨r, r'', hr, hr'', hres⟩ | ⟨s', t', -, ht', -⟩
          · rw [hprop] at hr''
            cases hr''
            rw [hr]
            exact ⟨r, rfl, hres⟩
          · rw [hprop] at ht'
            cases ht'
  | ok t' =>
      refine (h t' hprop).of_turn 0 (by rw [TokenPass.run, hprop]) fun fuel _ inner s q hq hrel => ?_
      obtain ⟨-, -, -, hnext⟩ := prop_places hq hlen hle
      match inner, hrel with
      | some k, hrel =>
          rcases hsim.prop hrel hname hzero hdata hlen with ⟨r, r', -, hr', -⟩ | ⟨s', t'', hs', ht'', hin⟩
          · rw [hprop] at hr'
            cases hr'
          · rw [hprop] at ht''
            cases ht''
            refine ⟨some k, s', _, ?_, hnext, hin⟩
            rw [hunfold fuel k s q hq, hs']
            rfl

/-- The end of a node in the outer loop. -/
theorem Simulates.agrees_up (htoken : be32 fdt p = endNode) (hle : p + 4 < 2 ^ 32)
    (h : Agrees fdt P A Out In Res none (A.up t) (p + 4) ts) :
    Agrees fdt P A Out In Res none t p (.endNode :: ts) := by
  refine h.of_turn 0 rfl fun fuel _ inner s q hq hrel => ?_
  match inner, hrel with
  | none, hrel =>
      refine ⟨none, P.up s, q + 4, ?_, toNat_add_lt hq hle, hsim.up hrel⟩
      rw [walk, hq, htoken]
      rfl

/-- The end of a node in the inner loop. -/
theorem Simulates.agrees_leave {k' : κ'} (htoken : be32 fdt p = endNode) (hle : p + 4 < 2 ^ 32)
    (h : Agrees fdt P A Out In Res none (A.leave t) (p + 4) ts) :
    Agrees fdt P A Out In Res (some k') t p (.endNode :: ts) := by
  obtain ⟨n, hleave⟩ := hsim.leave t
  refine h.of_turn n rfl fun fuel hfuel inner s q hq hrel => ?_
  match inner, hrel with
  | some k, hrel =>
      obtain ⟨s', hs', hout⟩ := hleave fuel hfuel k k' s hrel
      refine ⟨none, s', q + 4, ?_, toNat_add_lt hq hle, hout⟩
      rw [walk, hq, htoken]
      dsimp only
      rw [if_neg (by decide), if_neg (by decide), if_pos rfl, hs', Option.bind_some]

end

section

variable {ts : List Token}

theorem Agrees.nop (htoken : be32 fdt p = nop) (hle : p + 4 < 2 ^ 32)
    (h : Agrees fdt P A Out In Res inner' t (p + 4) ts) : Agrees fdt P A Out In Res inner' t p ts := by
  refine h.of_turn 0 rfl fun fuel _ inner s q hq hrel => ⟨inner, s, q + 4, ?_, toNat_add_lt hq hle, hrel⟩
  rw [walk.eq_def]
  dsimp only
  rw [hq, htoken]
  rfl

/-- A property is passed over in the outer loop. -/
theorem Agrees.skipProp {name data : List Byte} (htoken : be32 fdt p = prop)
    (hlen : (be32 fdt (p + 4)).toNat = data.length) (hle : p + 12 + 4 * ((data.length + 3) / 4) < 2 ^ 32)
    (h : Agrees fdt P A Out In Res none t (p + 12 + 4 * ((data.length + 3) / 4)) ts) :
    Agrees fdt P A Out In Res none t p (.prop name data :: ts) := by
  refine h.of_turn 0 rfl fun fuel _ inner s q hq hrel => ?_
  obtain ⟨hp4, -, -, hnext⟩ := prop_places hq hlen hle
  match inner, hrel with
  | none, hrel =>
      refine ⟨none, s, _, ?_, hnext, hrel⟩
      rw [walk, hq, htoken]
      dsimp only
      rw [if_neg (by decide), if_pos rfl, hp4]
      rfl

end

/-- **The walk over a well-formed blob** does what the pass over tokens does. -/
theorem Simulates.walk_eq (hsim : Simulates fdt P A Out In Res) {ts : List (Option Token)}
    (h : Stream fdt p ts) (inner' : Option κ') (t : τ) :
    Agrees fdt P A Out In Res inner' t p ts.reduceOption := by
  induction ts generalizing p inner' t with
  | nil => exact hsim.agrees_stop h.2
  | cons token ts ih =>
      match token, h with
      | none, ⟨htoken, hrest⟩ =>
          have hle := hrest.le
          exact (ih hrest inner' t).nop htoken (by omega)
      | some (.beginNode name), ⟨htoken, hname, hzero, hrest⟩ =>
          have hle := hrest.le
          exact hsim.agrees_beginNode htoken hname hzero (by omega) (ih hrest _ _)
      | some (.prop name data), ⟨htoken, hlen, hname, hzero, hdata, hrest⟩ =>
          have hle := hrest.le
          cases inner' with
          | none => exact (ih hrest none t).skipProp htoken hlen (by omega)
          | some k' =>
              exact hsim.agrees_prop htoken hlen hname hzero (hrest.data_zero hdata) (by omega)
                fun t' _ => ih hrest (some k') t'
      | some .endNode, ⟨htoken, hrest⟩ =>
          have hle := hrest.le
          cases inner' with
          | none => exact hsim.agrees_up htoken (by omega) (ih hrest none _)
          | some k' => exact hsim.agrees_leave htoken (by omega) (ih hrest none _)

/-! ## Passes over trees -/

namespace TokenPass

theorem andThen_bind {ρ τ : Type} (x : Except ρ τ) (g : τ → Except ρ τ) (f : τ → ρ) :
    andThen (x.bind g) f = andThen x fun t => andThen (g t) f := by
  cases x <;> rfl

/-- The properties of one node. -/
def props {τ κ ρ : Type} (A : TokenPass τ κ ρ) (k : κ) (t : τ) (l : List Property) : Except ρ τ :=
  l.foldlM (fun t q => A.prop k t q.name q.data) t

mutual

/-- The pass over a node and all nodes below it. -/
def visit {τ κ ρ : Type} (A : TokenPass τ κ ρ) (t : τ) : Node → Except ρ τ
  | .mk name props children =>
      (A.props (A.enter t name).2 (A.enter t name).1 props).bind fun t =>
        -- the end of a node without children is met in the inner loop
        if children.isEmpty then .ok (A.leave t) else (A.visitAll t children).map A.up

def visitAll {τ κ ρ : Type} (A : TokenPass τ κ ρ) (t : τ) : List Node → Except ρ τ
  | [] => .ok t
  | n :: ns => (A.visit t n).bind fun t => A.visitAll t ns

end

variable {κ : Type} (A : TokenPass τ κ ρ)

theorem run_props (k : κ) (t : τ) (l : List Property) (ts : List Token) :
    A.run (some k) t (l.map (fun q => .prop q.name q.data) ++ ts) =
      andThen (A.props k t l) fun t => A.run (some k) t ts := by
  induction l generalizing t with
  | nil => rfl
  | cons q l ih =>
      rw [List.map_cons, List.cons_append, run, props, List.foldlM_cons]
      cases A.prop k t q.name q.data with
      | error r => rfl
      | ok t => exact ih t

/-- The begin of a node sends the inner loop back to the outer one. -/
theorem run_node (inner : Option κ) (t : τ) (n : Node) (ts : List Token) :
    A.run inner t (n.tokens ++ ts) = A.run none t (n.tokens ++ ts) := by
  cases n
  rw [Node.tokens, List.cons_append, run, run]

mutual

theorem run_visit (t : τ) (n : Node) (ts : List Token) :
    A.run none t (n.tokens ++ ts) = andThen (A.visit t n) fun t => A.run none t ts := by
  match n with
  | .mk name props children =>
      rw [Node.tokens, List.cons_append, run, List.append_assoc, run_props, visit, andThen_bind]
      congr 1
      funext t'
      match children with
      | [] => rfl
      | c :: cs =>
          rw [Node.tokensAll, List.append_assoc, List.append_assoc, run_node, run_visit t' c,
            List.singleton_append]
          show _ = andThen ((A.visitAll t' (c :: cs)).map A.up) _
          rw [visitAll]
          cases A.visit t' c with
          | error r => rfl
          | ok t'' =>
              show A.run none t'' (Node.tokensAll cs ++ .endNode :: ts) =
                andThen ((A.visitAll t'' cs).map A.up) _
              rw [run_visitAll t'' cs]
              cases A.visitAll t'' cs <;> rfl

theorem run_visitAll (t : τ) (ns : List Node) (ts : List Token) :
    A.run none t (Node.tokensAll ns ++ ts) =
      andThen (A.visitAll t ns) fun t => A.run none t ts := by
  match ns with
  | [] => rfl
  | n :: ns =>
      rw [Node.tokensAll, List.append_assoc, run_visit t n, visitAll, andThen_bind]
      congr 1
      funext t'
      exact run_visitAll t' ns ts

end

/-- The pass over the tokens of a tree. -/
theorem run_tokens (t : τ) (n : Node) : A.run none t n.tokens = andThen (A.visit t n) A.stop := by
  have h := A.run_visit t n []
  rw [List.append_nil] at h
  exact h

/-! ### Passes that ignore the end of a node with children -/

/-- What such a pass does at one node. -/
def visitOne (t : τ) (n : Node) : Except ρ τ :=
  (A.props (A.enter t n.name).2 (A.enter t n.name).1 n.props).map fun t =>
    if n.children.isEmpty then A.leave t else t

variable {A}

mutual

theorem visit_eq_foldlM (hup : A.up = id) (t : τ) (n : Node) :
    A.visit t n = n.nodes.foldlM A.visitOne t := by
  match n with
  | .mk name props children =>
      rw [visit, Node.nodes, List.foldlM_cons, visitOne]
      show Except.bind (A.props (A.enter t name).2 (A.enter t name).1 props) _ =
        Except.bind (Except.map _ (A.props (A.enter t name).2 (A.enter t name).1 props)) _
      cases A.props (A.enter t name).2 (A.enter t name).1 props with
      | error r => rfl
      | ok t' =>
          match children with
          | [] => rfl
          | c :: cs =>
              show (A.visitAll t' (c :: cs)).map A.up = (Node.nodesAll (c :: cs)).foldlM A.visitOne t'
              rw [visitAll_eq_foldlM hup t' (c :: cs), hup]
              cases (Node.nodesAll (c :: cs)).foldlM A.visitOne t' <;> rfl

theorem visitAll_eq_foldlM (hup : A.up = id) (t : τ) (ns : List Node) :
    A.visitAll t ns = (Node.nodesAll ns).foldlM A.visitOne t := by
  match ns with
  | [] => rfl
  | n :: ns =>
      rw [visitAll, Node.nodesAll, List.foldlM_append, visit_eq_foldlM hup t n]
      congr 1
      funext t'
      exact visitAll_eq_foldlM hup t' ns

end

end TokenPass

end Fdt

end Arcline
