import Arcline.Dtb.Strings

set_option autoImplicit false

/-! # The two passes on tokens

`collectTokens` and `locateTokens` are the two passes of `dtb_get_stdout_uart_base` on the tokens of the
tree, with strings in place of pointers and buffers. On a well-formed blob the function does what they
do (`stdoutUartBase_eq`). The writes to all arrays but `current_path` are in bounds; those to
`current_path` are as long as the path fits.
-/

namespace Arcline

namespace Fdt

variable {fdt : Nat → Byte}

/-! ## The first pass -/

/-- What the first pass has collected: the token of `stdout-path`, and names and paths of the aliases. -/
structure Chosen where
  depth : Int
  stdout : Option (List Byte)
  aliases : List (List Byte × List Byte)

def collectTokens : TokenPass Chosen InNode Chosen where
  enter t name :=
    let t := if t.depth < 16 then { t with depth := t.depth + 1 } else t
    (t,
      { inChosen := t.depth = 2 && (bytesOf "chosen").isPrefixOf name
        inAliases := t.depth = 2 && (bytesOf "aliases").isPrefixOf name })
  prop k t name data :=
    .ok <|
      if k.inChosen && (bytesOf "stdout").isPrefixOf name then { t with stdout := some (pathToken data) }
      else if k.inAliases && t.aliases.length < 16 then
        { t with aliases := t.aliases ++ [(name, cString data)] }
      else t
  leave t := { t with depth := t.depth - 1 }
  up t := if 0 < t.depth then { t with depth := t.depth - 1 } else t
  stop t := t

/-- A pointer to a token, with its length. -/
structure TokenAt (fdt : Nat → Byte) (p : Nat × Nat) (token : List Byte) : Prop where
  bytes : startsWith fdt p.1 token = true
  length : p.2 = token.length
  zero : 0 ∉ token

/-- Pointers to the name and the path of an alias. -/
structure AliasAt (fdt : Nat → Byte) (p : Nat × Nat) (a : List Byte × List Byte) : Prop where
  name : startsWith fdt p.1 (a.1 ++ [0]) = true
  nameZero : 0 ∉ a.1
  path : startsWith fdt p.2 (a.2 ++ [0]) = true
  pathZero : 0 ∉ a.2

structure Collects (fdt : Nat → Byte) (s : Collected) (t : Chosen) : Prop where
  depth : s.depth = t.depth
  nonneg : 0 ≤ t.depth
  le : t.depth ≤ 16
  stdout : Option.Rel (TokenAt fdt) s.stdoutToken t.stdout
  aliases : List.Forall₂ (AliasAt fdt) s.aliases t.aliases
  stackWrites : ∀ i ∈ s.stackWrites, 0 ≤ i ∧ i < 16
  aliasWrites : ∀ i ∈ s.aliasWrites, i < 16

/-- In the inner loop the depth is positive, so that the end of the node does not make it negative. -/
def CollectsIn (fdt : Nat → Byte) (k k' : InNode) (s : Collected) (t : Chosen) : Prop :=
  k = k' ∧ Collects fdt s t ∧ 1 ≤ t.depth

variable {name : List Byte} {s : Collected} {t : Chosen}

theorem startsWith_eq_isPrefixOf {off : Nat} {s : List Byte}
    (hname : startsWith fdt off (name ++ [0]) = true) (hs : 0 ∉ s) :
    startsWith fdt off s = s.isPrefixOf name := by
  rw [Bool.eq_iff_iff, startsWith_prefix_iff hname hs, List.isPrefixOf_iff_prefix]

theorem Collects.enter {off : Nat} (h : Collects fdt s t)
    (hname : startsWith fdt off (name ++ [0]) = true) (fuel len : Nat) :
    ∃ s' k, (collect fdt).enter fuel s off len = some (s', k) ∧
      CollectsIn fdt k (collectTokens.enter t name).2 s' (collectTokens.enter t name).1 := by
  refine ⟨_, _, rfl, ?_⟩
  have hdepth := h.depth
  have hnonneg := h.nonneg
  have hle := h.le
  have hchosen : startsWith fdt off (bytesOf "chosen") = (bytesOf "chosen").isPrefixOf name :=
    startsWith_eq_isPrefixOf hname (by decide)
  have haliases : startsWith fdt off (bytesOf "aliases") = (bytesOf "aliases").isPrefixOf name :=
    startsWith_eq_isPrefixOf hname (by decide)
  refine ⟨?_, ?_, ?_⟩
  · simp only [collectTokens, hchosen, haliases, hdepth, apply_ite Collected.depth,
      apply_ite Chosen.depth]
  · by_cases hlt : t.depth < 16
    · simp only [collectTokens, hdepth, hlt, if_true]
      refine ⟨rfl, by show 0 ≤ t.depth + 1; omega, by show t.depth + 1 ≤ 16; omega, h.stdout,
        h.aliases, ?_, h.aliasWrites⟩
      intro i hi
      rcases List.mem_cons.mp hi with rfl | hi
      · exact ⟨hnonneg, hlt⟩
      · exact h.stackWrites i hi
    · simp only [collectTokens, hdepth, hlt, if_false]
      exact h
  · by_cases hlt : t.depth < 16
    · simp only [collectTokens, hlt, if_true]
      show 1 ≤ t.depth + 1
      omega
    · simp only [collectTokens, hlt, if_false]
      omega

theorem CollectsIn.prop {k k' : InNode} {data : List Byte} {pname pdata : Nat} {len : BitVec 32}
    (h : CollectsIn fdt k k' s t) (hname : startsWith fdt pname (name ++ [0]) = true) (hzero : 0 ∉ name)
    (hdata : startsWith fdt pdata (data ++ [0]) = true) (hlen : len.toNat = data.length) :
    ∃ s' t', (collect fdt).prop k s pname pdata len = .ok s' ∧
      collectTokens.prop k' t name data = .ok t' ∧ CollectsIn fdt k k' s' t' := by
  obtain ⟨rfl, hcoll, hpos⟩ := h
  refine ⟨_, _, rfl, rfl, rfl, ?_⟩
  have hstdout : (startsWith fdt pname (bytesOf "stdout-path") ||
      startsWith fdt pname (bytesOf "stdout")) = (bytesOf "stdout").isPrefixOf name := by
    -- the second test holds where the first one does
    rw [startsWith_eq_isPrefixOf hname (by decide), startsWith_eq_isPrefixOf hname (by decide),
      Bool.or_eq_right_iff_imp, List.isPrefixOf_iff_prefix, List.isPrefixOf_iff_prefix]
    exact List.IsPrefix.trans (by decide)
  have hcount : s.aliases.length = t.aliases.length := hcoll.aliases.length_eq
  rw [hstdout, hcount]
  split
  · refine ⟨⟨hcoll.depth, hcoll.nonneg, hcoll.le, .some ⟨?_, ?_, zero_not_mem_pathToken data⟩,
      hcoll.aliases, hcoll.stackWrites, hcoll.aliasWrites⟩, hpos⟩
    · exact startsWith_pathToken (startsWith_left hdata)
    · show pathTokenLen fdt len.toNat pdata = _
      rw [hlen, pathTokenLen_eq (startsWith_left hdata)]
  · split
    · rename_i halias
      rw [Bool.and_eq_true, decide_eq_true_iff] at halias
      refine ⟨⟨hcoll.depth, hcoll.nonneg, hcoll.le, hcoll.stdout, ?_, hcoll.stackWrites, ?_⟩, hpos⟩
      · exact List.rel_append hcoll.aliases
          (.cons ⟨hname, hzero, startsWith_cString hdata, zero_not_mem_cString data⟩ .nil)
      · intro i hi
        rcases List.mem_cons.mp hi with rfl | hi
        · exact halias.2
        · exact hcoll.aliasWrites i hi
    · exact ⟨hcoll, hpos⟩

theorem simulates_collect (fdt : Nat → Byte) :
    Simulates fdt (collect fdt) collectTokens (Collects fdt) (CollectsIn fdt) (Collects fdt) where
  enter t name := by
    refine ⟨0, fun fuel _ s off h hname _ => ?_⟩
    exact h.enter hname fuel name.length
  prop h hname hzero hdata hlen := .inr (h.prop hname hzero hdata hlen)
  leave t := by
    refine ⟨0, fun fuel _ k k' s h => ⟨_, rfl, ?_⟩⟩
    obtain ⟨-, hcoll, hpos⟩ := h
    have hle := hcoll.le
    exact ⟨congrArg (· - 1) hcoll.depth, by show 0 ≤ t.depth - 1; omega,
      by show t.depth - 1 ≤ 16; omega, hcoll.stdout, hcoll.aliases, hcoll.stackWrites,
      hcoll.aliasWrites⟩
  back h := h.2.1
  up {s t} h := by
    have hle := h.le
    show Collects fdt (if 0 < s.depth then _ else s) (if 0 < t.depth then _ else t)
    rw [h.depth]
    split
    · exact ⟨rfl, by show 0 ≤ t.depth - 1; omega, by show t.depth - 1 ≤ 16; omega, h.stdout,
        h.aliases, h.stackWrites, h.aliasWrites⟩
    · exact h
  stop h := h

/-! ## Resolving the path -/

/-- The path the second pass looks for: the token itself if it starts with a `/`, or the path of the
alias it names; at most 255 bytes of it. -/
def Chosen.resolve (t : Chosen) : Option (List Byte) :=
  match t.stdout with
  | none => none
  | some token =>
      if token = [] then none
      else if token.head? = some slash then some (token.take 255)
      else (t.aliases.find? fun a => a.1 == token).map fun a => a.2.take 255

/-- A buffer with a string, written in bounds. -/
structure StringIn (b : Buf) (s : List Byte) : Prop where
  holds : b.Holds (s ++ [0])
  zero : 0 ∉ s
  written : ∀ i ∈ b.written, i < 256

theorem find?_alias {aliases : List (Nat × Nat)} {table : List (List Byte × List Byte)}
    (h : List.Forall₂ (AliasAt fdt) aliases table) {p : Nat × Nat} {token : List Byte}
    (htoken : TokenAt fdt p token) :
    Option.Rel (AliasAt fdt) (aliases.find? fun a => aliasMatches fdt p.2 a.1 p.1)
      (table.find? fun a => a.1 == token) := by
  induction h with
  | nil => exact .none
  | @cons a e aliases table ha htable ih =>
      rw [List.find?_cons, List.find?_cons, htoken.length,
        aliasMatches_eq ha.name ha.nameZero htoken.bytes htoken.zero, ← htoken.length]
      cases e.1 == token with
      | true => exact .some ha
      | false => exact ih

theorem Collects.resolvePath (h : Collects fdt s t) (bytes : Nat → Byte) :
    Option.Rel StringIn (resolvePath fdt s ⟨bytes, []⟩) t.resolve := by
  unfold Fdt.resolvePath Chosen.resolve
  have hnil : Buf.Holds ⟨bytes, []⟩ [] := rfl
  match s.stdoutToken, t.stdout, h.stdout with
  | none, none, _ => exact .none
  | some p, some token, .some htoken =>
      dsimp only
      rw [htoken.length]
      by_cases hempty : token = []
      · rw [if_pos hempty, if_pos (by rw [hempty]; rfl)]
        exact .none
      · rw [if_neg hempty, if_neg (mt List.length_eq_zero_iff.mp hempty)]
        have hhead : fdt p.1 = slash ↔ token.head? = some slash := by
          match token, htoken.bytes, hempty with
          | c :: _, hbytes, _ =>
              rw [(startsWith_cons.mp hbytes).1, List.head?_cons, Option.some_inj]
        by_cases hslash : token.head? = some slash
        · rw [if_pos hslash, if_pos (hhead.mpr hslash)]
          -- the token is copied, up to 255 bytes of it
          have htake : startsWith fdt p.1 (token.take 255) = true := by
            have hbytes := htoken.bytes
            rw [← List.take_append_drop 255 token] at hbytes
            exact startsWith_left hbytes
          have hlen : (token.take 255).length = min token.length 255 := by
            rw [List.length_take, Nat.min_comm]
          obtain ⟨hholds, hwrites⟩ := copyBytes_eq hnil htake
          rw [hlen] at hholds hwrites
          refine .some ⟨hholds, fun hmem => htoken.zero (List.mem_of_mem_take hmem), ?_⟩
          refine (hwrites.lt_iff (by simp)).mpr ⟨fun i hi => absurd hi List.not_mem_nil, ?_⟩
          rw [List.length_nil]
          omega
        · rw [if_neg hslash, if_neg (mt hhead.mp hslash)]
          have hfind := find?_alias h.aliases htoken
          rw [htoken.length] at hfind
          match s.aliases.find? _, t.aliases.find? _, hfind with
          | none, none, _ => exact .none
          | some a, some e, .some ha =>
              obtain ⟨hholds, j, hwrites, hlt, hle⟩ := copyString_eq hnil ha.path ha.pathZero 255
              refine .some ⟨hholds, fun hmem => ha.pathZero (List.mem_of_mem_take hmem), ?_⟩
              exact (hwrites.lt_iff hlt).mpr ⟨fun i hi => absurd hi List.not_mem_nil, by
                rw [List.length_nil] at hle
                omega⟩

/-! ## The second pass -/

/-- The state of the second pass: the path without its first `/`, the number of nodes entered, and
whether all writes so far were in bounds. -/
structure Walked where
  depth : Int
  path : List Byte
  nodes : Nat
  safe : Bool

/-- The base address read from a `reg` property. -/
def regValue (data : List Byte) : Option Word :=
  if 8 ≤ data.length then
    some (((cell data).setWidth 64 <<< 32) ||| (cell (data.drop 4)).setWidth 64)
  else if 4 ≤ data.length then some ((cell data).setWidth 64)
  else none

def locateTokens (target : List Byte) : TokenPass Walked Bool (Option (Nat × Word) × Bool) where
  enter t name :=
    let path := if t.depth = 0 ∧ name = [] then t.path else enterPath t.path name
    (⟨t.depth + 1, path, t.nodes + 1, t.safe && path.length ≤ 254⟩, slash :: path == target)
  prop atTarget t name data :=
    if atTarget && (bytesOf "reg").isPrefixOf name then
      .error ((regValue data).map fun base => (t.nodes - 1, base), t.safe)
    else .ok t
  leave t := { t with depth := t.depth - 1, path := leavePath t.path }
  up t := t
  stop t := (none, t.safe)

structure Locates (target : List Byte) (s : Search) (t : Walked) : Prop where
  depth : s.depth = t.depth
  target : startsWith s.targetPath 0 (target ++ [0]) = true
  path : s.currentPath.Holds (slash :: t.path ++ [0])
  zero : 0 ∉ t.path
  nodes : s.nodes = t.nodes
  safe : (∀ i ∈ s.currentPath.written, i < 256) ↔ t.safe = true
  fits : t.safe = true → t.path.length ≤ 254

def LocatesIn (target : List Byte) (k k' : Bool) (s : Search) (t : Walked) : Prop :=
  k = k' ∧ Locates target s t

/-- The results of the second pass agree. -/
structure SameFound (r : Found) (r' : Option (Nat × Word) × Bool) : Prop where
  node : r.node = r'.1
  safe : (∀ i ∈ r.written, i < 256) ↔ r'.2 = true

theorem zero_not_mem_enterPath {path : List Byte} (hpath : 0 ∉ path) (hname : 0 ∉ name) :
    0 ∉ enterPath path name := by
  unfold enterPath separated
  intro h
  rcases List.mem_append.mp h with h | h
  · split at h
    · exact List.not_mem_nil h
    · rcases List.mem_append.mp h with h | h
      · exact hpath h
      · exact absurd (List.mem_singleton.mp h) (by decide)
  · exact hname (List.mem_of_mem_take h)

theorem leavePath_isPrefix (path : List Byte) : leavePath path <+: path :=
  (List.dropLast_prefix _).trans (List.rdropWhile_prefix _ path)

variable {target : List Byte} {s : Search} {t : Walked} {name : List Byte} {off fuel : Nat}

theorem length_enterPath_le (path name : List Byte) :
    (enterPath path name).length ≤ path.length + 1 + name.length := by
  unfold enterPath separated
  rw [List.length_append, List.length_take]
  split
  · rw [List.length_nil]
    omega
  · rw [List.length_append, List.length_singleton]
    omega

/-- The buffer of the path after a node is entered. -/
theorem Locates.push (h : Locates target s t) (hname : startsWith fdt off (name ++ [0]) = true)
    (hzero : 0 ∉ name) (hfuel : t.path.length + 1 < fuel) :
    ∃ b, (if s.depth = 0 ∧ name.length = 0 then some s.currentPath
        else pushPath fdt fuel off name.length s.currentPath) = some b ∧
      b.Holds (slash :: ((locateTokens target).enter t name).1.path ++ [0]) ∧
      0 ∉ ((locateTokens target).enter t name).1.path ∧
      ((∀ i ∈ b.written, i < 256) ↔ ((locateTokens target).enter t name).1.safe = true) := by
  have hroot : s.depth = 0 ∧ name.length = 0 ↔ t.depth = 0 ∧ name = [] := by
    rw [h.depth, List.length_eq_zero_iff]
  simp only [locateTokens, Bool.and_eq_true, decide_eq_true_iff, ← h.safe]
  by_cases hskip : t.depth = 0 ∧ name = []
  · rw [if_pos (hroot.mpr hskip), if_pos hskip]
    exact ⟨_, rfl, h.path, h.zero, fun hsafe => ⟨hsafe, h.fits (h.safe.mp hsafe)⟩, And.left⟩
  · rw [if_neg (mt hroot.mp hskip), if_neg hskip]
    obtain ⟨b, hb, hholds, hwrites⟩ := pushPath_eq h.path h.zero (startsWith_left hname) hfuel
    have hgrow : t.path.length ≤ (enterPath t.path name).length := by
      unfold enterPath separated
      split
      · rename_i hnil
        simp [hnil]
      · simp
    refine ⟨b, hb, hholds, zero_not_mem_enterPath h.zero hzero, ?_⟩
    rw [hwrites.lt_iff (by omega)]
    refine and_congr_right fun _ => ?_
    omega

theorem Locates.enter (h : Locates target s t) (htarget : 0 ∉ target)
    (hname : startsWith fdt off (name ++ [0]) = true) (hzero : 0 ∉ name)
    (hfuel : t.path.length + name.length + 4 ≤ fuel) :
    ∃ s' k, (locate fdt).enter fuel s off name.length = some (s', k) ∧
      LocatesIn target k ((locateTokens target).enter t name).2 s'
        ((locateTokens target).enter t name).1 := by
  obtain ⟨b, hb, hholds, hpath, hsafe⟩ := h.push hname hzero (show t.path.length + 1 < fuel by omega)
  have hslash : 0 ∉ slash :: ((locateTokens target).enter t name).1.path := by
    rw [List.mem_cons, not_or]
    exact ⟨by decide, hpath⟩
  have hlen : (slash :: ((locateTokens target).enter t name).1.path).length < fuel := by
    have hle := length_enterPath_le t.path name
    show (if t.depth = 0 ∧ name = [] then t.path else enterPath t.path name).length + 1 < fuel
    split <;> omega
  refine ⟨{ s with depth := s.depth + 1, currentPath := b, nodes := s.nodes + 1 },
    ((locateTokens target).enter t name).2, ?_, rfl, ?_⟩
  · simp only [locate, hb, Option.bind_some, pathEquals_eq hholds hslash h.target htarget hlen,
      Option.map_some]
    rfl
  · refine ⟨congrArg (· + 1) h.depth, h.target, hholds, hpath, congrArg (· + 1) h.nodes, hsafe, ?_⟩
    intro h
    have hboth := Bool.and_eq_true_iff.mp h
    exact of_decide_eq_true hboth.2

theorem LocatesIn.prop {k k' : Bool} {data : List Byte} {pname pdata : Nat} {len : BitVec 32}
    (h : LocatesIn target k k' s t) (hname : startsWith fdt pname (name ++ [0]) = true)
    (hdata : startsWith fdt pdata (data ++ [0]) = true) (hlen : len.toNat = data.length) :
    (∃ r r', (locate fdt).prop k s pname pdata len = .error r ∧
      (locateTokens target).prop k' t name data = .error r' ∧ SameFound r r') ∨
    ∃ s' t', (locate fdt).prop k s pname pdata len = .ok s' ∧
      (locateTokens target).prop k' t name data = .ok t' ∧ LocatesIn target k k' s' t' := by
  obtain ⟨rfl, hloc⟩ := h
  have hreg : startsWith fdt pname (bytesOf "reg") = (bytesOf "reg").isPrefixOf name :=
    startsWith_eq_isPrefixOf hname (by decide)
  simp only [locate, locateTokens, hreg]
  split
  · refine .inl ⟨_, _, rfl, rfl, ?_, ?_⟩
    · have height : (8 ≤ len) ↔ 8 ≤ data.length := by
        rw [BitVec.le_def, hlen]
        rfl
      have hfour : (4 ≤ len) ↔ 4 ≤ data.length := by
        rw [BitVec.le_def, hlen]
        rfl
      have hbytes := startsWith_left hdata
      simp only [height, hfour, regValue, hloc.nodes]
      by_cases h8 : 8 ≤ data.length
      · have hdrop := startsWith_drop hbytes 4 (by omega)
        rw [if_pos h8, if_pos h8, be32_eq_cell hbytes (by omega),
          be32_eq_cell hdrop (by rw [List.length_drop]; omega)]
        rfl
      · rw [if_neg h8, if_neg h8]
        by_cases h4 : 4 ≤ data.length
        · rw [if_pos h4, if_pos h4, be32_eq_cell hbytes h4]
          rfl
        · rw [if_neg h4, if_neg h4]
          rfl
    · rw [← hloc.safe]
      split
      · rfl
      · split
        · rfl
        · rfl
  · exact .inr ⟨s, t, rfl, rfl, rfl, hloc⟩

theorem Locates.leave (h : Locates target s t) (hfuel : t.path.length + 1 < fuel) :
    ∃ s', (locate fdt).leave fuel s = some s' ∧ Locates target s' ((locateTokens target).leave t) := by
  obtain ⟨b, hb, hholds, hwrites⟩ := popPath_eq h.path h.zero hfuel
  have hle : (leavePath t.path).length ≤ t.path.length := (leavePath_isPrefix t.path).length_le
  refine ⟨{ s with depth := s.depth - 1, currentPath := b }, ?_, congrArg (· - 1) h.depth, h.target,
    hholds, fun hmem => h.zero ((leavePath_isPrefix t.path).subset hmem), h.nodes, ?_, ?_⟩
  · simp only [locate, hb, Option.map_some]
  · rw [hwrites.lt_iff (by omega), h.safe]
    -- the write of the pop is in bounds as long as the path fits
    exact ⟨And.left, fun hsafe => ⟨hsafe, by have := h.fits hsafe; omega⟩⟩
  · intro hsafe
    exact hle.trans (h.fits hsafe)

theorem simulates_locate (fdt : Nat → Byte) (htarget : 0 ∉ target) :
    Simulates fdt (locate fdt) (locateTokens target) (Locates target) (LocatesIn target)
      SameFound where
  enter t name := by
    refine ⟨t.path.length + name.length + 4, fun fuel hfuel s off h hname hzero => ?_⟩
    exact h.enter htarget hname hzero hfuel
  prop h hname _ hdata hlen := h.prop hname hdata hlen
  leave t := by
    refine ⟨t.path.length + 2, fun fuel hfuel k k' s h => ?_⟩
    exact h.2.leave hfuel
  back h := h.2
  up h := h
  stop h := ⟨rfl, h.safe⟩

/-! ## The whole function -/

/-- Every write is at an index inside its array. -/
structure StdoutRun.InBounds (run : StdoutRun) : Prop where
  stack : ∀ i ∈ run.stackWrites, 0 ≤ i ∧ i < 16
  aliases : ∀ i ∈ run.aliasWrites, i < 16
  resolved : ∀ i ∈ run.resolvedWrites, i < 256
  path : ∀ i ∈ run.pathWrites, i < 256

/-- The path the second pass looks for in a tree. -/
def Node.resolved (root : Node) : Option (List Byte) :=
  (collectTokens.run none ⟨0, none, []⟩ root.tokens).resolve

/-- The second pass on a tree: the node it selects, with the base address, and whether `current_path`
is written in bounds. -/
def Node.located (root : Node) (target : List Byte) : Option (Nat × Word) × Bool :=
  (locateTokens target).run none ⟨0, [], 0, true⟩ root.tokens

/-- What the function does on the blob of a tree. -/
structure StdoutRun.Follows (run : StdoutRun) (root : Node) : Prop where
  found : run.found = root.resolved.bind fun target => (root.located target).1
  inBounds : run.InBounds ↔ ∀ target, root.resolved = some target → (root.located target).2 = true

theorem eq_none_of_rel {α β : Type} {r : α → β → Prop} {x : Option α} (h : Option.Rel r x none) :
    x = none := by
  cases h
  rfl

theorem exists_of_rel_some {α β : Type} {r : α → β → Prop} {x : Option α} {b : β}
    (h : Option.Rel r x (some b)) : ∃ a, x = some a ∧ r a b := by
  cases h with
  | some h => exact ⟨_, rfl, h⟩

theorem stdoutUartBase_eq {ts : List (Option Token)} {root : Node}
    (h : Stream fdt (offStruct fdt).toNat ts) (htokens : ts.reduceOption = root.tokens) :
    ∃ steps, ∀ fuel, steps ≤ fuel → ∀ frame,
      ∃ run, stdoutUartBase fdt frame fuel = some run ∧ run.Follows root := by
  -- the first pass, and the path it gives
  obtain ⟨n, hcollect⟩ : ∃ n, ∀ fuel, n ≤ fuel → ∃ s,
      walk fdt (collect fdt) fuel none (offStruct fdt) ⟨0, none, [], [], []⟩ = some s ∧
      (∀ i ∈ s.stackWrites, 0 ≤ i ∧ i < 16) ∧ (∀ i ∈ s.aliasWrites, i < 16) ∧
      ∀ bytes, Option.Rel StringIn (resolvePath fdt s ⟨bytes, []⟩) root.resolved := by
    obtain ⟨n, hwalk⟩ := (simulates_collect fdt).walk_eq h none ⟨0, none, []⟩
    refine ⟨n, fun fuel hfuel => ?_⟩
    have hinit : Collects fdt ⟨0, none, [], [], []⟩ ⟨0, none, []⟩ :=
      ⟨rfl, Int.le_refl 0, by decide, .none, .nil, fun i hi => absurd hi List.not_mem_nil,
        fun i hi => absurd hi List.not_mem_nil⟩
    obtain ⟨s, hs, hcoll⟩ := hwalk fuel hfuel none _ _ rfl hinit
    rw [htokens] at hcoll
    exact ⟨s, hs, hcoll.stackWrites, hcoll.aliasWrites, hcoll.resolvePath⟩
  cases hresolved : root.resolved with
  | none =>
      refine ⟨n, fun fuel hfuel frame => ?_⟩
      obtain ⟨s, hs, hstack, haliases, hrel⟩ := hcollect fuel hfuel
      have hpath : resolvePath fdt s ⟨frame.resolvedPathBuf, []⟩ = none :=
        eq_none_of_rel (hresolved ▸ hrel frame.resolvedPathBuf)
      refine ⟨⟨none, s.stackWrites, s.aliasWrites, [], []⟩, ?_, ?_, ?_⟩
      · unfold stdoutUartBase
        rw [hs, Option.bind_some, hpath]
      · rw [hresolved]
        rfl
      · rw [hresolved]
        refine ⟨fun _ _ habsurd => absurd habsurd (by simp), fun _ => ?_⟩
        exact ⟨hstack, haliases, fun i hi => absurd hi List.not_mem_nil,
          fun i hi => absurd hi List.not_mem_nil⟩
  | some target =>
      have htarget : 0 ∉ target := by
        obtain ⟨s, -, -, -, hrel⟩ := hcollect n (Nat.le_refl n)
        obtain ⟨b, -, hb⟩ := exists_of_rel_some (hresolved ▸ hrel fun _ => 0)
        exact hb.zero
      obtain ⟨m, hlocate⟩ := (simulates_locate fdt htarget).walk_eq h none ⟨0, [], 0, true⟩
      refine ⟨n + m, fun fuel hfuel frame => ?_⟩
      obtain ⟨s, hs, hstack, haliases, hrel⟩ := hcollect fuel (by omega)
      obtain ⟨b, hpath, hb⟩ := exists_of_rel_some (hresolved ▸ hrel frame.resolvedPathBuf)
      -- the second pass starts with the path of the root
      have hinit : Locates target
          ⟨0, b.bytes, (Buf.set ⟨frame.currentPath, []⟩ 0 slash).set 1 0, 0⟩ ⟨0, [], 0, true⟩ := by
        have hempty : Buf.Holds ⟨frame.currentPath, []⟩ [] := rfl
        have hholds : ((Buf.set ⟨frame.currentPath, []⟩ 0 slash).set 1 0).Holds [slash, 0] :=
          (hempty.set slash).set 0
        refine ⟨rfl, hb.holds, hholds, List.not_mem_nil, rfl, ?_, fun _ => Nat.zero_le _⟩
        refine iff_of_true (fun i hi => ?_) rfl
        have hi' : i ∈ [1, 0] := hi
        simp at hi'
        omega
      obtain ⟨r, hr, hsame⟩ := hlocate fuel (by omega) none _ _ rfl hinit
      rw [htokens] at hsame
      refine ⟨⟨r.node, s.stackWrites, s.aliasWrites, b.written, r.written⟩, ?_, ?_, ?_⟩
      · unfold stdoutUartBase
        rw [hs, Option.bind_some, hpath]
        dsimp only
        rw [hr, Option.map_some]
      · rw [hresolved, Option.bind_some]
        exact hsame.node
      · have hsafe : (∀ i ∈ r.written, i < 256) ↔ (root.located target).2 = true := hsame.safe
        constructor
        · intro hin target' htarget'
          rw [hresolved, Option.some_inj] at htarget'
          rw [← htarget']
          exact hsafe.mp hin.path
        · intro hlocated
          exact ⟨hstack, haliases, hb.written, hsafe.mpr (hlocated target hresolved)⟩

end Fdt

open Fdt

theorem BootEnv.Flattened.dtbGetStdoutUartBase_eq {env : BootEnv} {ts : List (Option Token)}
    {root : Node} (h : env.Flattened ts root) :
    ∃ steps, ∀ fuel, steps ≤ fuel → ∀ frame,
      ∃ run, env.dtbGetStdoutUartBase frame fuel = some run ∧ run.Follows root := by
  obtain ⟨steps, hrun⟩ := stdoutUartBase_eq h.stream h.tokens
  refine ⟨steps, fun fuel hfuel frame => ?_⟩
  unfold BootEnv.dtbGetStdoutUartBase
  rw [if_neg (not_or.mpr ⟨h.ptr, not_not.mpr h.magic⟩)]
  exact hrun fuel hfuel frame

end Arcline
