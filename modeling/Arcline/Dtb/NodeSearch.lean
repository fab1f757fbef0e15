import Arcline.Dtb.StdoutTokens

set_option autoImplicit false

/-! # The second pass on nodes

The second pass does not go back when a node with children ends: it comes to the nodes one after the
other, in the order of the blob, and the path it spells for a node has the names of all nodes with
children that come before it. `search` is the pass on the list of nodes; the node it selects is the
first one that is spelled like the path looked for and has a property whose name starts with `reg`.
-/

namespace Arcline

namespace Fdt

variable {target path : List Byte} {i : Nat} {safe : Bool} {n : Node} {ns : List Node}

/-- The first property whose name starts with `reg`. -/
def Node.regLike (n : Node) : Option Property :=
  n.props.find? fun q => (bytesOf "reg").isPrefixOf q.name

/-- The path behind a node: a node without children is left again. -/
def pathBehind (path : List Byte) (n : Node) : List Byte :=
  if n.children.isEmpty then path else enterPath path n.name

/-- The paths that are spelled for the nodes. -/
def spelled : List Byte → List Node → List (List Byte)
  | _, [] => []
  | path, n :: ns => enterPath path n.name :: spelled (pathBehind path n) ns

/-- The second pass from the node with number `i` on. -/
def search (target : List Byte) : List Node → Nat → List Byte → Bool → Option (Nat × Word) × Bool
  | [], _, _, safe => (none, safe)
  | n :: ns, i, path, safe =>
      let entered := enterPath path n.name
      let safe := safe && entered.length ≤ 254
      match if slash :: entered == target then n.regLike else none with
      | some q => ((regValue q.data).map fun base => (i, base), safe)
      | none => search target ns (i + 1) (pathBehind path n) safe

/-! ## The pass is the search -/

/-- Entering a node and leaving it again gives the path back. -/
theorem leavePath_enterPath {path name : List Byte} (hname : slash ∉ name) :
    leavePath (enterPath path name) = path := by
  have hstrip : ∀ (s t : List Byte), slash ∉ t →
      (s ++ t).rdropWhile (fun c => c != slash) = s.rdropWhile fun c => c != slash := by
    intro s t ht
    induction t using List.reverseRecOn with
    | nil => rw [List.append_nil]
    | append_singleton t c ih =>
        rw [List.mem_append, not_or, List.mem_singleton] at ht
        rw [← List.append_assoc, List.rdropWhile_concat, if_pos, ih ht.1]
        simpa using Ne.symm ht.2
  unfold leavePath enterPath
  rw [hstrip _ _ fun h => hname (List.mem_of_mem_take h)]
  unfold separated
  split
  · rename_i hpath
    rw [hpath]
    rfl
  · rw [List.rdropWhile_concat, if_neg (by simp), List.dropLast_concat]

theorem props_locateTokens (target : List Byte) (k : Bool) (t : Walked) (l : List Property) :
    (locateTokens target).props k t l =
      match if k then l.find? (fun q => (bytesOf "reg").isPrefixOf q.name) else none with
      | some q => .error ((regValue q.data).map fun base => (t.nodes - 1, base), t.safe)
      | none => .ok t := by
  induction l with
  | nil => cases k <;> rfl
  | cons q l ih =>
      have hstep : (locateTokens target).prop k t q.name q.data =
          if k && (bytesOf "reg").isPrefixOf q.name then
            .error ((regValue q.data).map fun base => (t.nodes - 1, base), t.safe)
          else .ok t := rfl
      unfold TokenPass.props at ih ⊢
      rw [List.foldlM_cons, List.find?_cons, hstep]
      cases k with
      | false => exact ih
      | true =>
          cases (bytesOf "reg").isPrefixOf q.name with
          | true => rfl
          | false => exact ih

/-- One node in the second pass. The depth matters at the root only. -/
theorem visitOne_locateTokens (target : List Byte) {t : Walked} {n : Node} (hname : slash ∉ n.name)
    (henter : (if t.depth = 0 ∧ n.name = [] then t.path else enterPath t.path n.name) =
      enterPath t.path n.name) :
    ∃ depth, (locateTokens target).visitOne t n =
      match if slash :: enterPath t.path n.name == target then n.regLike else none with
      | some q => .error ((regValue q.data).map fun base => (t.nodes, base),
          t.safe && (enterPath t.path n.name).length ≤ 254)
      | none => .ok ⟨depth, pathBehind t.path n, t.nodes + 1,
          t.safe && (enterPath t.path n.name).length ≤ 254⟩ := by
  have hentered : (locateTokens target).enter t n.name =
      (⟨t.depth + 1, enterPath t.path n.name, t.nodes + 1,
        t.safe && (enterPath t.path n.name).length ≤ 254⟩,
        slash :: enterPath t.path n.name == target) := by
    simp only [locateTokens, henter]
  refine ⟨if n.children.isEmpty then t.depth + 1 - 1 else t.depth + 1, ?_⟩
  unfold TokenPass.visitOne
  rw [hentered, props_locateTokens]
  show Except.map _ (match if slash :: enterPath t.path n.name == target then n.regLike else none with
    | some q => _ | none => _) = _
  cases if slash :: enterPath t.path n.name == target then n.regLike else none with
  | some q => rfl
  | none =>
      unfold pathBehind
      dsimp only [Except.map]
      cases n.children.isEmpty with
      | true => simp only [if_true, locateTokens, leavePath_enterPath hname]
      | false => rfl

theorem foldlM_eq_search (target : List Byte) {ns : List Node}
    (hnames : ∀ n ∈ ns, n.name ≠ [] ∧ slash ∉ n.name) (t : Walked) :
    andThen (ns.foldlM (locateTokens target).visitOne t) (locateTokens target).stop =
      search target ns t.nodes t.path t.safe := by
  induction ns generalizing t with
  | nil => rfl
  | cons n ns ih =>
      obtain ⟨hne, hslash⟩ := hnames n List.mem_cons_self
      obtain ⟨depth, hone⟩ := visitOne_locateTokens target (t := t) hslash (if_neg fun h => hne h.2)
      rw [List.foldlM_cons, search, hone]
      cases if slash :: enterPath t.path n.name == target then n.regLike else none with
      | some q => rfl
      | none => exact ih (fun m hm => hnames m (List.mem_cons_of_mem n hm)) _

namespace Node

mutual

theorem name_of_mem_nodes (n : Node) (h : ∀ m ∈ n.nodes, m.Proper) :
    ∀ m ∈ n.nodes.tail, m.name ≠ [] ∧ slash ∉ m.name := by
  match n with
  | .mk name props children =>
      rw [nodes, List.tail_cons]
      rw [nodes] at h
      exact name_of_mem_nodesAll children (h _ List.mem_cons_self).childNames
        fun m hm => h m (List.mem_cons_of_mem _ hm)

theorem name_of_mem_nodesAll (ns : List Node) (hnames : ∀ c ∈ ns, c.name ≠ [] ∧ slash ∉ c.name)
    (h : ∀ m ∈ nodesAll ns, m.Proper) : ∀ m ∈ nodesAll ns, m.name ≠ [] ∧ slash ∉ m.name := by
  match ns with
  | [] => exact fun m hm => absurd hm List.not_mem_nil
  | n :: ns =>
      rw [nodesAll] at h ⊢
      intro m hm
      rcases List.mem_append.mp hm with hm | hm
      · have htail := name_of_mem_nodes n fun m hm => h m (List.mem_append_left _ hm)
        cases n with
        | mk name props children =>
            rw [nodes] at hm
            rcases List.mem_cons.mp hm with rfl | hm
            · exact hnames _ List.mem_cons_self
            · exact htail m (by rw [nodes]; exact hm)
      · exact name_of_mem_nodesAll ns (fun c hc => hnames c (List.mem_cons_of_mem n hc))
          (fun m hm => h m (List.mem_append_right _ hm)) m hm

end

theorem nodes_eq_cons (n : Node) : n.nodes = n :: n.nodes.tail := by
  cases n
  rw [nodes, List.tail_cons]

/-- **The second pass** on a well-formed tree is the search over its nodes. -/
theorem WellFormed.located_eq {root : Node} (h : root.WellFormed) (target : List Byte) :
    root.located target = search target root.nodes 0 [] true := by
  have htail := root.name_of_mem_nodes h.proper
  unfold located
  rw [TokenPass.run_tokens, TokenPass.visit_eq_foldlM rfl]
  rw [root.nodes_eq_cons, List.foldlM_cons, search]
  -- nothing is appended for the root, and its empty name would change nothing
  have henter : enterPath [] root.name = [] := by
    rw [h.name]
    rfl
  obtain ⟨depth, hone⟩ := visitOne_locateTokens target (t := ⟨0, [], 0, true⟩) (n := root)
    (by rw [h.name]; exact List.not_mem_nil) (by rw [henter, ite_self])
  rw [hone]
  dsimp only
  cases if slash :: enterPath [] root.name == target then root.regLike else none with
  | some q => rfl
  | none => exact foldlM_eq_search target htail _

end Node

/-! ## What the search selects -/

/-- Node `k` is spelled like the path looked for and has a property whose name starts with `reg`. -/
def Matches (target path : List Byte) (ns : List Node) (k : Nat) : Prop :=
  ∃ p n, (spelled path ns)[k]? = some p ∧ ns[k]? = some n ∧ slash :: p = target ∧
    n.regLike.isSome = true

theorem matches_zero : Matches target path (n :: ns) 0 ↔
    slash :: enterPath path n.name = target ∧ n.regLike.isSome = true := by
  constructor
  · rintro ⟨p, m, hp, hm, h⟩
    cases hp
    cases hm
    exact h
  · intro h
    exact ⟨_, _, rfl, rfl, h⟩

theorem matches_succ (k : Nat) :
    Matches target path (n :: ns) (k + 1) ↔ Matches target (pathBehind path n) ns k := Iff.rfl

theorem search_cons_of_matches {q : Property} (htarget : slash :: enterPath path n.name = target)
    (hq : n.regLike = some q) :
    search target (n :: ns) i path safe =
      ((regValue q.data).map fun base => (i, base),
        safe && (enterPath path n.name).length ≤ 254) := by
  rw [search, htarget, beq_self_eq_true, if_pos rfl, hq]

theorem search_cons_of_not (h : ¬ Matches target path (n :: ns) 0) :
    search target (n :: ns) i path safe =
      search target ns (i + 1) (pathBehind path n)
        (safe && (enterPath path n.name).length ≤ 254) := by
  have hnone : (if slash :: enterPath path n.name == target then n.regLike else none) = none := by
    by_cases htarget : slash :: enterPath path n.name = target
    · have hreg := mt (fun hreg => matches_zero.mpr ⟨htarget, hreg⟩) h
      rw [htarget, beq_self_eq_true, if_pos rfl]
      simpa using hreg
    · rw [beq_false_of_ne htarget]
      rfl
  rw [search, hnone]

/-- The first node that matches is selected. -/
theorem search_of_first {k : Nat} {q : Property} (hmatch : Matches target path ns k)
    (hfirst : ∀ j < k, ¬ Matches target path ns j)
    (hq : ∀ n, ns[k]? = some n → n.regLike = some q) (i : Nat) (safe : Bool) :
    (search target ns i path safe).1 = (regValue q.data).map fun base => (i + k, base) := by
  induction k generalizing ns path i safe with
  | zero =>
      match ns, hmatch with
      | n :: ns, hmatch =>
          rw [search_cons_of_matches (matches_zero.mp hmatch).1 (hq n rfl), Nat.add_zero]
  | succ k ih =>
      match ns, hmatch with
      | n :: ns, hmatch =>
          rw [search_cons_of_not (hfirst 0 (Nat.succ_pos k)),
            ih hmatch (fun j hj => hfirst (j + 1) (by omega)) hq, Nat.add_right_comm i 1 k]
          rfl

/-- What is selected is the first node that matches. -/
theorem exists_of_search {j : Nat} {base : Word}
    (h : (search target ns i path safe).1 = some (j, base)) :
    ∃ k n q, j = i + k ∧ Matches target path ns k ∧ (∀ l < k, ¬ Matches target path ns l) ∧
      ns[k]? = some n ∧ n.regLike = some q ∧ regValue q.data = some base := by
  induction ns generalizing path i safe with
  | nil => cases h
  | cons n ns ih =>
      by_cases hmatch : Matches target path (n :: ns) 0
      · obtain ⟨htarget, hreg⟩ := matches_zero.mp hmatch
        obtain ⟨q, hq⟩ := Option.isSome_iff_exists.mp hreg
        rw [search_cons_of_matches htarget hq] at h
        obtain ⟨base', hbase, heq⟩ := Option.map_eq_some_iff.mp h
        cases heq
        exact ⟨0, n, q, rfl, hmatch, fun l hl => absurd hl (Nat.not_lt_zero l), rfl, hq, hbase⟩
      · rw [search_cons_of_not hmatch] at h
        obtain ⟨k, m, q, hj, hk, hfirst, hm, hq, hbase⟩ := ih h
        refine ⟨k + 1, m, q, by omega, hk, fun l hl => ?_, hm, hq, hbase⟩
        cases l with
        | zero => exact hmatch
        | succ l => exact hfirst l (by omega)

/-- All writes are in bounds just if the paths of the nodes up to the first match fit. -/
theorem search_safe_iff :
    (search target ns i path safe).2 = true ↔ safe = true ∧
      ∀ j p, (spelled path ns)[j]? = some p → (∀ k < j, ¬ Matches target path ns k) →
        p.length ≤ 254 := by
  induction ns generalizing path i safe with
  | nil =>
      refine ⟨fun h => ⟨h, fun j p hp => ?_⟩, And.left⟩
      cases hp
  | cons n ns ih =>
      by_cases hmatch : Matches target path (n :: ns) 0
      · obtain ⟨htarget, hreg⟩ := matches_zero.mp hmatch
        obtain ⟨q, hq⟩ := Option.isSome_iff_exists.mp hreg
        rw [search_cons_of_matches htarget hq, Bool.and_eq_true, decide_eq_true_iff]
        refine and_congr_right fun _ => ⟨fun hfits j p hp hfirst => ?_, fun h => ?_⟩
        · cases j with
          | zero =>
              cases hp
              exact hfits
          | succ j => exact absurd hmatch (hfirst 0 (Nat.succ_pos j))
        · exact h 0 _ rfl fun k hk => absurd hk (Nat.not_lt_zero k)
      · rw [search_cons_of_not hmatch, ih, Bool.and_eq_true, decide_eq_true_iff, and_assoc]
        refine and_congr_right fun _ => ⟨fun ⟨hfits, hrest⟩ j p hp hfirst => ?_, fun h => ⟨?_, ?_⟩⟩
        · cases j with
          | zero =>
              cases hp
              exact hfits
          | succ j => exact hrest j p hp fun k hk => hfirst (k + 1) (by omega)
        · exact h 0 _ rfl fun k hk => absurd hk (Nat.not_lt_zero k)
        · intro j p hp hfirst
          refine h (j + 1) p hp fun k hk => ?_
          cases k with
          | zero => exact hmatch
          | succ k => exact hfirst k (by omega)

end Fdt

end Arcline
