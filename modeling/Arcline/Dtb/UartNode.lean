import Arcline.Dtb.Resolve
import Arcline.Dtb.Uart

set_option autoImplicit false

/-! # The node of the UART

The second pass does not shorten the path where a node with children ends. The path it spells for a node
has the names of all nodes with children in front of it, so that it is the path of the node just if each
of these is an ancestor of the node. The node that `stdout-path` names is then the first one that is
spelled like the path, and otherwise it is passed over.
-/

namespace Arcline

namespace Fdt

/-! ## Paths -/

/-- Names with a separator between two of them. -/
def pathOf (names : List (List Byte)) : List Byte := [slash].intercalate names

theorem pathOf_singleton (a : List Byte) : pathOf [a] = a := by simp [pathOf]

theorem pathOf_cons_cons (a b : List Byte) (l : List (List Byte)) :
    pathOf (a :: b :: l) = a ++ [slash] ++ pathOf (b :: l) := List.intercalate_cons_cons

theorem pathOf_ne_nil {a : List Byte} (ha : a ≠ []) (l : List (List Byte)) : pathOf (a :: l) ≠ [] := by
  cases l with
  | nil => rwa [pathOf_singleton]
  | cons b l =>
      rw [pathOf_cons_cons]
      simp

theorem pathOf_concat {l : List (List Byte)} (hl : ∀ x ∈ l, x ≠ []) (x : List Byte) :
    pathOf (l ++ [x]) = separated (pathOf l) ++ x := by
  induction l with
  | nil => exact pathOf_singleton x
  | cons a l ih =>
      have ha : a ≠ [] := hl a List.mem_cons_self
      have hrest := ih fun y hy => hl y (List.mem_cons_of_mem a hy)
      rw [separated, if_neg (pathOf_ne_nil ha l)]
      cases l with
      | nil =>
          show pathOf [a, x] = _
          rw [pathOf_cons_cons, pathOf_singleton, pathOf_singleton]
      | cons b l =>
          have hb : b ≠ [] := hl b (List.mem_cons_of_mem a List.mem_cons_self)
          rw [separated, if_neg (pathOf_ne_nil hb l)] at hrest
          calc pathOf (a :: b :: (l ++ [x]))
              = a ++ [slash] ++ pathOf (b :: l ++ [x]) := pathOf_cons_cons a b (l ++ [x])
            _ = a ++ [slash] ++ (pathOf (b :: l) ++ [slash] ++ x) := by rw [hrest]
            _ = pathOf (a :: b :: l) ++ [slash] ++ x := by
                rw [pathOf_cons_cons]
                simp only [List.append_assoc]

/-- A path determines its names. -/
theorem pathOf_inj {l l' : List (List Byte)} (hl : ∀ x ∈ l, x ≠ [] ∧ slash ∉ x)
    (hl' : ∀ x ∈ l', x ≠ [] ∧ slash ∉ x) (h : pathOf l = pathOf l') : l = l' := by
  cases l with
  | nil =>
      cases l' with
      | nil => rfl
      | cons b l' => exact absurd h.symm (pathOf_ne_nil (hl' b List.mem_cons_self).1 l')
  | cons a l =>
      cases l' with
      | nil => exact absurd h (pathOf_ne_nil (hl a List.mem_cons_self).1 l)
      | cons b l' =>
          calc a :: l
              = (pathOf (a :: l)).splitOn slash :=
                (List.splitOn_intercalate slash (fun x hx => (hl x hx).2) (List.cons_ne_nil a l)).symm
            _ = (pathOf (b :: l')).splitOn slash := by rw [h]
            _ = b :: l' :=
                List.splitOn_intercalate slash (fun x hx => (hl' x hx).2) (List.cons_ne_nil b l')

/-- A path that is not cut off is made of the names that were entered. -/
theorem foldl_enterPath {l : List (List Byte)} (hl : ∀ x ∈ l, x ≠ [])
    (hlen : (l.foldl enterPath []).length < 254 ∨ (pathOf l).length < 254) :
    l.foldl enterPath [] = pathOf l := by
  induction l using List.reverseRecOn with
  | nil => rfl
  | append_singleton l x ih =>
      have hl' : ∀ y ∈ l, y ≠ [] := fun y hy => hl y (List.mem_append_left _ hy)
      rw [List.foldl_append, List.foldl_cons, List.foldl_nil, pathOf_concat hl'] at hlen ⊢
      have hsep : ∀ p : List Byte, p.length ≤ (separated p).length := by
        intro p
        unfold separated
        split <;> simp_all
      have hshort := ih hl' (hlen.imp (fun h => by
        have := hsep (l.foldl enterPath [])
        rw [length_enterPath] at h
        omega) fun h => by
        have := hsep (pathOf l)
        rw [List.length_append] at h
        omega)
      rw [hshort, length_enterPath, List.length_append] at hlen
      rw [hshort, enterPath, List.take_of_length_le (by omega)]

/-- What is spelled for some names is the path of others only if they are the same. -/
theorem foldl_enterPath_eq_iff {l l' : List (List Byte)} (hl : ∀ x ∈ l, x ≠ [] ∧ slash ∉ x)
    (hl' : ∀ x ∈ l', x ≠ [] ∧ slash ∉ x) (hlen : (pathOf l').length < 254) :
    l.foldl enterPath [] = pathOf l' ↔ l = l' := by
  have hne : ∀ x ∈ l, x ≠ [] := fun x hx => (hl x hx).1
  constructor
  · intro h
    have hspelled := foldl_enterPath hne (.inl (by rwa [h]))
    exact pathOf_inj hl hl' (hspelled.symm.trans h)
  · intro h
    subst h
    exact foldl_enterPath hne (.inr hlen)

/-! ## Places -/

/-- The names of the nodes with children. -/
def openNames (l : List Place) : List (List Byte) :=
  (l.filter fun o => !o.node.children.isEmpty).map fun o => o.node.name

theorem openNames_cons (o : Place) (l : List Place) :
    openNames (o :: l) = (if o.node.children.isEmpty then [] else [o.node.name]) ++ openNames l := by
  unfold openNames
  rw [List.filter_cons]
  cases o.node.children.isEmpty <;> rfl

theorem openNames_append (l l' : List Place) :
    openNames (l ++ l') = openNames l ++ openNames l' := by
  rw [openNames, List.filter_append, List.map_append]
  rfl

/-- What is spelled for a place: the names of all nodes with children in front of it, and its own. -/
theorem spelled_places {l : List Place} {pl : Place} {k : Nat} (h : l[k]? = some pl)
    (path : List Byte) :
    (spelled path (l.map Place.node))[k]? =
      some ((openNames (l.take k) ++ [pl.node.name]).foldl enterPath path) := by
  induction l generalizing path k with
  | nil => cases h
  | cons o l ih =>
      cases k with
      | zero =>
          cases h
          rfl
      | succ k =>
          rw [List.map_cons, List.take_succ_cons, openNames_cons]
          show (spelled (pathBehind path o.node) (l.map Place.node))[k]? = _
          rw [ih h, pathBehind]
          cases o.node.children.isEmpty <;> rfl

/-- Each node with children in front of a place is on the way to it. -/
def Place.Straight (before : List Place) (pl : Place) : Prop :=
  ∀ o ∈ before, o.node.children ≠ [] → o.names <+: pl.names

/-- A place below nodes with the given names, with the places in front of it there. The names of nodes
with children in front of it contain its own, and are no more than these just if it is straight ahead. -/
structure Traced (names : List (List Byte)) (before : List Place) (pl : Place) : Prop where
  names : ∃ r, pl.names = names ++ r ++ [pl.node.name] ∧ List.Sublist r (openNames before) ∧
    (r = openNames before ↔ pl.Straight before)
  fresh : ∀ o ∈ before, o.names ≠ pl.names
  before : pl.Straight before → ∀ a o b, before = a ++ o :: b → o.Straight a

namespace Traced

variable {names : List (List Byte)} {before : List Place} {pl o : Place}

theorem here (h : pl.names = names ++ [pl.node.name]) : Traced names [] pl where
  names := ⟨[], by rw [List.append_nil, h], List.Sublist.refl [],
    iff_of_true rfl fun o ho => absurd ho List.not_mem_nil⟩
  fresh := fun o ho => absurd ho List.not_mem_nil
  before := fun _ a o b h => absurd h (by simp)

/-- A place below the node `o`. -/
theorem below (h : Traced (names ++ [o.node.name]) before pl) (ho : o.names = names ++ [o.node.name])
    (hbefore : ∀ x ∈ before, o.names <+: x.names) (hopen : o.node.children ≠ []) :
    Traced names (o :: before) pl := by
  obtain ⟨r, hnames, hsub, hiff⟩ := h.names
  have hpl : o.names <+: pl.names := by
    rw [hnames, ho, List.append_assoc _ r]
    exact List.prefix_append _ _
  have hcons : openNames (o :: before) = o.node.name :: openNames before := by
    rw [openNames_cons, if_neg (by simpa using hopen), List.singleton_append]
  have hstraight : pl.Straight (o :: before) ↔ pl.Straight before :=
    ⟨fun h x hx => h x (List.mem_cons_of_mem o hx), fun h x hx hxo => by
      rcases List.mem_cons.mp hx with rfl | hx
      · exact hpl
      · exact h x hx hxo⟩
  refine ⟨⟨o.node.name :: r, ?_, ?_, ?_⟩, ?_, ?_⟩
  · rw [hnames]
    simp only [List.append_assoc, List.nil_append, List.cons_append]
  · rw [hcons]
    exact hsub.cons_cons _
  · rw [hcons, hstraight, ← hiff]
    exact ⟨fun heq => (List.cons.inj heq).2, fun heq => by rw [heq]⟩
  · intro x hx
    rcases List.mem_cons.mp hx with rfl | hx
    · rw [hnames, ho]
      intro heq
      simpa using congrArg List.length heq
    · exact h.fresh x hx
  · intro hall a x b heq
    cases a with
    | nil => exact fun y hy => absurd hy List.not_mem_nil
    | cons y a =>
        obtain ⟨rfl, hrest⟩ := List.cons.inj heq
        intro z hz hzo
        rcases List.mem_cons.mp hz with rfl | hz
        · exact hbefore x (hrest ▸ List.mem_append_right a List.mem_cons_self)
        · exact h.before (hstraight.mp hall) a x b hrest z hz hzo

/-- A place behind a node without children. -/
theorem behind (h : Traced names before pl) (hne : ¬ o.names <+: pl.names)
    (hleaf : o.node.children = []) : Traced names (o :: before) pl := by
  have hopen : openNames (o :: before) = openNames before := by
    rw [openNames_cons, hleaf]
    rfl
  have hskip : ∀ (a : List Place) (x : Place), x.Straight a → x.Straight (o :: a) := by
    intro a x hx y hy hyo
    rcases List.mem_cons.mp hy with rfl | hy
    · exact absurd hleaf hyo
    · exact hx y hy hyo
  have hstraight : pl.Straight (o :: before) ↔ pl.Straight before :=
    ⟨fun h x hx => h x (List.mem_cons_of_mem o hx), hskip before pl⟩
  refine ⟨?_, ?_, ?_⟩
  · rw [hopen, hstraight]
    exact h.names
  · intro x hx heq
    rcases List.mem_cons.mp hx with rfl | hx
    · exact hne (heq ▸ List.prefix_refl _)
    · exact h.fresh x hx heq
  · intro hall a x b heq
    cases a with
    | nil => exact fun y hy => absurd hy List.not_mem_nil
    | cons y a =>
        obtain ⟨rfl, hrest⟩ := List.cons.inj heq
        exact hskip a x (h.before (hstraight.mp hall) a x b hrest)

/-- A place behind a node with children and all that is below it. -/
theorem beside {l : List Place} (h : Traced names before pl) (hne : ∀ x ∈ l, ¬ x.names <+: pl.names)
    (ho : o ∈ l) (hopen : o.node.children ≠ []) : Traced names (l ++ before) pl := by
  obtain ⟨r, hnames, hsub, -⟩ := h.names
  have hnot : ¬ pl.Straight (l ++ before) :=
    fun hall => hne o ho (hall o (List.mem_append_left before ho) hopen)
  refine ⟨⟨r, hnames, ?_, iff_of_false ?_ hnot⟩, ?_, fun hall => absurd hall hnot⟩
  · rw [openNames_append]
    exact hsub.trans (List.sublist_append_right _ _)
  · -- the name of `o` is one too many
    intro heq
    have hmem : o.node.name ∈ openNames l :=
      List.mem_map_of_mem (List.mem_filter.mpr ⟨ho, by simpa using hopen⟩)
    have hpos := List.length_pos_of_mem hmem
    have hlen := hsub.length_le
    rw [heq, openNames_append, List.length_append] at hlen
    omega
  · intro x hx heq
    rcases List.mem_append.mp hx with hx | hx
    · exact hne x hx (heq ▸ List.prefix_refl _)
    · exact h.fresh x hx heq

end Traced

namespace Node

mutual

theorem prefix_placesFrom (names : List (List Byte)) (parent : Option Node) (n : Node) :
    ∀ pl ∈ n.placesFrom names parent, names <+: pl.names := by
  match n with
  | .mk name props children =>
      intro pl hpl
      rw [placesFrom] at hpl
      rcases List.mem_cons.mp hpl with rfl | hpl
      · exact List.prefix_refl names
      · obtain ⟨c, -, hc⟩ := prefix_placesAll names (.mk name props children) children pl hpl
        exact (List.prefix_append names [c.name]).trans hc

theorem prefix_placesAll (names : List (List Byte)) (parent : Node) (ns : List Node) :
    ∀ pl ∈ placesAll names parent ns, ∃ c ∈ ns, names ++ [c.name] <+: pl.names := by
  match ns with
  | [] => exact fun pl hpl => absurd hpl List.not_mem_nil
  | n :: ns =>
      intro pl hpl
      rw [placesAll] at hpl
      rcases List.mem_append.mp hpl with hpl | hpl
      · exact ⟨n, List.mem_cons_self, prefix_placesFrom _ _ n pl hpl⟩
      · obtain ⟨c, hc, hprefix⟩ := prefix_placesAll names parent ns pl hpl
        exact ⟨c, List.mem_cons_of_mem n hc, hprefix⟩

end

theorem placesFrom_of_leaf {names : List (List Byte)} {parent : Option Node} {n : Node}
    (h : n.children = []) : n.placesFrom names parent = [⟨names, parent, n⟩] := by
  cases n with
  | mk name props children =>
      cases h
      rfl

theorem mem_placesFrom_self (names : List (List Byte)) (parent : Option Node) (n : Node) :
    ⟨names, parent, n⟩ ∈ n.placesFrom names parent := by
  cases n
  rw [placesFrom]
  exact List.mem_cons_self

/-- The places below different children have different names. -/
theorem not_prefix_placesAll {names : List (List Byte)} {parent : Node} {ns : List Node} {pl : Place}
    (hpl : pl ∈ placesAll names parent ns) {name : List Byte} (hname : name ∉ ns.map Node.name) :
    ¬ names ++ [name] <+: pl.names := by
  intro hprefix
  obtain ⟨c, hc, hc'⟩ := prefix_placesAll names parent ns pl hpl
  have heq : names ++ [name] = names ++ [c.name] :=
    (List.prefix_of_prefix_length_le hprefix hc' (by simp)).eq_of_length (by simp)
  rw [List.append_cancel_left_eq, List.singleton_inj] at heq
  exact hname (heq ▸ List.mem_map_of_mem hc)

mutual

theorem traced_placesFrom (n : Node) (h : ∀ m ∈ n.nodes, m.Proper) {names : List (List Byte)}
    {parent : Option Node} {l l' : List Place} {pl : Place}
    (hsplit : n.placesFrom (names ++ [n.name]) parent = l ++ pl :: l') : Traced names l pl := by
  match n with
  | .mk name props children =>
      rw [placesFrom] at hsplit
      rw [nodes] at h
      cases l with
      | nil =>
          obtain ⟨rfl, -⟩ := List.cons.inj hsplit
          exact .here rfl
      | cons o l =>
          obtain ⟨rfl, hrest⟩ := List.cons.inj hsplit
          have hchildren : children ≠ [] := by
            intro hnil
            rw [hnil, placesAll] at hrest
            exact absurd hrest.symm (by simp)
          refine .below (traced_placesAll children (h _ List.mem_cons_self).childrenDistinct
            (fun m hm => h m (List.mem_cons_of_mem _ hm)) hrest) rfl ?_ hchildren
          intro x hx
          obtain ⟨c, -, hc⟩ := prefix_placesAll _ _ children x
            (by rw [hrest]; exact List.mem_append_left _ hx)
          exact (List.prefix_append _ [c.name]).trans hc

theorem traced_placesAll (ns : List Node) (hnodup : (ns.map Node.name).Nodup)
    (h : ∀ m ∈ nodesAll ns, m.Proper) {names : List (List Byte)} {parent : Node} {l l' : List Place}
    {pl : Place} (hsplit : placesAll names parent ns = l ++ pl :: l') : Traced names l pl := by
  match ns with
  | [] =>
      rw [placesAll] at hsplit
      exact absurd hsplit.symm (by simp)
  | n :: ns =>
      rw [placesAll] at hsplit
      rw [nodesAll] at h
      rw [List.map_cons, List.nodup_cons] at hnodup
      have hfirst : ∀ m ∈ n.nodes, m.Proper := fun m hm => h m (List.mem_append_left _ hm)
      -- a place in the part of a later child
      have hlater : ∀ c, l = n.placesFrom (names ++ [n.name]) (some parent) ++ c →
          placesAll names parent ns = c ++ pl :: l' → Traced names l pl := by
        intro c hl hc
        have hrest := traced_placesAll ns hnodup.2 (fun m hm => h m (List.mem_append_right _ hm)) hc
        have hpl : pl ∈ placesAll names parent ns := by
          rw [hc]
          exact List.mem_append_right c List.mem_cons_self
        have hne : ∀ x ∈ n.placesFrom (names ++ [n.name]) (some parent), ¬ x.names <+: pl.names :=
          fun x hx hprefix => not_prefix_placesAll hpl hnodup.1
            ((prefix_placesFrom _ _ n x hx).trans hprefix)
        rw [hl]
        by_cases hleaf : n.children = []
        · rw [placesFrom_of_leaf hleaf]
          rw [placesFrom_of_leaf hleaf] at hne
          exact hrest.behind (hne _ List.mem_cons_self) hleaf
        · exact hrest.beside hne (mem_placesFrom_self _ _ n) hleaf
      rcases List.append_eq_append_iff.mp hsplit with ⟨c, hl, hc⟩ | ⟨c, hl, hc⟩
      · exact hlater c hl hc
      · cases c with
        | nil => exact hlater [] (by rw [hl, List.append_nil, List.append_nil]) hc.symm
        | cons x c =>
            obtain ⟨rfl, -⟩ := List.cons.inj hc
            exact traced_placesFrom n hfirst hl

end

theorem places_eq_cons (root : Node) :
    root.places = ⟨[], none, root⟩ :: placesAll [] root root.children := by
  cases root
  rw [places, placesFrom]
  rfl

theorem map_places_tail (root : Node) :
    (placesAll [] root root.children).map Place.node = root.nodes.tail := by
  rw [← root.map_places, root.places_eq_cons]
  rfl

theorem eq_take_append {α : Type} {l : List α} {k : Nat} {x : α} (h : l[k]? = some x) :
    l = l.take k ++ x :: l.drop (k + 1) := by
  obtain ⟨hk, rfl⟩ := List.getElem?_eq_some_iff.mp h
  rw [List.getElem_cons_drop, List.take_append_drop]

/-! ## The path of a node -/

section

variable {root : Node} {pl : Place} {k : Nat} {names : List (List Byte)}

theorem WellFormed.traced (h : root.WellFormed) (hpl : (placesAll [] root root.children)[k]? = some pl) :
    Traced [] ((placesAll [] root root.children).take k) pl := by
  refine traced_placesAll root.children (h.proper root root.mem_nodes_self).childrenDistinct ?_
    (eq_take_append hpl)
  intro m hm
  refine h.proper m ?_
  cases root
  rw [nodes]
  exact List.mem_cons_of_mem _ hm

/-- The names of the nodes below the root can stand in a path. -/
theorem WellFormed.name_of_mem_places (h : root.WellFormed)
    (hpl : pl ∈ placesAll [] root root.children) : pl.node.name ≠ [] ∧ slash ∉ pl.node.name := by
  apply root.name_of_mem_nodes h.proper
  rw [← root.map_places_tail]
  exact List.mem_map_of_mem hpl

theorem WellFormed.openNames_take (h : root.WellFormed) (k : Nat) :
    ∀ x ∈ openNames ((placesAll [] root root.children).take k), x ≠ [] ∧ slash ∉ x := by
  intro x hx
  obtain ⟨o, ho, rfl⟩ := List.mem_map.mp hx
  exact h.name_of_mem_places (List.mem_of_mem_take (List.mem_filter.mp ho).1)

theorem WellFormed.names_of_mem_places (h : root.WellFormed)
    (hpl : (placesAll [] root root.children)[k]? = some pl) :
    ∀ x ∈ pl.names, x ≠ [] ∧ slash ∉ x := by
  obtain ⟨r, hnames, hsub, -⟩ := (h.traced hpl).names
  intro x hx
  rw [hnames, List.nil_append] at hx
  rcases List.mem_append.mp hx with hx | hx
  · exact h.openNames_take k x (hsub.subset hx)
  · rw [List.mem_singleton.mp hx]
    exact h.name_of_mem_places (List.mem_of_getElem? hpl)

/-- The root is spelled as the empty path. -/
theorem WellFormed.matches_root (h : root.WellFormed) (hnames : ∀ x ∈ names, x ≠ [] ∧ slash ∉ x) :
    Matches (slash :: pathOf names) [] root.nodes 0 ↔ names = [] ∧ root.regLike.isSome = true := by
  rw [root.nodes_eq_cons, matches_zero, h.name]
  refine and_congr_left fun _ => ⟨fun heq => ?_, fun heq => by rw [heq]; rfl⟩
  exact (pathOf_inj (fun x hx => absurd hx List.not_mem_nil) hnames (List.cons.inj heq).2).symm

/-- The other nodes are spelled with the nodes with children in front of them. -/
theorem WellFormed.matches_succ (h : root.WellFormed)
    (hpl : (placesAll [] root root.children)[k]? = some pl)
    (hnames : ∀ x ∈ names, x ≠ [] ∧ slash ∉ x) (hlen : (pathOf names).length < 254) :
    Matches (slash :: pathOf names) [] root.nodes (k + 1) ↔
      openNames ((placesAll [] root root.children).take k) ++ [pl.node.name] = names ∧
        pl.node.regLike.isSome = true := by
  have hbehind : pathBehind [] root = [] := by
    rw [pathBehind, h.name]
    exact ite_self _
  have hspelled := spelled_places hpl []
  have hnode : ((placesAll [] root root.children).map Place.node)[k]? = some pl.node := by
    rw [List.getElem?_map, hpl]
    rfl
  have hown : ∀ x ∈ openNames ((placesAll [] root root.children).take k) ++ [pl.node.name],
      x ≠ [] ∧ slash ∉ x := by
    intro x hx
    rcases List.mem_append.mp hx with hx | hx
    · exact h.openNames_take k x hx
    · rw [List.mem_singleton.mp hx]
      exact h.name_of_mem_places (List.mem_of_getElem? hpl)
  rw [root.nodes_eq_cons, Fdt.matches_succ, hbehind, ← root.map_places_tail]
  rw [← foldl_enterPath_eq_iff hown hnames hlen]
  constructor
  · rintro ⟨p, n, hp, hn, htarget, hreg⟩
    rw [hspelled, Option.some_inj] at hp
    rw [hnode, Option.some_inj] at hn
    exact ⟨hp.trans (List.cons.inj htarget).2, hn ▸ hreg⟩
  · rintro ⟨heq, hreg⟩
    exact ⟨_, _, hspelled, hnode, congrArg (slash :: ·) heq, hreg⟩

end

/-- Node `i` is the first one that is spelled like `target` and has a property whose name starts with
`reg`. -/
def SpelledFirst (root : Node) (target : List Byte) (i : Nat) : Prop :=
  Matches target [] root.nodes i ∧ ∀ j < i, ¬ Matches target [] root.nodes j

/-- A node is the first one that is spelled like its path just if it is straight ahead. -/
theorem WellFormed.spelledFirst_iff {root : Node} (h : root.WellFormed) {i : Nat} {pl : Place}
    (hpl : root.places[i]? = some pl) (hlen : (pathOf pl.names).length < 254)
    (hreg : pl.node.regLike.isSome = true) :
    root.SpelledFirst (slash :: pathOf pl.names) i ↔ pl.Straight (root.places.take i) := by
  rw [root.places_eq_cons] at hpl ⊢
  cases i with
  | zero =>
      cases hpl
      refine iff_of_true ⟨?_, fun j hj => absurd hj (Nat.not_lt_zero j)⟩
        fun o ho => absurd ho List.not_mem_nil
      exact (h.matches_root fun x hx => absurd hx List.not_mem_nil).mpr ⟨rfl, hreg⟩
  | succ k =>
      replace hpl : (placesAll [] root root.children)[k]? = some pl := hpl
      have htraced := h.traced hpl
      have hnames := h.names_of_mem_places hpl
      obtain ⟨r, heq, -, hiff⟩ := htraced.names
      rw [List.nil_append] at heq
      -- the root is on the way to every node
      have hroot : pl.Straight ((⟨[], none, root⟩ :: placesAll [] root root.children).take (k + 1)) ↔
          pl.Straight ((placesAll [] root root.children).take k) := by
        rw [List.take_succ_cons]
        refine ⟨fun hall o ho => hall o (List.mem_cons_of_mem _ ho), fun hall o ho hopen => ?_⟩
        rcases List.mem_cons.mp ho with rfl | ho
        · exact List.nil_prefix
        · exact hall o ho hopen
      rw [hroot, ← hiff]
      unfold SpelledFirst
      rw [h.matches_succ hpl hnames hlen]
      constructor
      · rintro ⟨⟨hown, -⟩, -⟩
        rw [heq] at hown
        exact (List.append_cancel_right hown).symm
      · intro hr
        refine ⟨⟨by rw [heq, hr], hreg⟩, ?_⟩
        intro j hj hmatch
        cases j with
        | zero =>
            obtain ⟨hnil, -⟩ := (h.matches_root hnames).mp hmatch
            rw [heq] at hnil
            exact absurd hnil (by simp)
        | succ j =>
            -- an earlier node that is spelled so is straight ahead too, and has this path
            obtain ⟨hk, -⟩ := List.getElem?_eq_some_iff.mp hpl
            obtain ⟨o, ho⟩ : ∃ o, (placesAll [] root root.children)[j]? = some o :=
              ⟨_, List.getElem?_eq_getElem (by omega)⟩
            have htake : ((placesAll [] root root.children).take k)[j]? = some o := by
              rw [List.getElem?_take, if_pos (by omega), ho]
            have hsplit := eq_take_append htake
            rw [List.take_take, Nat.min_eq_left (by omega)] at hsplit
            have hstraight := htraced.before (hiff.mp hr) _ o _ hsplit
            obtain ⟨r', heq', -, hiff'⟩ := (h.traced ho).names
            rw [hiff'.mpr hstraight, List.nil_append] at heq'
            obtain ⟨hown, -⟩ := (h.matches_succ ho hnames hlen).mp hmatch
            exact htraced.fresh o (List.mem_of_getElem? htake) (heq'.trans hown)

/-- A `reg` property with room for an address. -/
def HasReg (n : Node) : Prop := ∃ data ∈ n.prop? "reg", 4 ≤ data.length

/-- The first property whose name starts with `reg` has room for an address. -/
def Usable (n : Node) : Prop := ∃ q ∈ n.regLike, 4 ≤ q.data.length

/-- The node at a place is found. If it has a `reg`, the first property that starts so can be read, and
either the path that is resolved is the one `stdout-path` names and the node is straight ahead, or it is
another path, and the node is spelled like that one. If the node has no `reg`, no other node is taken
for it. -/
structure Reached (root : Node) (i : Nat) (pl : Place) : Prop where
  reg : pl.node.HasReg → pl.node.Usable ∧
    ((root.likelyPath? = root.stdoutPath? ∧ pl.Straight (root.places.take i)) ∨
      ∃ t ∈ root.likelyPath?, root.likelyPath? ≠ root.stdoutPath? ∧ root.SpelledFirst (t.take 255) i)
  noReg : ¬ pl.node.HasReg → ∀ t ∈ root.likelyPath?, ∀ j n, root.SpelledFirst (t.take 255) j →
    root.nodes[j]? = some n → n.Usable → j = i

end Node

theorem isSome_regValue_iff (data : List Byte) : (∃ base, regValue data = some base) ↔ 4 ≤ data.length := by
  unfold regValue
  by_cases h8 : 8 ≤ data.length
  · rw [if_pos h8]
    exact iff_of_true ⟨_, rfl⟩ (by omega)
  · rw [if_neg h8]
    by_cases h4 : 4 ≤ data.length
    · rw [if_pos h4]
      exact iff_of_true ⟨_, rfl⟩ h4
    · rw [if_neg h4]
      exact iff_of_false (fun ⟨base, hbase⟩ => by cases hbase) h4

/-- **The node a run uses** in a tree of at most 16 levels. -/
theorem StdoutRun.Follows.found_iff {run : StdoutRun} {root : Node} (hfollows : run.Follows root)
    (h : root.WellFormed) (hheight : root.height ≤ 16) (j : Nat) :
    (∃ base, run.found = some (j, base)) ↔
      ∃ t ∈ root.likelyPath?, root.SpelledFirst (t.take 255) j ∧
        ∃ n, root.nodes[j]? = some n ∧ n.Usable := by
  rw [hfollows.found, h.resolved_eq hheight]
  constructor
  · rintro ⟨base, hfound⟩
    obtain ⟨target, htarget, hlocated⟩ := Option.bind_eq_some_iff.mp hfound
    obtain ⟨t, ht, rfl⟩ := Option.map_eq_some_iff.mp htarget
    rw [h.located_eq] at hlocated
    obtain ⟨k, n, q, hk, hmatch, hfirst, hn, hq, hbase⟩ := exists_of_search hlocated
    rw [Nat.zero_add] at hk
    subst hk
    exact ⟨t, ht, ⟨hmatch, hfirst⟩, n, hn, q, hq, (isSome_regValue_iff q.data).mp ⟨base, hbase⟩⟩
  · rintro ⟨t, ht, hfirst, n, hn, q, hq, hlen⟩
    obtain ⟨base, hbase⟩ := (isSome_regValue_iff q.data).mpr hlen
    refine ⟨base, ?_⟩
    have hnode : ∀ m, root.nodes[j]? = some m → m.regLike = some q := by
      intro m hm
      rw [hn, Option.some_inj] at hm
      exact hm ▸ hq
    rw [ht, Option.map_some, Option.bind_some, h.located_eq,
      search_of_first hfirst.1 hfirst.2 hnode, hbase, Nat.zero_add]
    rfl

/-- The node that `stdout-path` names is used just as `Reached` says. -/
theorem StdoutRun.Follows.found_iff_reached {run : StdoutRun} {root : Node} (hfollows : run.Follows root)
    (h : root.WellFormed) (hheight : root.height ≤ 16) {target : List Byte}
    (hpath : root.stdoutPath? = some target) (hlen : target.length < 255) {i : Nat} {pl : Place}
    (hpl : root.places[i]? = some pl) (htarget : target = slash :: pathOf pl.names) :
    (∃ base, run.found = some (i, base)) ↔ pl.node.Usable ∧
      ((root.likelyPath? = root.stdoutPath? ∧ pl.Straight (root.places.take i)) ∨
        ∃ t ∈ root.likelyPath?, root.likelyPath? ≠ root.stdoutPath? ∧
          root.SpelledFirst (t.take 255) i) := by
  have hnode : root.nodes[i]? = some pl.node := by
    rw [← root.map_places, List.getElem?_map, hpl]
    rfl
  have hshort : (pathOf pl.names).length < 254 := by
    rw [htarget, List.length_cons] at hlen
    omega
  have husable : ∀ n, root.nodes[i]? = some n → n.Usable → pl.node.Usable := by
    intro n hn hn'
    rw [hnode, Option.some_inj] at hn
    rwa [hn]
  have hfirst : pl.node.Usable →
      (root.SpelledFirst (target.take 255) i ↔ pl.Straight (root.places.take i)) := by
    rintro ⟨q, hq, -⟩
    rw [List.take_of_length_le (by omega), htarget]
    exact h.spelledFirst_iff hpl hshort (Option.isSome_iff_exists.mpr ⟨q, hq⟩)
  rw [hfollows.found_iff h hheight]
  constructor
  · rintro ⟨t, ht, hspelled, n, hn, hn'⟩
    refine ⟨husable n hn hn', ?_⟩
    by_cases hsame : root.likelyPath? = root.stdoutPath?
    · have htt : t = target := Option.some_inj.mp (ht.symm.trans (hsame.trans hpath))
      rw [htt] at hspelled
      exact .inl ⟨hsame, (hfirst (husable n hn hn')).mp hspelled⟩
    · exact .inr ⟨t, ht, hsame, hspelled⟩
  · rintro ⟨hown, ⟨hsame, hstraight⟩ | ⟨t, ht, -, hspelled⟩⟩
    · exact ⟨target, hsame.trans hpath, (hfirst hown).mpr hstraight, _, hnode, hown⟩
    · exact ⟨t, ht, hspelled, _, hnode, hown⟩

/-- A run finds the node with number `i`: it uses it if the node has a `reg`, and it uses no other
one. -/
def StdoutRun.FindsNode (run : StdoutRun) (i : Nat) (n : Node) : Prop :=
  (n.HasReg → ∃ base, run.found = some (i, base)) ∧ ∀ j base, run.found = some (j, base) → j = i

end Fdt

open Fdt

/-- **The node of the UART.** Let `stdout-path` name the node at a place, by a path of fewer than 255
bytes, in a well-formed tree of at most 16 levels. Then `dtb_get_stdout_uart_base` comes to an end, and
finds the node just if it is `Reached`. -/
theorem stdout_node_iff {env : BootEnv} {ts : List (Option Token)} {root : Node}
    (h : env.Flattened ts root) (hheight : root.height ≤ 16) {target : List Byte}
    (hpath : root.stdoutPath? = some target) (hlen : target.length < 255) {i : Nat} {pl : Place}
    (hpl : root.places[i]? = some pl) (htarget : target = slash :: pathOf pl.names) :
    ∃ steps, ∀ fuel, steps ≤ fuel → ∀ frame, ∃ run,
      env.dtbGetStdoutUartBase frame fuel = some run ∧
        (run.FindsNode i pl.node ↔ root.Reached i pl) := by
  obtain ⟨steps, hrun⟩ := h.dtbGetStdoutUartBase_eq
  refine ⟨steps, fun fuel hfuel frame => ?_⟩
  obtain ⟨run, hsome, hfollows⟩ := hrun fuel hfuel frame
  refine ⟨run, hsome, ?_⟩
  have huses := hfollows.found_iff h.wellFormed hheight
  have hthis := hfollows.found_iff_reached h.wellFormed hheight hpath hlen hpl htarget
  by_cases hreg : pl.node.HasReg
  · constructor
    · intro hfinds
      exact ⟨fun _ => hthis.mp (hfinds.1 hreg), fun hnot => absurd hreg hnot⟩
    · intro hreached
      obtain ⟨base, hbase⟩ := hthis.mpr (hreached.reg hreg)
      refine ⟨fun _ => ⟨base, hbase⟩, fun j base' hother => ?_⟩
      rw [hbase] at hother
      cases hother
      rfl
  · constructor
    · intro hfinds
      refine ⟨fun hhas => absurd hhas hreg, fun _ t ht j n hfirst hn husable => ?_⟩
      obtain ⟨base, hbase⟩ := (huses j).mpr ⟨t, ht, hfirst, n, hn, husable⟩
      exact hfinds.2 j base hbase
    · intro hreached
      refine ⟨fun hhas => absurd hhas hreg, fun j base hbase => ?_⟩
      obtain ⟨t, ht, hfirst, n, hn, husable⟩ := (huses j).mp ⟨base, hbase⟩
      exact hreached.noReg hreg t ht j n hfirst hn husable

/-! ## A UART on a bus, and a UART behind a bus -/

/-- A UART at `0x09000000`, with two address cells and one size cell. -/
def uartNode : Node := .mk (bytesOf "uart") [⟨bytesOf "reg", [0, 0, 0, 0, 0x09, 0, 0, 0, 0, 0, 0x10, 0]⟩] []

/-- The path is given by an alias, and the UART is on a bus. -/
def uartOnBus : Node :=
  .mk [] [] [
    .mk (bytesOf "aliases") [⟨bytesOf "serial0", bytesOf "/soc/uart" ++ [0]⟩] [],
    .mk (bytesOf "chosen") [⟨bytesOf "stdout-path", bytesOf "serial0:115200" ++ [0]⟩] [],
    .mk (bytesOf "soc") [] [uartNode]]

/-- The UART comes behind a node with a child. -/
def uartBehindBus : Node :=
  .mk [] [] [
    .mk (bytesOf "chosen") [⟨bytesOf "stdout-path", bytesOf "/uart" ++ [0]⟩] [],
    .mk (bytesOf "soc") [] [.mk (bytesOf "rtc") [] []],
    uartNode]

theorem flattened_uartOnBus :
    (blobEnv (uartOnBus.tokens.map some)).Flattened (uartOnBus.tokens.map some) uartOnBus :=
  flattened_blobEnv rfl (by decide +kernel)

theorem flattened_uartBehindBus :
    (blobEnv (uartBehindBus.tokens.map some)).Flattened (uartBehindBus.tokens.map some) uartBehindBus :=
  flattened_blobEnv rfl (by decide +kernel)

theorem plainNames_uartOnBus : uartOnBus.PlainNames where
  chosen := by decide
  stdout := by decide
  aliases := fun _ => by decide
  count := fun _ => by decide

theorem stdout_node_on_bus :
    ∃ fuel run base, (blobEnv (uartOnBus.tokens.map some)).dtbGetStdoutUartBase
        ⟨fun _ => 0xff, fun _ => 0xff⟩ fuel = some run ∧ run.found = some (4, base) := by
  have hpath : uartOnBus.stdoutPath? = some (bytesOf "/soc/uart") := by decide
  have hpl : uartOnBus.places[4]? = some ⟨[bytesOf "soc", bytesOf "uart"],
    some (.mk (bytesOf "soc") [] [uartNode]), uartNode⟩ := rfl
  obtain ⟨steps, hrun⟩ := stdout_node_iff flattened_uartOnBus (by decide) hpath (by decide) hpl
    (by decide)
  obtain ⟨run, hsome, hiff⟩ := hrun steps (Nat.le_refl steps) ⟨fun _ => 0xff, fun _ => 0xff⟩
  have hreg : uartNode.HasReg := ⟨_, rfl, by decide⟩
  have hlikely := plainNames_uartOnBus.likelyPath?_eq flattened_uartOnBus.wellFormed hpath
  have hstraight : ∀ o ∈ uartOnBus.places.take 4, o.node.children ≠ [] →
      o.names <+: [bytesOf "soc", bytesOf "uart"] := by decide
  have hfinds := hiff.mpr
    ⟨fun _ => ⟨⟨_, rfl, by decide⟩, .inl ⟨hlikely.trans hpath.symm, hstraight⟩⟩,
      fun hnot => absurd hreg hnot⟩
  obtain ⟨base, hbase⟩ := hfinds.1 hreg
  exact ⟨steps, run, base, hsome, hbase⟩

/-- The name of the bus stays in the path, and the UART is not found. -/
theorem stdout_node_missed :
    (blobEnv (uartBehindBus.tokens.map some)).Flattened (uartBehindBus.tokens.map some) uartBehindBus ∧
      uartBehindBus.height ≤ 16 ∧ uartBehindBus.stdoutPath? = some (bytesOf "/uart") ∧
      uartBehindBus.places[4]? = some ⟨[bytesOf "uart"], some uartBehindBus, uartNode⟩ ∧
      uartNode.HasReg ∧
      ((blobEnv (uartBehindBus.tokens.map some)).dtbGetStdoutUartBase
        ⟨fun _ => 0xff, fun _ => 0xff⟩ 60).map StdoutRun.found = some none :=
  ⟨flattened_uartBehindBus, by decide, by decide, rfl, ⟨_, rfl, by decide⟩, by decide +kernel⟩

end Arcline
