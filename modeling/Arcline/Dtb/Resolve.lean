import Arcline.Dtb.StdoutTokens

set_option autoImplicit false

/-! # What the first pass collects

In a tree of at most 16 levels the first pass keeps the depth right. It then collects from the children
of the root: the values of all properties starting with `stdout` of the children whose name starts with
`chosen`, the last one last, and the properties of the children whose name starts with `aliases`. Where
no other name starts so, that is the `stdout-path` of `/chosen` and the entries of `/aliases`.
-/

namespace Arcline

namespace Fdt

/-! ## The path a tree names -/

namespace Node

mutual

/-- The number of levels of a tree. -/
def height : Node → Nat
  | .mk _ _ children => heightAll children + 1

def heightAll : List Node → Nat
  | [] => 0
  | n :: ns => max n.height (heightAll ns)

end

def child? (n : Node) (name : String) : Option Node := n.children.find? fun c => c.name == bytesOf name

/-- The token of the `stdout-path` of `/chosen`. -/
def stdoutToken? (root : Node) : Option (List Byte) :=
  (root.child? "chosen").bind fun chosen => (chosen.prop? "stdout-path").map pathToken

/-- The path of an alias. -/
def alias? (root : Node) (token : List Byte) : Option (List Byte) :=
  (root.child? "aliases").bind fun aliases =>
    (aliases.props.find? fun q => q.name == token).map fun q => cString q.data

/-- The absolute path that `stdout-path` names, directly or through an alias. -/
def stdoutPath? (root : Node) : Option (List Byte) :=
  root.stdoutToken?.bind fun token =>
    if token.head? = some slash then some token else root.alias? token

/-- The path is given by an alias. -/
def ByAlias (root : Node) : Prop := ∃ token ∈ root.stdoutToken?, token.head? ≠ some slash

/-- No other child of the root starts like `chosen`, no other property of `/chosen` like `stdout`, and,
where the path is given by an alias, no other child like `aliases`, and there are at most 16 aliases. -/
structure PlainNames (root : Node) : Prop where
  chosen : ∀ c ∈ root.children, bytesOf "chosen" <+: c.name → c.name = bytesOf "chosen"
  stdout : ∀ c ∈ root.child? "chosen", ∀ q ∈ c.props,
    bytesOf "stdout" <+: q.name → q.name = bytesOf "stdout-path"
  aliases : root.ByAlias → ∀ c ∈ root.children, bytesOf "aliases" <+: c.name →
    c.name = bytesOf "aliases"
  count : root.ByAlias → ∀ c ∈ root.child? "aliases", c.props.length ≤ 16

end Node

/-! ## The pass over the tree -/

/-- What a property does in the first pass. -/
def collectProp (k : InNode) (t : Chosen) (q : Property) : Chosen :=
  if k.inChosen && (bytesOf "stdout").isPrefixOf q.name then
    { t with stdout := some (pathToken q.data) }
  else if k.inAliases && t.aliases.length < 16 then
    { t with aliases := t.aliases ++ [(q.name, cString q.data)] }
  else t

theorem collectTokens_props (k : InNode) (t : Chosen) (l : List Property) :
    collectTokens.props k t l = .ok (l.foldl (collectProp k) t) := by
  induction l generalizing t with
  | nil => rfl
  | cons q l ih => exact ih _

theorem collectTokens_props_of_not (t : Chosen) (l : List Property) :
    l.foldl (collectProp ⟨false, false⟩) t = t := by
  induction l with
  | nil => rfl
  | cons q l ih => exact ih

/-- The depth plays no part in what is collected. -/
theorem foldl_collectProp_depth (k : InNode) (t : Chosen) (d : Int) (l : List Property) :
    l.foldl (collectProp k) { t with depth := d } = { l.foldl (collectProp k) t with depth := d } := by
  induction l generalizing t with
  | nil => rfl
  | cons q l ih =>
      have hstep : collectProp k { t with depth := d } q = { collectProp k t q with depth := d } := by
        unfold collectProp
        dsimp only
        split
        · rfl
        · split <;> rfl
      rw [List.foldl_cons, List.foldl_cons, hstep, ih]

theorem depth_foldl_collectProp (k : InNode) (t : Chosen) (l : List Property) :
    (l.foldl (collectProp k) t).depth = t.depth := by
  have h := congrArg Chosen.depth (foldl_collectProp_depth k t t.depth l)
  exact h

/-- Entering a node that is not too deep. -/
theorem collectTokens_enter {t : Chosen} (hlt : t.depth < 16) (name : List Byte) :
    collectTokens.enter t name =
      ({ t with depth := t.depth + 1 },
        { inChosen := t.depth + 1 = 2 && (bytesOf "chosen").isPrefixOf name
          inAliases := t.depth + 1 = 2 && (bytesOf "aliases").isPrefixOf name }) := by
  simp only [collectTokens, if_pos hlt]

mutual

/-- Nothing is collected below the children of the root. -/
theorem visit_deep (n : Node) {t : Chosen} (hdeep : 2 ≤ t.depth) (hheight : t.depth + n.height ≤ 16) :
    collectTokens.visit t n = .ok t := by
  match n with
  | .mk name props children =>
      rw [Node.height] at hheight
      have hne : ¬ t.depth + 1 = 2 := by omega
      rw [TokenPass.visit, collectTokens_enter (by omega)]
      simp only [hne, decide_false, Bool.false_and, collectTokens_props, collectTokens_props_of_not]
      show (if children.isEmpty then _ else _) = _
      match children with
      | [] =>
          show Except.ok { t with depth := t.depth + 1 - 1 } = _
          rw [Int.add_sub_cancel]
      | c :: cs =>
          show (collectTokens.visitAll _ (c :: cs)).map collectTokens.up = _
          rw [visitAll_deep (c :: cs) (t := { t with depth := t.depth + 1 })
            (by show 2 ≤ t.depth + 1; omega)
            (by show t.depth + 1 + (Node.heightAll (c :: cs) : Int) ≤ 16; push_cast at hheight; omega)]
          show Except.ok (if 0 < t.depth + 1 then { t with depth := t.depth + 1 - 1 } else _) = _
          rw [if_pos (by omega), Int.add_sub_cancel]

theorem visitAll_deep (ns : List Node) {t : Chosen} (hdeep : 2 ≤ t.depth)
    (hheight : t.depth + Node.heightAll ns ≤ 16) : collectTokens.visitAll t ns = .ok t := by
  match ns with
  | [] => rfl
  | n :: ns =>
      rw [Node.heightAll] at hheight
      rw [TokenPass.visitAll, visit_deep n hdeep (by omega)]
      exact visitAll_deep ns hdeep (by omega)

end

/-- What is local to a child of the root. -/
def childFlags (c : Node) : InNode :=
  ⟨(bytesOf "chosen").isPrefixOf c.name, (bytesOf "aliases").isPrefixOf c.name⟩

/-- A child of the root: its properties are looked at if the name fits. -/
theorem visit_child (c : Node) {t : Chosen} (hdepth : t.depth = 1) (hheight : c.height ≤ 15) :
    collectTokens.visit t c = .ok (c.props.foldl (collectProp (childFlags c)) t) := by
  match c with
  | .mk name props children =>
      rw [Node.height] at hheight
      have hflags : collectTokens.enter t name =
          ({ t with depth := 2 }, childFlags (.mk name props children)) := by
        rw [collectTokens_enter (by omega), hdepth]
        rfl
      have hfold : ∀ d : Int, d = 1 →
          { props.foldl (collectProp (childFlags (.mk name props children))) t with depth := d } =
            props.foldl (collectProp (childFlags (.mk name props children))) t := by
        intro d hd
        have ht := depth_foldl_collectProp (childFlags (.mk name props children)) t props
        rw [hd, ← hdepth, ← ht]
      rw [TokenPass.visit, hflags, collectTokens_props, foldl_collectProp_depth]
      show (if children.isEmpty then _ else _) = _
      cases children with
      | nil => exact congrArg Except.ok (hfold 1 rfl)
      | cons child cs =>
          show (collectTokens.visitAll _ (child :: cs)).map collectTokens.up = _
          rw [visitAll_deep (child :: cs) (Int.le_refl 2) (by dsimp only; omega)]
          exact congrArg Except.ok (hfold 1 rfl)

theorem visitAll_children (ns : List Node) {t : Chosen} (hdepth : t.depth = 1)
    (hheight : Node.heightAll ns ≤ 15) :
    collectTokens.visitAll t ns =
      .ok (ns.foldl (fun t c => c.props.foldl (collectProp (childFlags c)) t) t) := by
  induction ns generalizing t with
  | nil => rfl
  | cons n ns ih =>
      rw [Node.heightAll] at hheight
      rw [TokenPass.visitAll, visit_child n hdepth (by omega), List.foldl_cons]
      exact ih ((depth_foldl_collectProp _ t n.props).trans hdepth) (by omega)

theorem depth_foldl_children (ns : List Node) (t : Chosen) :
    (ns.foldl (fun t c => c.props.foldl (collectProp (childFlags c)) t) t).depth = t.depth := by
  induction ns generalizing t with
  | nil => rfl
  | cons n ns ih => rw [List.foldl_cons, ih, depth_foldl_collectProp]

/-- **The first pass** in a tree of at most 16 levels. -/
theorem collectTokens_run {root : Node} (hheight : root.height ≤ 16) :
    collectTokens.run none ⟨0, none, []⟩ root.tokens =
      { root.children.foldl (fun t c => c.props.foldl (collectProp (childFlags c)) t)
          ⟨1, none, []⟩ with depth := 0 } := by
  rw [TokenPass.run_tokens]
  cases root with
  | mk name props children =>
      rw [Node.height] at hheight
      rw [TokenPass.visit, collectTokens_enter (show (0 : Int) < 16 by decide)]
      have hflags : ∀ b : Bool, (decide ((0 : Int) + 1 = 2) && b) = false := fun b => rfl
      simp only [hflags, collectTokens_props, collectTokens_props_of_not]
      show andThen (if children.isEmpty then _ else _) _ = _
      cases children with
      | nil => rfl
      | cons c cs =>
          show andThen ((collectTokens.visitAll ⟨1, none, []⟩ (c :: cs)).map collectTokens.up)
            collectTokens.stop = _
          rw [visitAll_children (c :: cs) rfl (by omega)]
          have hdepth := depth_foldl_children (c :: cs) ⟨1, none, []⟩
          show collectTokens.up _ = _
          generalize htotal : (c :: cs).foldl _ (⟨1, none, []⟩ : Chosen) = t at hdepth
          show (if 0 < t.depth then { t with depth := t.depth - 1 } else t) = _
          rw [if_pos (by rw [hdepth]; decide), hdepth, ← htotal]
          rfl

/-! ## The path that is resolved -/

/-- The properties of the nodes whose name starts with `s`. -/
def likeProps (s : String) (ns : List Node) : List Property :=
  (ns.filter fun c => (bytesOf s).isPrefixOf c.name).flatMap Node.props

theorem likeProps_cons (s : String) (n : Node) (ns : List Node) :
    likeProps s (n :: ns) =
      (if (bytesOf s).isPrefixOf n.name then n.props else []) ++ likeProps s ns := by
  unfold likeProps
  rw [List.filter_cons]
  cases (bytesOf s).isPrefixOf n.name <;> rfl

/-- The last property whose name starts with `stdout`. -/
def stdoutLike (l : List Property) : Option Property :=
  (l.filter fun q => (bytesOf "stdout").isPrefixOf q.name).getLast?

theorem stdoutLike_append (l l' : List Property) :
    stdoutLike (l ++ l') = (stdoutLike l').or (stdoutLike l) := by
  rw [stdoutLike, List.filter_append, List.getLast?_append]
  rfl

theorem stdoutLike_cons (q : Property) (l : List Property) :
    stdoutLike (q :: l) =
      (stdoutLike l).or (if (bytesOf "stdout").isPrefixOf q.name then some q else none) := by
  have hsingle : stdoutLike [q] = if (bytesOf "stdout").isPrefixOf q.name then some q else none := by
    rw [stdoutLike, List.filter_cons]
    cases (bytesOf "stdout").isPrefixOf q.name <;> rfl
  rw [← hsingle, ← stdoutLike_append, List.singleton_append]

/-- The path that is named if names are compared by their first bytes only. The last property that
starts with `stdout` counts, and the first 16 aliases. -/
def Node.likelyPath? (root : Node) : Option (List Byte) :=
  (stdoutLike (likeProps "chosen" root.children)).bind fun q =>
    if (pathToken q.data).head? = some slash then some (pathToken q.data)
    else (((likeProps "aliases" root.children).take 16).find? fun r => r.name == pathToken q.data).map
      fun r => cString r.data

def aliasOf (q : Property) : List Byte × List Byte := (q.name, cString q.data)

theorem foldl_collectProp_chosen (t : Chosen) (l : List Property) :
    l.foldl (collectProp ⟨true, false⟩) t =
      { t with stdout := ((stdoutLike l).map fun q => pathToken q.data).or t.stdout } := by
  induction l generalizing t with
  | nil => rfl
  | cons q l ih =>
      rw [List.foldl_cons, ih, collectProp, stdoutLike_cons, Bool.true_and, Bool.false_and]
      cases (bytesOf "stdout").isPrefixOf q.name <;> cases stdoutLike l <;> rfl

theorem foldl_collectProp_aliases {t : Chosen} (ht : t.aliases.length ≤ 16) (l : List Property) :
    l.foldl (collectProp ⟨false, true⟩) t =
      { t with aliases := (t.aliases ++ l.map aliasOf).take 16 } := by
  induction l generalizing t with
  | nil =>
      show t = _
      rw [List.map_nil, List.append_nil, List.take_of_length_le ht]
  | cons q l ih =>
      rw [List.foldl_cons, collectProp, Bool.false_and, if_neg Bool.false_ne_true, Bool.true_and,
        List.map_cons]
      by_cases hlt : t.aliases.length < 16
      · rw [if_pos (decide_eq_true hlt), ih]
        · rw [List.append_assoc, List.singleton_append]
          rfl
        · rw [List.length_append]
          exact hlt
      · rw [if_neg (by simpa using hlt), ih ht]
        -- the table is full
        have hfull : t.aliases.length = 16 := by omega
        rw [← hfull, List.take_left, List.take_left]

/-- No name starts both with `chosen` and with `aliases`. -/
theorem childFlags_cases (c : Node) :
    childFlags c = ⟨true, false⟩ ∨ childFlags c = ⟨false, true⟩ ∨ childFlags c = ⟨false, false⟩ := by
  unfold childFlags
  cases hchosen : (bytesOf "chosen").isPrefixOf c.name with
  | false => cases (bytesOf "aliases").isPrefixOf c.name <;> simp
  | true =>
      cases haliases : (bytesOf "aliases").isPrefixOf c.name with
      | false => simp
      | true =>
          rw [List.isPrefixOf_iff_prefix] at hchosen haliases
          rcases List.prefix_or_prefix_of_prefix hchosen haliases with h | h
          · exact absurd h (by decide)
          · exact absurd h (by decide)

theorem foldl_children (ns : List Node) {t : Chosen} (ht : t.aliases.length ≤ 16) :
    ns.foldl (fun t c => c.props.foldl (collectProp (childFlags c)) t) t =
      { t with
        stdout := ((stdoutLike (likeProps "chosen" ns)).map fun q => pathToken q.data).or t.stdout
        aliases := (t.aliases ++ (likeProps "aliases" ns).map aliasOf).take 16 } := by
  induction ns generalizing t with
  | nil =>
      show t = { t with aliases := (t.aliases ++ []).take 16 }
      rw [List.append_nil, List.take_of_length_le ht]
  | cons n ns ih =>
      rw [List.foldl_cons, likeProps_cons, likeProps_cons, stdoutLike_append, List.map_append]
      rcases childFlags_cases n with h | h | h
      · obtain ⟨hchosen, haliases⟩ := InNode.mk.inj h
        rw [h, foldl_collectProp_chosen, ih (by exact ht), hchosen, haliases, if_pos rfl,
          if_neg Bool.false_ne_true, Option.map_or, Option.or_assoc]
        rfl
      · obtain ⟨hchosen, haliases⟩ := InNode.mk.inj h
        rw [h, foldl_collectProp_aliases ht, ih (List.length_take_le _ _), hchosen, haliases, if_pos rfl,
          if_neg Bool.false_ne_true]
        have htake : ((t.aliases ++ n.props.map aliasOf).take 16 ++
            (likeProps "aliases" ns).map aliasOf).take 16 =
              (t.aliases ++ (n.props.map aliasOf ++ (likeProps "aliases" ns).map aliasOf)).take 16 := by
          rw [← List.append_assoc]
          generalize t.aliases ++ n.props.map aliasOf = l
          rw [List.take_append, List.take_append, List.take_take, Nat.min_self, List.length_take]
          congr 2
          omega
        rw [htake]
        show _ = { t with
          stdout := (((stdoutLike (likeProps "chosen" ns)).or none).map _).or t.stdout
          aliases := _ }
        rw [Option.or_none]
      · obtain ⟨hchosen, haliases⟩ := InNode.mk.inj h
        rw [h, collectTokens_props_of_not, ih ht, hchosen, haliases, if_neg Bool.false_ne_true]
        show _ = { t with
          stdout := (((stdoutLike (likeProps "chosen" ns)).or none).map _).or t.stdout
          aliases := _ }
        rw [Option.or_none]
        rfl

namespace Node

theorem mem_nodesAll_of_mem {c : Node} {ns : List Node} (h : c ∈ ns) : c ∈ nodesAll ns := by
  induction ns with
  | nil => cases h
  | cons n ns ih =>
      rw [nodesAll]
      rcases List.mem_cons.mp h with rfl | h
      · exact List.mem_append_left _ (mem_nodes_self c)
      · exact List.mem_append_right _ (ih h)

theorem mem_nodes_of_mem_children {c n : Node} (h : c ∈ n.children) : c ∈ n.nodes := by
  cases n with
  | mk name props children =>
      rw [nodes]
      exact List.mem_cons_of_mem _ (mem_nodesAll_of_mem h)

/-- **What is resolved** in a tree of at most 16 levels. -/
theorem WellFormed.resolved_eq {root : Node} (h : root.WellFormed) (hheight : root.height ≤ 16) :
    root.resolved = root.likelyPath?.map (List.take 255) := by
  have htable : ∀ r ∈ (likeProps "aliases" root.children).take 16, r.name ≠ [] := by
    intro r hr
    obtain ⟨c, hc, hrc⟩ := List.mem_flatMap.mp (List.mem_of_mem_take hr)
    exact (h.proper c (mem_nodes_of_mem_children (List.mem_filter.mp hc).1)).propNames r hrc
  unfold resolved likelyPath?
  rw [collectTokens_run hheight,
    foldl_children root.children (t := ⟨1, none, []⟩) (by exact Nat.zero_le 16)]
  unfold Chosen.resolve
  cases stdoutLike (likeProps "chosen" root.children) with
  | none => rfl
  | some q =>
      show (if pathToken q.data = [] then none else if _ then _ else
        ((((likeProps "aliases" root.children).map aliasOf).take 16).find? _).map _) =
          Option.map _ (if _ then _ else _)
      rw [← List.map_take, List.find?_map, Option.map_map]
      by_cases hnil : pathToken q.data = []
      · -- no alias has an empty name
        rw [if_pos hnil, hnil, List.find?_eq_none.mpr]
        · rfl
        · intro r hr
          simpa using htable r hr
      · rw [if_neg hnil]
        split
        · rfl
        · rw [Option.map_map]
          rfl

/-- A filter for one of several distinct keys. -/
theorem filter_eq_singleton {α β : Type} {f : α → β} {p : α → Bool} {l : List α} {x : α}
    (hnodup : (l.map f).Nodup) (hx : x ∈ l) (hp : ∀ y ∈ l, p y = true ↔ f y = f x) :
    l.filter p = [x] := by
  induction l with
  | nil => cases hx
  | cons y l ih =>
      rw [List.map_cons, List.nodup_cons] at hnodup
      have hkeys : ∀ z ∈ l, f z ≠ f y := fun z hz heq => hnodup.1 (heq ▸ List.mem_map_of_mem hz)
      rw [List.filter_cons]
      rcases List.mem_cons.mp hx with rfl | hx
      · rw [if_pos ((hp x List.mem_cons_self).mpr rfl), List.filter_eq_nil_iff.mpr]
        intro z hz hpz
        exact hkeys z hz ((hp z (List.mem_cons_of_mem x hz)).mp hpz)
      · rw [if_neg fun hpy => hkeys x hx ((hp y List.mem_cons_self).mp hpy).symm]
        exact ih hnodup.2 hx fun z hz => hp z (List.mem_cons_of_mem y hz)

theorem child?_eq_some {n c : Node} {name : String} (h : n.child? name = some c) :
    c ∈ n.children ∧ c.name = bytesOf name :=
  ⟨List.mem_of_find?_eq_some h, by simpa using List.find?_some h⟩

/-- Where no other child starts with the name of a child, its properties are found. -/
theorem likeProps_eq {root c : Node} (h : root.Proper) {name : String} (hc : root.child? name = some c)
    (hplain : ∀ c ∈ root.children, bytesOf name <+: c.name → c.name = bytesOf name) :
    likeProps name root.children = c.props := by
  obtain ⟨hmem, hname⟩ := child?_eq_some hc
  unfold likeProps
  rw [filter_eq_singleton (x := c) h.childrenDistinct hmem]
  · exact List.append_nil _
  · intro d hd
    rw [List.isPrefixOf_iff_prefix, hname]
    exact ⟨hplain d hd, fun heq => heq ▸ List.prefix_refl _⟩

/-- With plain names the path that is resolved is the one `stdout-path` names. -/
theorem PlainNames.likelyPath?_eq {root : Node} (hplain : root.PlainNames) (h : root.WellFormed)
    {target : List Byte} (hpath : root.stdoutPath? = some target) : root.likelyPath? = some target := by
  have hroot := h.proper root root.mem_nodes_self
  obtain ⟨token, htoken, hresolve⟩ := Option.bind_eq_some_iff.mp hpath
  obtain ⟨chosen, hchosen, hvalue⟩ := Option.bind_eq_some_iff.mp htoken
  obtain ⟨data, hdata, rfl⟩ := Option.map_eq_some_iff.mp hvalue
  have hproper := h.proper chosen (mem_nodes_of_mem_children (child?_eq_some hchosen).1)
  have hstdout : stdoutLike (likeProps "chosen" root.children) =
      some ⟨bytesOf "stdout-path", data⟩ := by
    unfold stdoutLike
    rw [likeProps_eq hroot hchosen hplain.chosen,
      filter_eq_singleton hproper.propsDistinct (prop?_eq_some hdata)]
    · rfl
    · intro q hq
      rw [List.isPrefixOf_iff_prefix]
      refine ⟨hplain.stdout chosen hchosen q hq, fun heq => ?_⟩
      rw [heq]
      exact (by decide : bytesOf "stdout" <+: bytesOf "stdout-path")
  unfold likelyPath?
  rw [hstdout, Option.bind_some]
  split at hresolve
  · rename_i hslash
    rw [if_pos hslash]
    exact hresolve
  · rename_i hslash
    rw [if_neg hslash]
    have halias : root.ByAlias := ⟨_, htoken, hslash⟩
    obtain ⟨table, htable, hfind⟩ := Option.bind_eq_some_iff.mp hresolve
    rw [likeProps_eq hroot htable (hplain.aliases halias),
      List.take_of_length_le (hplain.count halias table htable)]
    exact hfind

end Node

end Fdt

end Arcline
