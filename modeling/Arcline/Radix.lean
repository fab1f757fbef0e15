import Mathlib.Tactic.Common
import Mathlib.Data.List.Induction
import Mathlib.Data.Set.Insert

set_option autoImplicit false

/-! # Tables of tables

A directory of tables: `next t i` is the table that entry `i` of the table `t` points to. A walk
follows a path of entries from a root. Where walks of bounded length never meet, entering a fresh
table at one place changes the walk to that place only.
-/

namespace Radix

variable {T I : Type*}

/-- The table reached from `t` along a path. -/
def walk (next : T → I → Option T) : T → List I → Option T
  | t, [] => some t
  | t, i :: path => (next t i).bind fun t' => walk next t' path

variable {next next' : T → I → Option T} {roots : Set T} {depth : Nat}

@[simp] theorem walk_nil (t : T) : walk next t [] = some t := rfl

@[simp] theorem walk_cons (t : T) (i : I) (path : List I) :
    walk next t (i :: path) = (next t i).bind fun t' => walk next t' path := rfl

theorem walk_append (t : T) (p q : List I) :
    walk next t (p ++ q) = (walk next t p).bind fun t' => walk next t' q := by
  induction p generalizing t with
  | nil => rfl
  | cons j p ih =>
      rw [List.cons_append, walk_cons, walk_cons, Option.bind_assoc]
      exact congrArg _ (funext ih)

theorem walk_concat (t : T) (path : List I) (i : I) :
    walk next t (path ++ [i]) = (walk next t path).bind fun t' => next t' i := by
  simp [walk_append]

/-- `t` is reached from a root in at most `n` steps. -/
def Reached (next : T → I → Option T) (roots : Set T) (n : Nat) (t : T) : Prop :=
  ∃ r ∈ roots, ∃ path : List I, path.length ≤ n ∧ walk next r path = some t

/-- `t` is reached from a root in fewer than `n` steps. -/
def Inner (next : T → I → Option T) (roots : Set T) (n : Nat) (t : T) : Prop :=
  ∃ r ∈ roots, ∃ path : List I, path.length < n ∧ walk next r path = some t

/-- Two walks of at most `depth` steps never end in one table. -/
def Forest (next : T → I → Option T) (roots : Set T) (depth : Nat) : Prop :=
  ∀ r ∈ roots, ∀ r' ∈ roots, ∀ (p p' : List I) (t : T), p.length ≤ depth → p'.length ≤ depth →
    walk next r p = some t → walk next r' p' = some t → r = r' ∧ p = p'

theorem Inner.reached {t : T} (h : Inner next roots depth t) : Reached next roots depth t := by
  obtain ⟨r, hr, p, hp, hw⟩ := h
  exact ⟨r, hr, p, Nat.le_of_lt hp, hw⟩

theorem reached_root {r : T} (hr : r ∈ roots) : Reached next roots depth r :=
  ⟨r, hr, [], Nat.zero_le _, rfl⟩

theorem Forest.mono {roots' : Set T} (h : Forest next roots depth) (hsub : roots' ⊆ roots) :
    Forest next roots' depth :=
  fun r hr r' hr' => h r (hsub hr) r' (hsub hr')

theorem forest_empty : Forest next ∅ depth := by
  intro r hr
  exact absurd hr (Set.notMem_empty r)

/-- A walk from a table without entries stays there. -/
theorem walk_of_empty {t : T} (h : ∀ i, next t i = none) {p : List I} {t' : T}
    (hw : walk next t p = some t') : p = [] ∧ t' = t := by
  cases p with
  | nil => exact ⟨rfl, (Option.some.inj hw).symm⟩
  | cons i p => simp [h i] at hw

/-! ## Tables that no walk reads -/

section Same

variable (h : ∀ t, Inner next roots depth t → ∀ i, next' t i = next t i)

include h

/-- Walks depend only on the tables they go through. -/
theorem walk_congr {r : T} (hr : r ∈ roots) {p : List I} (hp : p.length ≤ depth) :
    walk next' r p = walk next r p := by
  induction p using List.reverseRecOn with
  | nil => rfl
  | append_singleton p i ih =>
      rw [List.length_append, List.length_singleton] at hp
      rw [walk_concat, walk_concat, ih (by omega)]
      cases hw : walk next r p with
      | none => rfl
      | some t => exact h t ⟨r, hr, p, by omega, hw⟩ i

theorem reached_congr (t : T) :
    Reached next' roots depth t ↔ Reached next roots depth t := by
  constructor
  · rintro ⟨r, hr, p, hp, hw⟩
    exact ⟨r, hr, p, hp, walk_congr h hr hp ▸ hw⟩
  · rintro ⟨r, hr, p, hp, hw⟩
    exact ⟨r, hr, p, hp, (walk_congr h hr hp).trans hw⟩

theorem Forest.congr (hf : Forest next roots depth) : Forest next' roots depth := by
  intro r hr r' hr' p p' t hp hp' hw hw'
  rw [walk_congr h hr hp] at hw
  rw [walk_congr h hr' hp'] at hw'
  exact hf r hr r' hr' p p' t hp hp' hw hw'

/-! ## A fresh root -/

theorem reached_insert {t₁ : T} (hempty : ∀ i, next' t₁ i = none) (t : T) :
    Reached next' (insert t₁ roots) depth t ↔ Reached next roots depth t ∨ t = t₁ := by
  constructor
  · rintro ⟨r, hr, p, hp, hw⟩
    rcases Set.mem_insert_iff.mp hr with rfl | hr
    · exact .inr (walk_of_empty hempty hw).2
    · exact .inl ⟨r, hr, p, hp, walk_congr h hr hp ▸ hw⟩
  · rintro (⟨r, hr, p, hp, hw⟩ | rfl)
    · exact ⟨r, Set.mem_insert_of_mem _ hr, p, hp, (walk_congr h hr hp).trans hw⟩
    · exact reached_root (Set.mem_insert _ _)

theorem Forest.insert {t₁ : T} (hf : Forest next roots depth)
    (hempty : ∀ i, next' t₁ i = none) (hfresh : ¬ Reached next roots depth t₁) :
    Forest next' (insert t₁ roots) depth := by
  -- a walk from an old root never ends in the new one
  have hold : ∀ r ∈ roots, ∀ p : List I, p.length ≤ depth → walk next' r p ≠ some t₁ := by
    intro r hr p hp hw
    exact hfresh ⟨r, hr, p, hp, walk_congr h hr hp ▸ hw⟩
  intro r hr r' hr' p p' t hp hp' hw hw'
  rcases Set.mem_insert_iff.mp hr with rfl | hr <;> rcases Set.mem_insert_iff.mp hr' with rfl | hr'
  · exact ⟨rfl, (walk_of_empty hempty hw).1.trans (walk_of_empty hempty hw').1.symm⟩
  · rw [(walk_of_empty hempty hw).2] at hw'
    exact absurd hw' (hold r' ‹_› p' hp')
  · rw [(walk_of_empty hempty hw').2] at hw
    exact absurd hw (hold r ‹_› p hp)
  · exact hf.congr h r hr r' hr' p p' t hp hp' hw hw'

end Same

/-! ## A fresh table below another -/

/-- `next'` is `next` with the table `t₁`, which has no entries, at entry `i₀` of the table `t₀`,
which the path `p₀` leads to from `r₀`. -/
structure Links (next next' : T → I → Option T) (roots : Set T) (depth : Nat) (r₀ : T)
    (p₀ : List I) (t₀ : T) (i₀ : I) (t₁ : T) : Prop where
  root : r₀ ∈ roots
  at_path : walk next r₀ p₀ = some t₀
  inner : p₀.length < depth
  free : next t₀ i₀ = none
  linked : next' t₀ i₀ = some t₁
  empty : ∀ i, next' t₁ i = none
  same : ∀ t, Inner next roots depth t → ∀ i, ¬ (t = t₀ ∧ i = i₀) → next' t i = next t i
  fresh : ¬ Reached next roots depth t₁

variable {r₀ t₀ t₁ : T} {p₀ : List I} {i₀ : I}

theorem Links.mono {roots' : Set T} (h : Links next next' roots depth r₀ p₀ t₀ i₀ t₁)
    (hsub : roots' ⊆ roots) (hr : r₀ ∈ roots') : Links next next' roots' depth r₀ p₀ t₀ i₀ t₁ where
  root := hr
  at_path := h.at_path
  inner := h.inner
  free := h.free
  linked := h.linked
  empty := h.empty
  same := fun t ⟨r, hr, hp⟩ => h.same t ⟨r, hsub hr, hp⟩
  fresh := fun ⟨r, hr, hp⟩ => h.fresh ⟨r, hsub hr, hp⟩

section Linked

variable (h : Links next next' roots depth r₀ p₀ t₀ i₀ t₁)

include h

/-- The place of the new table was empty. -/
theorem Links.walk_none : walk next r₀ (p₀ ++ [i₀]) = none := by
  rw [walk_concat, h.at_path, Option.bind_some, h.free]

variable (hf : Forest next roots depth)

include hf

/-- The new table is found at its place, and nothing else has changed. -/
theorem Links.walk_eq {r : T} (hr : r ∈ roots) {p : List I} (hp : p.length ≤ depth) :
    (r = r₀ ∧ p = p₀ ++ [i₀] → walk next' r p = some t₁) ∧
      (¬ (r = r₀ ∧ p = p₀ ++ [i₀]) → walk next' r p = walk next r p) := by
  induction p using List.reverseRecOn with
  | nil => exact ⟨fun ⟨_, hnil⟩ => by simp at hnil, fun _ => rfl⟩
  | append_singleton p i ih =>
      rw [List.length_append, List.length_singleton] at hp
      obtain ⟨ihnew, ihold⟩ := ih (by omega)
      rw [walk_concat, walk_concat]
      by_cases hplace : r = r₀ ∧ p = p₀ ++ [i₀]
      · -- the path goes on below the new table
        refine ⟨fun ⟨_, heq⟩ => ?_, fun _ => ?_⟩
        · rw [hplace.2] at heq
          have := congrArg List.length heq
          simp at this
        · rw [ihnew hplace, Option.bind_some, h.empty i, hplace.1, hplace.2, walk_concat, h.at_path,
            Option.bind_some, h.free, Option.bind_none]
      · rw [ihold hplace]
        constructor
        · rintro ⟨rfl, heq⟩
          obtain ⟨rfl, hi⟩ := List.append_inj' heq rfl
          rw [h.at_path, Option.bind_some, List.singleton_inj.mp hi, h.linked]
        · intro hne
          cases hw : walk next r p with
          | none => rfl
          | some t =>
              refine h.same t ⟨r, hr, p, by omega, hw⟩ i ?_
              rintro ⟨rfl, rfl⟩
              obtain ⟨hr', hp'⟩ := hf r hr r₀ h.root p p₀ t (by omega) (Nat.le_of_lt h.inner) hw h.at_path
              exact hne ⟨hr', by rw [hp']⟩

theorem Links.walk_new : walk next' r₀ (p₀ ++ [i₀]) = some t₁ :=
  (h.walk_eq hf h.root (by rw [List.length_append]; exact h.inner)).1 ⟨rfl, rfl⟩

theorem Links.walk_old {r : T} (hr : r ∈ roots) {p : List I} (hp : p.length ≤ depth)
    (hne : ¬ (r = r₀ ∧ p = p₀ ++ [i₀])) : walk next' r p = walk next r p :=
  (h.walk_eq hf hr hp).2 hne

theorem Links.reached (t : T) :
    Reached next' roots depth t ↔ Reached next roots depth t ∨ t = t₁ := by
  constructor
  · rintro ⟨r, hr, p, hp, hw⟩
    by_cases hplace : r = r₀ ∧ p = p₀ ++ [i₀]
    · rw [(h.walk_eq hf hr hp).1 hplace] at hw
      exact .inr (Option.some.inj hw).symm
    · exact .inl ⟨r, hr, p, hp, h.walk_old hf hr hp hplace ▸ hw⟩
  · rintro (⟨r, hr, p, hp, hw⟩ | rfl)
    · refine ⟨r, hr, p, hp, (h.walk_old hf hr hp ?_).trans hw⟩
      rintro ⟨rfl, rfl⟩
      rw [h.walk_none] at hw
      exact absurd hw (by simp)
    · exact ⟨r₀, h.root, _, by rw [List.length_append]; exact h.inner, h.walk_new hf⟩

theorem Links.forest : Forest next' roots depth := by
  -- a walk to the new table is the walk to its place
  have hnew : ∀ r ∈ roots, ∀ p : List I, p.length ≤ depth → walk next' r p = some t₁ →
      r = r₀ ∧ p = p₀ ++ [i₀] := by
    intro r hr p hp hw
    by_contra hne
    exact h.fresh ⟨r, hr, p, hp, h.walk_old hf hr hp hne ▸ hw⟩
  intro r hr r' hr' p p' t hp hp' hw hw'
  by_cases ht : t = t₁
  · subst ht
    obtain ⟨rfl, rfl⟩ := hnew r hr p hp hw
    obtain ⟨rfl, rfl⟩ := hnew r' hr' p' hp' hw'
    exact ⟨rfl, rfl⟩
  · have hold : ∀ r ∈ roots, ∀ p : List I, p.length ≤ depth → walk next' r p = some t →
        walk next r p = some t := by
      intro r hr p hp hw
      rw [← h.walk_old hf hr hp]
      · exact hw
      · rintro ⟨rfl, rfl⟩
        rw [h.walk_new hf] at hw
        exact ht (Option.some.inj hw).symm
    exact hf r hr r' hr' p p' t hp hp' (hold r hr p hp hw) (hold r' hr' p' hp' hw')

end Linked

end Radix
