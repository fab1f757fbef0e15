import Mathlib.Data.List.Nodup
import Mathlib.Logic.Function.Basic

set_option autoImplicit false

/-! # Linked lists in a pool

`Chain next h l` says that the list starting at the pointer `h` and running through the `next`
pointers has the nodes `l`, in this order, and ends.
-/

namespace Linked

variable {next next' : Nat → Option Nat}

def Chain (next : Nat → Option Nat) : Option Nat → List Nat → Prop
  | h, [] => h = none
  | h, x :: l => h = some x ∧ Chain next (next x) l

variable {h : Option Nat} {x y : Nat} {l : List Nat}

@[simp] theorem chain_nil : Chain next h [] ↔ h = none := Iff.rfl

/-- A chain reads the pointers of its nodes only. -/
theorem Chain.congr (hc : Chain next h l) (heq : ∀ x ∈ l, next' x = next x) : Chain next' h l := by
  induction l generalizing h with
  | nil => exact hc
  | cons x l ih =>
      obtain ⟨rfl, hc⟩ := hc
      refine ⟨rfl, ?_⟩
      rw [heq x (by simp)]
      exact ih hc fun y hy => heq y (by simp [hy])

theorem Chain.update {v : Option Nat} (hc : Chain next h l) (hx : x ∉ l) :
    Chain (Function.update next x v) h l :=
  hc.congr fun y hy => Function.update_of_ne (fun e : y = x => hx (e ▸ hy)) _ _

/-- Putting a node in front. -/
theorem Chain.push (hc : Chain next h l) (hx : x ∉ l) :
    Chain (Function.update next x h) (some x) (x :: l) :=
  ⟨rfl, by rw [Function.update_self]; exact hc.update hx⟩

/-- The first `n` nodes of the list that starts at a pointer. -/
def nodes (next : Nat → Option Nat) : Nat → Option Nat → List Nat
  | 0, _ => []
  | _ + 1, none => []
  | n + 1, some x => x :: nodes next n (next x)

theorem Chain.nodes_eq {n : Nat} (hc : Chain next h l) (hlen : l.length ≤ n) : nodes next n h = l := by
  induction l generalizing h n with
  | nil =>
      obtain rfl := hc
      cases n <;> rfl
  | cons x l ih =>
      obtain ⟨rfl, hc⟩ := hc
      cases n with
      | zero => exact absurd hlen (by simp)
      | succ n => rw [nodes, ih hc (by simpa using hlen)]

/-- Taking a node out: the pointer to it, which is the head of the list or the `next` pointer of the
node before it, is set to its successor. -/
theorem Chain.remove {p₁ p₂ : List Nat} (hc : Chain next h (p₁ ++ x :: p₂))
    (hnodup : (p₁ ++ x :: p₂).Nodup) :
    (p₁ = [] → Chain next (next x) p₂) ∧
      ∀ y, p₁.getLast? = some y → Chain (Function.update next y (next x)) h (p₁ ++ p₂) := by
  induction p₁ generalizing h with
  | nil => exact ⟨fun _ => hc.2, fun y hy => by simp at hy⟩
  | cons z p₁ ih =>
      obtain ⟨rfl, hc⟩ := hc
      refine ⟨fun hnil => by simp at hnil, fun y hy => ?_⟩
      rw [List.cons_append, List.nodup_cons] at hnodup
      cases hp : p₁ with
      | nil =>
          subst hp
          obtain rfl : z = y := by simpa using hy
          refine ⟨rfl, ?_⟩
          rw [Function.update_self]
          exact hc.2.update fun hz => hnodup.1 (by simp [hz])
      | cons w p₁' =>
          rw [hp, List.getLast?_cons_cons, ← hp] at hy
          have hzy : z ≠ y := by
            rintro rfl
            exact hnodup.1 (List.mem_append_left _ (List.mem_of_getLast? hy))
          refine ⟨rfl, ?_⟩
          rw [Function.update_of_ne hzy, ← hp]
          exact (ih hc hnodup.2).2 y hy

/-- The pointers determine the nodes. -/
theorem Chain.unique {l' : List Nat} (hc : Chain next h l) (hc' : Chain next h l') : l = l' := by
  induction l generalizing h l' with
  | nil =>
      obtain rfl := hc
      cases l' with
      | nil => rfl
      | cons y l' => exact absurd hc'.1 (Option.some_ne_none y).symm
  | cons x l ih =>
      obtain ⟨rfl, hc⟩ := hc
      cases l' with
      | nil => exact absurd hc' (Option.some_ne_none x)
      | cons y l' =>
          obtain ⟨hxy, hc'⟩ := hc'
          obtain rfl := Option.some.inj hxy
          rw [ih hc hc']

theorem Chain.tail {p₁ p₂ : List Nat} (hc : Chain next h (p₁ ++ x :: p₂)) : Chain next (next x) p₂ := by
  induction p₁ generalizing h with
  | nil => exact hc.2
  | cons z p₁ ih => exact ih hc.2

/-- A list that ends does not meet a node twice. -/
theorem Chain.nodup (hc : Chain next h l) : l.Nodup := by
  induction l generalizing h with
  | nil => exact List.nodup_nil
  | cons x l ih =>
      refine List.nodup_cons.mpr ⟨fun hx => ?_, ih hc.2⟩
      -- the list after the second meeting would be the list after the first one
      obtain ⟨p₁, p₂, rfl⟩ := List.append_of_mem hx
      have hlen := congrArg List.length (hc.2.unique hc.2.tail)
      simp only [List.length_append, List.length_cons] at hlen
      omega

/-- The walk from a pointer along the `next` pointers meets the node; it need not end. -/
inductive Meets (next : Nat → Option Nat) : Option Nat → Nat → Prop
  | here (x : Nat) : Meets next (some x) x
  | there {x y : Nat} : Meets next (next x) y → Meets next (some x) y

theorem meets_some : Meets next (some x) y ↔ y = x ∨ Meets next (next x) y := by
  constructor
  · intro h
    cases h with
    | here => exact .inl rfl
    | there h => exact .inr h
  · rintro (rfl | h)
    · exact .here y
    · exact .there h

theorem not_meets_none : ¬ Meets next none y := fun h => nomatch h

theorem Chain.meets_iff (hc : Chain next h l) : Meets next h y ↔ y ∈ l := by
  induction l generalizing h with
  | nil =>
      obtain rfl := hc
      exact iff_of_false not_meets_none List.not_mem_nil
  | cons x l ih =>
      obtain ⟨rfl, hc⟩ := hc
      rw [meets_some, ih hc, List.mem_cons]

/-! ## Doubly linked lists -/

/-- The list that starts at `h` has the nodes `l`, and each node points back at the one before it,
the first one at `p`. -/
def Doubly (next prev : Nat → Option Nat) : Option Nat → Option Nat → List Nat → Prop
  | _, h, [] => h = none
  | p, h, x :: l => h = some x ∧ prev x = p ∧ Doubly next prev (some x) (next x) l

variable {prev prev' : Nat → Option Nat} {p h h' : Option Nat} {l : List Nat} {x : Nat}

theorem Doubly.chain (hd : Doubly next prev p h l) : Chain next h l := by
  induction l generalizing p h with
  | nil => exact hd
  | cons x l ih => exact ⟨hd.1, ih hd.2.2⟩

/-- A doubly linked list reads the pointers of its nodes only. -/
theorem Doubly.congr (hd : Doubly next prev p h l) (hnext : ∀ y ∈ l, next' y = next y)
    (hprev : ∀ y ∈ l, prev' y = prev y) : Doubly next' prev' p h l := by
  induction l generalizing p h with
  | nil => exact hd
  | cons x l ih =>
      obtain ⟨rfl, hp, hd⟩ := hd
      refine ⟨rfl, (hprev x (by simp)).trans hp, ?_⟩
      rw [hnext x (by simp)]
      exact ih hd (fun y hy => hnext y (by simp [hy])) fun y hy => hprev y (by simp [hy])

/-- Putting a node in front. -/
theorem Doubly.push (hd : Doubly next prev none h l) (hl : l.Nodup) (hx : next' x = h)
    (hx' : prev' x = none) (hnext : ∀ y ∈ l, next' y = next y)
    (hprev : ∀ y ∈ l, prev' y = if h = some y then some x else prev y) :
    Doubly next' prev' none (some x) (x :: l) := by
  refine ⟨rfl, hx', ?_⟩
  rw [hx]
  cases l with
  | nil => exact hd
  | cons z l =>
      obtain ⟨rfl, -, hd⟩ := hd
      rw [List.nodup_cons] at hl
      refine ⟨rfl, ?_, ?_⟩
      · rw [hprev z (by simp), if_pos rfl]
      · rw [hnext z (by simp)]
        refine hd.congr (fun y hy => hnext y (by simp [hy])) fun y hy => ?_
        have hzy : some z ≠ some y := fun e => hl.1 (Option.some.inj e ▸ hy)
        rw [hprev y (by simp [hy]), if_neg hzy]

/-- The pointers around a node: those of the list before it start at `h`, its own lead to its
neighbours. -/
theorem Doubly.around {l₁ l₂ : List Nat} (hd : Doubly next prev p h (l₁ ++ x :: l₂)) :
    h = (l₁ ++ [x]).head? ∧ next x = l₂.head? ∧ prev x = l₁.getLast?.or p := by
  induction l₁ generalizing p h with
  | nil =>
      obtain ⟨rfl, rfl, hd⟩ := hd
      refine ⟨rfl, ?_, by simp⟩
      cases l₂ with
      | nil => exact hd
      | cons y l₂ => exact hd.1
  | cons z l₁ ih =>
      obtain ⟨rfl, -, hd⟩ := hd
      obtain ⟨-, hn, hp⟩ := ih hd
      refine ⟨rfl, hn, ?_⟩
      rw [hp, List.getLast?_cons]
      cases l₁.getLast? <;> rfl

/-- No node of a list without repetitions is its own predecessor. -/
theorem Doubly.prev_ne (hd : Doubly next prev none h l) (hl : l.Nodup) (hx : x ∈ l) :
    prev x ≠ some x := by
  obtain ⟨l₁, l₂, rfl⟩ := List.append_of_mem hx
  rw [hd.around.2.2, Option.or_none]
  intro hlast
  exact (List.nodup_append.mp hl).2.2 x (List.mem_of_getLast? hlast) x List.mem_cons_self rfl

/-- Taking a node out: its neighbours, or the head, are linked past it. -/
theorem Doubly.remove {l₁ l₂ : List Nat} (hd : Doubly next prev p h (l₁ ++ x :: l₂))
    (hl : (l₁ ++ x :: l₂).Nodup) (hp : ∀ y ∈ l₁ ++ x :: l₂, p ≠ some y)
    (hh : h' = if h = some x then next x else h)
    (hnext : ∀ y ∈ l₁ ++ l₂, next' y = if prev x = some y then next x else next y)
    (hprev : ∀ y ∈ l₁ ++ l₂, prev' y = if next x = some y then prev x else prev y) :
    Doubly next' prev' p h' (l₁ ++ l₂) := by
  induction l₁ generalizing p h h' with
  | nil =>
      obtain ⟨rfl, hpx, hd⟩ := hd
      obtain rfl : h' = next x := by rw [hh, if_pos rfl]
      rw [List.nil_append] at hp hl hnext hprev ⊢
      have hnext' : ∀ y ∈ l₂, next' y = next y := by
        intro y hy
        have hne : prev x ≠ some y := hpx ▸ hp y (List.mem_cons_of_mem x hy)
        rw [hnext y hy, if_neg hne]
      -- of what is left, only the first node is linked anew
      cases l₂ with
      | nil => exact hd
      | cons z l₂ =>
          obtain ⟨hxz, -, hd⟩ := hd
          refine ⟨hxz, ?_, ?_⟩
          · rw [hprev z (by simp), if_pos hxz, hpx]
          · rw [hnext' z (by simp)]
            refine hd.congr (fun y hy => hnext' y (by simp [hy])) fun y hy => ?_
            have hzy : next x ≠ some y := by
              rw [hxz]
              rintro e
              obtain rfl := Option.some.inj e
              simp [hy] at hl
            rw [hprev y (by simp [hy]), if_neg hzy]
  | cons z l₁ ih =>
      obtain ⟨rfl, hpz, hd⟩ := hd
      rw [List.cons_append, List.nodup_cons] at hl
      have hzx : z ≠ x := by
        rintro rfl
        exact hl.1 (by simp)
      obtain rfl : h' = some z := by rw [hh, if_neg (by simpa using hzx)]
      obtain ⟨hz, hnx, hpx⟩ := hd.around
      refine ⟨rfl, ?_, ?_⟩
      · have hxz : next x ≠ some z := by
          rw [hnx]
          intro e
          exact hl.1 (by simp [List.mem_of_mem_head? e])
        rw [hprev z (by simp), if_neg hxz, hpz]
      · refine ih hd hl.2 (fun y hy e => hl.1 (Option.some.inj e ▸ hy)) ?_
          (fun y hy => hnext y (by simp at hy ⊢; tauto))
          (fun y hy => hprev y (by simp at hy ⊢; tauto))
        rw [hnext z (by simp), hz, hpx]
        cases hl₁ : l₁ with
        | nil => simp
        | cons w l₁' =>
            have hwx : w ≠ x := by
              rintro rfl
              simp [hl₁] at hl
            have hlast : (w :: l₁').getLast? ≠ some z := by
              intro e
              refine hl.1 (List.mem_append_left _ ?_)
              rw [hl₁]
              exact List.mem_of_getLast? e
            rw [List.getLast?_cons] at hlast ⊢
            rw [Option.some_or, if_neg hlast, if_neg (by simpa using hwx)]

end Linked
