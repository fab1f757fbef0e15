import Mathlib.Data.Set.Basic

set_option autoImplicit false

/-! # Translation caches

Hardware walks tables at any moment and keeps what it found; the program rewrites the tables and
invalidates what the hardware may still hold. Here the tables are any state `σ` in which the entry of a
page can be found, and a program is a list of actions, each of which changes the state and invalidates
some pages, none for most. What is to be known of an action is the set of pages whose entries it
touches: then the pages a cache may be wrong about are those touched and not invalidated since.
-/

namespace Tlb

/-- What a cache holds: pages, each with an entry some walk has found for it. -/
abbrev Cache (π ε : Type*) := Set (π × ε)

/-- Tables that actions of type `α` rewrite. -/
structure Tables (σ α π ε : Type*) where
  find : σ → π → Option ε
  effect : σ → α → σ
  touches : α → Set π
  invalidates : α → Set π

variable {σ α π ε : Type*} {T : Tables σ α π ε}

/-- What the hardware may make of a cache while the entries are `τ`: it drops anything, and adds what
it finds. -/
def Walks (τ : π → Option ε) (c c' : Cache π ε) : Prop := ∀ x ∈ c', x ∈ c ∨ τ x.1 = some x.2

/-- The cache is wrong about pages of `S` at most. -/
def WrongOn (S : Set π) (τ : π → Option ε) (c : Cache π ε) : Prop :=
  ∀ x ∈ c, x.1 ∉ S → τ x.1 = some x.2

theorem wrongOn_empty (S : Set π) (τ : π → Option ε) : WrongOn S τ ∅ := fun _ hx => hx.elim

theorem WrongOn.walks {S : Set π} {τ : π → Option ε} {c c' : Cache π ε} (h : WrongOn S τ c)
    (hw : Walks τ c c') : WrongOn S τ c' := by
  intro x hx hnot
  rcases hw x hx with hold | hfound
  · exact h x hold hnot
  · exact hfound

namespace Tables

/-- An action leaves the entries of all pages but those it touches, in the states of `I`, which it
keeps. -/
def Framed (T : Tables σ α π ε) (I : σ → Prop) : Prop :=
  ∀ s a, I s → I (T.effect s a) ∧ ∀ p, p ∉ T.touches a → T.find (T.effect s a) p = T.find s p

/-- The pages a cache may be wrong about after an action, if before they are `S`. -/
def pending (T : Tables σ α π ε) (S : Set π) (a : α) : Set π :=
  {p | (p ∈ S ∨ p ∈ T.touches a) ∧ p ∉ T.invalidates a}

/-- Actions, with walks before each and after the last. -/
inductive Exec (T : Tables σ α π ε) : σ → Cache π ε → List α → σ → Cache π ε → Prop
  | done {s : σ} {c c' : Cache π ε} (hw : Walks (T.find s) c c') : Exec T s c [] s c'
  | act {s s' : σ} {c c₁ c' : Cache π ε} {a : α} {as : List α} (hw : Walks (T.find s) c c₁)
      (h : Exec T (T.effect s a) {x ∈ c₁ | x.1 ∉ T.invalidates a} as s' c') : Exec T s c (a :: as) s' c'

variable {s : σ} {c c' : Cache π ε} {as : List α} {S : Set π}

/-- The tables do not depend on the cache. -/
theorem Exec.state {s' : σ} (h : T.Exec s c as s' c') : s' = as.foldl T.effect s := by
  induction h with
  | done => rfl
  | act _ _ ih => exact ih

/-- The hardware may come to hold whatever the tables hold in the end. -/
theorem exec_of_walks (as : List α) (hw : Walks (T.find (as.foldl T.effect s)) ∅ c') (c : Cache π ε) :
    T.Exec s c as (as.foldl T.effect s) c' := by
  induction as generalizing s c with
  | nil => exact .done fun x hx => .inr ((hw x hx).resolve_left id)
  | cons a as ih =>
      have hnone : Walks (T.find s) c ∅ := fun _ hx => hx.elim
      exact .act hnone (ih hw _)

theorem wrongOn_act {I : σ → Prop} (hT : T.Framed I) (hs : I s) (h : WrongOn S (T.find s) c) (a : α) :
    WrongOn (T.pending S a) (T.find (T.effect s a)) {x ∈ c | x.1 ∉ T.invalidates a} := by
  rintro x ⟨hx, hkept⟩ hnot
  have hout : x.1 ∉ S ∧ x.1 ∉ T.touches a := by
    constructor
    · exact fun hS => hnot ⟨.inl hS, hkept⟩
    · exact fun ht => hnot ⟨.inr ht, hkept⟩
  calc T.find (T.effect s a) x.1 = T.find s x.1 := (hT s a hs).2 x.1 hout.2
    _ = some x.2 := h x hx hout.1

/-- **Shootdown.** After some actions, a cache is wrong at most about the pages that are pending. -/
theorem Exec.wrongOn {I : σ → Prop} (hT : T.Framed I) {s' : σ} (h : T.Exec s c as s' c') (hs : I s)
    (hc : WrongOn S (T.find s) c) : I s' ∧ WrongOn (as.foldl T.pending S) (T.find s') c' := by
  induction h generalizing S with
  | done hw => exact ⟨hs, hc.walks hw⟩
  | @act s _ _ _ _ a _ hw _ ih => exact ih (hT s a hs).1 (wrongOn_act hT hs (hc.walks hw) a)

/-- Nothing becomes pending that is not touched. -/
theorem foldl_pending_subset {R : Set π} (hS : S ⊆ R) (has : ∀ a ∈ as, T.touches a ⊆ R) :
    as.foldl T.pending S ⊆ R := by
  induction as generalizing S with
  | nil => exact hS
  | cons a as ih =>
      refine ih (fun p hp => ?_) fun b hb => has b (List.mem_cons_of_mem a hb)
      rcases hp.1 with hp | hp
      · exact hS hp
      · exact has a List.mem_cons_self hp

/-- Actions that touch nothing leave pending what none of them invalidates. -/
theorem mem_foldl_pending (has : ∀ a ∈ as, T.touches a = ∅) {p : π} (h : p ∈ as.foldl T.pending S) :
    p ∈ S ∧ ∀ a ∈ as, p ∉ T.invalidates a := by
  induction as generalizing S with
  | nil => exact ⟨h, fun _ ha => absurd ha List.not_mem_nil⟩
  | cons a as ih =>
      obtain ⟨⟨hp, hkept⟩, hrest⟩ := ih (fun b hb => has b (List.mem_cons_of_mem a hb)) h
      rw [has a List.mem_cons_self] at hp
      refine ⟨hp.resolve_right id, fun b hb => ?_⟩
      rcases List.mem_cons.mp hb with rfl | hb
      · exact hkept
      · exact hrest b hb

/-- Rewriting entries and then invalidating all the pages touched leaves nothing pending. -/
theorem foldl_pending_append {ws is : List α} (his : ∀ a ∈ is, T.touches a = ∅)
    (hcover : ∀ w ∈ ws, ∀ p ∈ T.touches w, ∃ a ∈ is, p ∈ T.invalidates a) :
    (ws ++ is).foldl T.pending ∅ = ∅ := by
  refine Set.eq_empty_of_forall_notMem fun p hp => ?_
  rw [List.foldl_append] at hp
  obtain ⟨hp, hkept⟩ := mem_foldl_pending his hp
  have htouched : ws.foldl T.pending ∅ ⊆ {p | ∃ w ∈ ws, p ∈ T.touches w} :=
    foldl_pending_subset (Set.empty_subset _) fun w hw p hp => ⟨w, hw, hp⟩
  obtain ⟨w, hw, hp⟩ := htouched hp
  obtain ⟨a, ha, hinv⟩ := hcover w hw p hp
  exact hkept a ha hinv

end Tables

end Tlb
