import Arcline.Exclusive
import Arcline.Run

set_option autoImplicit false

/-! # Spin locks

`spinlock_lock` is a loop of four instructions, two of them exclusive accesses to the lock, and
`spinlock_unlock` a store-release. Threads call functions that take a lock, run a section, and release
the lock; between any two instructions any other thread may go on, on the same processor or on another
one, and a thread may lose its monitor at any time. Acquire and release keep the accesses of a section
between the two ends of the lock, so that memory has one order here.
-/

namespace Arcline

open Exclusive

variable {ι ω σ ρ : Type*}

/-- Where a thread is: outside, at an instruction of `spinlock_lock`, in the section it has taken the
lock for, or at the `stlr` of `spinlock_unlock`. `tmp` is the register of `spinlock_lock`, and `o` the
call the thread is in. -/
inductive SpinPlace (ω σ ρ : Type*)
  | out
  | ldaxr (o : ω)
  | testWord (o : ω) (tmp : BitVec 32)
  | stxr (o : ω)
  | testStatus (o : ω) (tmp : BitVec 32)
  | inside (o : ω) (rest : Prog σ ρ)
  | stlr (o : ω) (r : ρ)

/-- A lock, the data it protects, the threads, and the completed calls, the last first. -/
structure Spin (ι ω σ ρ : Type*) where
  lock : Cell ι
  data : σ
  place : ι → SpinPlace ω σ ρ
  log : List (Done ι ω ρ)

/-- A thread calls a function, or executes an instruction, or loses its monitor. -/
inductive SpinAct (ι ω : Type*)
  | call (t : ι) (o : ω)
  | exec (t : ι)
  | lose (t : ι)

namespace Spin

variable [DecidableEq ι]

def goto (s : Spin ι ω σ ρ) (t : ι) (p : SpinPlace ω σ ρ) : Spin ι ω σ ρ :=
  { s with place := Function.update s.place t p }

/-- `SPINLOCK_INIT`, with no thread in a call. -/
def start (d₀ : σ) : Spin ι ω σ ρ := ⟨⟨0, fun _ => false⟩, d₀, fun _ => .out, []⟩

section Exec

variable (body : ω → Prog σ ρ)

/-- One instruction of a thread. -/
def exec (s : Spin ι ω σ ρ) (t : ι) : Option (Spin ι ω σ ρ) :=
  match s.place t with
  | .out => none
  -- `spinlock_lock`
  | .ldaxr o => some ({ s with lock := s.lock.loadExclusive t }.goto t (.testWord o s.lock.word))
  | .testWord o tmp => some (s.goto t (if tmp ≠ 0 then .ldaxr o else .stxr o))
  | .stxr o =>
      let result := s.lock.storeExclusive t 1
      some ({ s with lock := result.2 }.goto t (.testStatus o result.1))
  | .testStatus o tmp => some (s.goto t (if tmp ≠ 0 then .ldaxr o else .inside o (body o)))
  -- the section
  | .inside o (.access write next) =>
      some ({ s with data := write s.data }.goto t (.inside o (next s.data)))
  | .inside o (.ret r) => some (s.goto t (.stlr o r))
  -- `spinlock_unlock`
  | .stlr o r => some ({ s with lock := Cell.stored 0, log := ⟨t, o, r⟩ :: s.log }.goto t .out)

def step (s : Spin ι ω σ ρ) : SpinAct ι ω → Option (Spin ι ω σ ρ)
  | .call t o =>
      match s.place t with
      | .out => some (s.goto t (.ldaxr o))
      | _ => none
  | .exec t => s.exec body t
  | .lose t => some { s with lock := s.lock.lose t }

end Exec

end Spin

/-! ## Who holds the lock -/

namespace SpinPlace

/-- The thread has stored 1 in the lock and not yet 0. -/
def Holds : SpinPlace ω σ ρ → Prop
  | testStatus _ tmp => tmp = 0
  | inside _ _ | stlr _ _ => True
  | out | ldaxr _ | testWord _ _ | stxr _ => False

instance decidableHolds : (p : SpinPlace ω σ ρ) → Decidable p.Holds
  | testStatus _ tmp => inferInstanceAs (Decidable (tmp = 0))
  | inside _ _ | stlr _ _ => .isTrue trivial
  | out | ldaxr _ | testWord _ _ | stxr _ => .isFalse id

/-- The thread is in `spinlock_lock`. -/
def Waits : SpinPlace ω σ ρ → Prop
  | ldaxr _ | testWord _ _ | stxr _ => True
  | testStatus _ tmp => tmp ≠ 0
  | out | inside _ _ | stlr _ _ => False

/-- What a thread with its monitor set knows about the lock. -/
def Knows (word : BitVec 32) : SpinPlace ω σ ρ → Prop
  | testWord _ tmp => tmp = word
  | stxr _ => word = 0
  | _ => True

/-- The call a thread is in. -/
def op? : SpinPlace ω σ ρ → Option ω
  | out => none
  | ldaxr o | testWord o _ | stxr o | testStatus o _ | inside o _ | stlr o _ => some o

/-- The call of a thread that holds the lock, and how it would end from the data `d`. -/
def outcome (body : ω → Prog σ ρ) (d : σ) : SpinPlace ω σ ρ → Option (ω × σ × ρ)
  | testStatus o tmp => if tmp = 0 then some (o, (body o).run d) else none
  | inside o rest => some (o, rest.run d)
  | stlr o r => some (o, d, r)
  | out | ldaxr _ | testWord _ _ | stxr _ => none

theorem outcome_of_not_holds {body : ω → Prog σ ρ} {d : σ} (p : SpinPlace ω σ ρ) (h : ¬ p.Holds) :
    p.outcome body d = none := by
  cases p with
  | testStatus o tmp => exact if_neg h
  | inside | stlr => exact absurd trivial h
  | out | ldaxr | testWord | stxr => rfl

theorem knows_of_holds (p : SpinPlace ω σ ρ) (h : p.Holds) (word : BitVec 32) : p.Knows word := by
  cases p with
  | testStatus | inside | stlr => trivial
  | out | ldaxr | testWord | stxr => exact h.elim

end SpinPlace

namespace Spin

variable [DecidableEq ι] {body : ω → Prog σ ρ} {d₀ d : σ} {s s' : Spin ι ω σ ρ} {t u : ι}
  {owner : Option ι}

@[simp] theorem goto_lock (s : Spin ι ω σ ρ) (t : ι) (p : SpinPlace ω σ ρ) : (s.goto t p).lock = s.lock :=
  rfl
@[simp] theorem goto_data (s : Spin ι ω σ ρ) (t : ι) (p : SpinPlace ω σ ρ) : (s.goto t p).data = s.data :=
  rfl
@[simp] theorem goto_log (s : Spin ι ω σ ρ) (t : ι) (p : SpinPlace ω σ ρ) : (s.goto t p).log = s.log := rfl

@[simp] theorem goto_self (s : Spin ι ω σ ρ) (t : ι) (p : SpinPlace ω σ ρ) : (s.goto t p).place t = p :=
  Function.update_self ..

theorem goto_other (s : Spin ι ω σ ρ) (p : SpinPlace ω σ ρ) (h : u ≠ t) :
    (s.goto t p).place u = s.place u := Function.update_of_ne h ..

/-- The invariant of the lock. The completed calls, run one after the other, have led to `d`; the thread
that holds the lock, if there is one, has gone part of the way from there. -/
structure Inv (body : ω → Prog σ ρ) (d₀ : σ) (s : Spin ι ω σ ρ) (owner : Option ι) (d : σ) : Prop where
  word : s.lock.word = if owner.isSome then 1 else 0
  holds : ∀ t, (s.place t).Holds ↔ owner = some t
  knows : ∀ t, s.lock.monitor t = true → (s.place t).Knows s.lock.word
  serial : Serial (fun o => (body o).run) d₀ s.log d
  free : owner = none → s.data = d
  outcome : ∀ t o r, (s.place t).outcome body s.data = some (o, r) → r = (body o).run d

omit [DecidableEq ι] in
theorem Inv.start (body : ω → Prog σ ρ) (d₀ : σ) :
    Inv body d₀ (Spin.start d₀ : Spin ι ω σ ρ) none d₀ where
  word := rfl
  holds := fun t => ⟨False.elim, fun h => absurd h (by simp)⟩
  knows := fun t ht => absurd ht (by simp [Spin.start])
  serial := .nil
  free := fun _ => rfl
  outcome := fun t o r h => absurd h (by simp [Spin.start, SpinPlace.outcome])

/-! ### What a step does to the calls -/

variable {o : ω}

theorem step_call (hs : s.step body (.call t o) = some s') :
    s.place t = .out ∧ s' = s.goto t (.ldaxr o) := by
  simp only [Spin.step] at hs
  split at hs
  · rename_i hplace
    exact ⟨hplace, (Option.some.inj hs).symm⟩
  · exact absurd hs (by simp)

/-- An instruction leaves its thread in its call, and the log alone; or it completes the call. -/
theorem exec_cases (hs : s.exec body t = some s') :
    (s'.log = s.log ∧ (s'.place t).op? = (s.place t).op? ∧ ∀ u, u ≠ t → s'.place u = s.place u) ∨
    ∃ o r, s.place t = .stlr o r ∧ s'.log = ⟨t, o, r⟩ :: s.log ∧ s'.place t = .out ∧
      ∀ u, u ≠ t → s'.place u = s.place u := by
  unfold Spin.exec at hs
  split at hs
  case h_1 => exact absurd hs (by simp)
  case h_8 o r hplace =>
    obtain rfl := Option.some.inj hs
    exact .inr ⟨o, r, hplace, rfl, goto_self .., fun u hu => goto_other _ _ hu⟩
  all_goals
    rename_i hplace
    obtain rfl := Option.some.inj hs
    refine .inl ⟨rfl, ?_, fun u hu => goto_other _ _ hu⟩
    rw [goto_self, hplace]
    first
      | rfl
      | (split <;> rfl)

/-! ### Steps

A step changes the place of its thread, and the monitors, the data or the lock beside it. -/

omit [DecidableEq ι] in
/-- The monitors change, and the lock stays. -/
theorem Inv.monitors (h : Inv body d₀ s owner d) {lock : Cell ι} (hword : lock.word = s.lock.word)
    (hmon : ∀ u, lock.monitor u = true → s.lock.monitor u = true ∨ (s.place u).Knows s.lock.word) :
    Inv body d₀ { s with lock := lock } owner d where
  word := hword.trans h.word
  holds := h.holds
  knows := by
    intro u hu
    show (s.place u).Knows lock.word
    rw [hword]
    exact (hmon u hu).elim (h.knows u) id
  serial := h.serial
  free := h.free
  outcome := h.outcome

/-- A thread without the lock goes to another place without it. -/
theorem Inv.waits (h : Inv body d₀ s owner d) {p : SpinPlace ω σ ρ} (hnot : ¬ (s.place t).Holds)
    (hp : ¬ p.Holds) (hknows : s.lock.monitor t = true → p.Knows s.lock.word) :
    Inv body d₀ (s.goto t p) owner d where
  word := h.word
  holds := by
    intro u
    by_cases hu : u = t
    · subst hu
      rw [goto_self, ← h.holds u]
      exact iff_of_false hp hnot
    · rw [goto_other s p hu, h.holds u]
  knows := by
    intro u hmon
    by_cases hu : u = t
    · subst hu
      rw [goto_self]
      exact hknows hmon
    · rw [goto_other s p hu]
      exact h.knows u hmon
  serial := h.serial
  free := h.free
  outcome := by
    intro u o r hr
    by_cases hu : u = t
    · subst hu
      rw [goto_self, p.outcome_of_not_holds hp] at hr
      exact absurd hr (by simp)
    · rw [goto_other s p hu] at hr
      exact h.outcome u o r hr

/-- The thread with the lock goes on towards the same end. -/
theorem Inv.works (h : Inv body d₀ s (some t) d) {p : SpinPlace ω σ ρ} {d' : σ} (hp : p.Holds)
    (hout : p.outcome body d' = (s.place t).outcome body s.data) :
    Inv body d₀ ({ s with data := d' }.goto t p) (some t) d where
  word := h.word
  holds := by
    intro u
    by_cases hu : u = t
    · subst hu
      rw [goto_self]
      exact iff_of_true hp rfl
    · rw [goto_other _ p hu]
      exact h.holds u
  knows := by
    intro u hmon
    by_cases hu : u = t
    · subst hu
      rw [goto_self]
      exact p.knows_of_holds hp _
    · rw [goto_other _ p hu]
      exact h.knows u hmon
  serial := h.serial
  free := fun hnone => absurd hnone (by simp)
  outcome := by
    intro u o r hr
    by_cases hu : u = t
    · subst hu
      rw [goto_self, goto_data, hout] at hr
      exact h.outcome u o r hr
    · -- no other thread holds the lock
      rw [goto_other _ p hu] at hr
      have hnot : ¬ (s.place u).Holds := fun hc => hu (Option.some.inj ((h.holds u).mp hc)).symm
      rw [(s.place u).outcome_of_not_holds hnot] at hr
      exact absurd hr (by simp)

/-- The store-exclusive of a thread whose monitor is set takes the lock. -/
theorem Inv.takes (h : Inv body d₀ s owner d) (hplace : s.place t = .stxr o)
    (hmon : s.lock.monitor t = true) :
    Inv body d₀ ({ s with lock := Cell.stored 1 }.goto t (.testStatus o 0)) (some t) d := by
  -- its load has found 0, and nothing has been stored since
  have hword : s.lock.word = 0 := by
    have hknows := h.knows t hmon
    rw [hplace] at hknows
    exact hknows
  have hnone : owner = none := by
    cases owner with
    | none => rfl
    | some u => exact absurd (h.word.symm.trans hword) (by simp)
  subst hnone
  have hnot : ∀ u, ¬ (s.place u).Holds := fun u hu => absurd ((h.holds u).mp hu) (by simp)
  constructor
  · rfl
  · intro u
    by_cases hu : u = t
    · subst hu
      rw [goto_self]
      exact iff_of_true rfl rfl
    · rw [goto_other _ _ hu]
      exact iff_of_false (hnot u) fun hc => hu (Option.some.inj hc).symm
  · exact fun u hu => absurd hu (by simp)
  · exact h.serial
  · exact fun hc => absurd hc (by simp)
  · intro u o' r hr
    by_cases hu : u = t
    · subst hu
      rw [goto_self] at hr
      obtain ⟨rfl, rfl⟩ : o = o' ∧ (body o).run s.data = r := by
        simpa [SpinPlace.outcome] using hr
      rw [h.free rfl]
    · rw [goto_other _ _ hu] at hr
      exact absurd hr (by simp [(s.place u).outcome_of_not_holds (hnot u)])

/-- The store-release completes the call. -/
theorem Inv.releases (h : Inv body d₀ s (some t) d) {r : ρ} (hplace : s.place t = .stlr o r) :
    Inv body d₀ ({ s with lock := Cell.stored 0, log := ⟨t, o, r⟩ :: s.log }.goto t .out) none
      s.data := by
  have hother : ∀ u, u ≠ t → ¬ (s.place u).Holds := fun u hu hc =>
    hu (Option.some.inj ((h.holds u).mp hc)).symm
  have hrun : (s.data, r) = (body o).run d := h.outcome t o _ (by rw [hplace]; rfl)
  constructor
  · rfl
  · intro u
    by_cases hu : u = t
    · subst hu
      rw [goto_self]
      exact iff_of_false id (by simp)
    · rw [goto_other _ _ hu]
      exact iff_of_false (hother u hu) (by simp)
  · exact fun u hu => absurd hu (by simp)
  · exact .cons t o h.serial hrun.symm
  · exact fun _ => rfl
  · intro u o' r' hr
    by_cases hu : u = t
    · subst hu
      rw [goto_self] at hr
      exact absurd hr (by simp [SpinPlace.outcome])
    · rw [goto_other _ _ hu] at hr
      exact absurd hr (by simp [(s.place u).outcome_of_not_holds (hother u hu)])

omit [DecidableEq ι] in
theorem Inv.owner_of_holds (h : Inv body d₀ s owner d) (ht : (s.place t).Holds) : owner = some t :=
  (h.holds t).mp ht

/-- One instruction keeps the invariant, with the thread that holds the lock and the data of the
completed calls as they then are. -/
theorem Inv.exec (h : Inv body d₀ s owner d) (hs : s.exec body t = some s') :
    ∃ owner' d', Inv body d₀ s' owner' d' := by
  unfold Spin.exec at hs
  split at hs
  case h_1 => exact absurd hs (by simp)
  case h_2 o hplace =>
    obtain rfl := Option.some.inj hs
    have hload : Inv body d₀ { s with lock := s.lock.loadExclusive t } owner d := by
      refine h.monitors rfl fun u hu => ?_
      rcases s.lock.loadExclusive_monitor t hu with rfl | hu
      · exact .inr (by rw [hplace]; trivial)
      · exact .inl hu
    exact ⟨owner, d, hload.waits (by simp [hplace, SpinPlace.Holds]) (by simp [SpinPlace.Holds])
      fun _ => rfl⟩
  case h_3 o tmp hplace =>
    obtain rfl := Option.some.inj hs
    refine ⟨owner, d, h.waits (by simp [hplace, SpinPlace.Holds]) ?_ fun hmon => ?_⟩
    · split <;> simp [SpinPlace.Holds]
    · have hknows := h.knows t hmon
      rw [hplace] at hknows
      split
      · trivial
      · rename_i hzero
        exact (show tmp = s.lock.word from hknows) ▸ not_not.mp hzero
  case h_4 o hplace =>
    obtain rfl := Option.some.inj hs
    by_cases hmon : s.lock.monitor t = true
    · rw [Cell.storeExclusive, if_pos hmon]
      exact ⟨some t, d, h.takes hplace hmon⟩
    · rw [Cell.storeExclusive, if_neg hmon]
      have hlose := h.monitors (s.lock.lose_word t) fun u hu => .inl (s.lock.lose_monitor t hu).2
      exact ⟨owner, d, hlose.waits (by simp [hplace, SpinPlace.Holds]) (by simp [SpinPlace.Holds])
        fun _ => trivial⟩
  case h_5 o tmp hplace =>
    obtain rfl := Option.some.inj hs
    split
    · rename_i hne
      exact ⟨owner, d, h.waits (by simpa [hplace, SpinPlace.Holds] using hne) (by simp [SpinPlace.Holds])
        fun _ => trivial⟩
    · rename_i hzero
      obtain rfl : tmp = 0 := not_not.mp hzero
      obtain rfl := h.owner_of_holds (t := t) (by rw [hplace]; rfl)
      exact ⟨some t, d, h.works trivial (by simp [hplace, SpinPlace.outcome])⟩
  case h_6 o write next hplace =>
    obtain rfl := Option.some.inj hs
    obtain rfl := h.owner_of_holds (t := t) (by rw [hplace]; trivial)
    exact ⟨some t, d, h.works trivial (by rw [hplace]; rfl)⟩
  case h_7 o r hplace =>
    obtain rfl := Option.some.inj hs
    obtain rfl := h.owner_of_holds (t := t) (by rw [hplace]; trivial)
    exact ⟨some t, d, h.works trivial (by rw [hplace]; rfl)⟩
  case h_8 o r hplace =>
    obtain rfl := Option.some.inj hs
    obtain rfl := h.owner_of_holds (t := t) (by rw [hplace]; trivial)
    exact ⟨none, s.data, h.releases hplace⟩

theorem Inv.step (h : Inv body d₀ s owner d) {a : SpinAct ι ω} (hs : s.step body a = some s') :
    ∃ owner' d', Inv body d₀ s' owner' d' := by
  cases a with
  | call t o =>
      obtain ⟨hplace, rfl⟩ := step_call hs
      exact ⟨owner, d, h.waits (by simp [hplace, SpinPlace.Holds]) (by simp [SpinPlace.Holds])
        fun _ => trivial⟩
  | exec t => exact h.exec hs
  | lose t =>
      obtain rfl := Option.some.inj hs
      exact ⟨owner, d, h.monitors (s.lock.lose_word t) fun u hu => .inl (s.lock.lose_monitor t hu).2⟩

/-- The states that any interleaving of the threads reaches. -/
def Reachable (body : ω → Prog σ ρ) (d₀ : σ) (ok : Spin ι ω σ ρ → SpinAct ι ω → Prop)
    (s : Spin ι ω σ ρ) : Prop := Machine.Reach (Spin.step body) ok (Spin.start d₀) s

theorem Reachable.inv {ok : Spin ι ω σ ρ → SpinAct ι ω → Prop} (h : Reachable body d₀ ok s) :
    ∃ owner d, Inv body d₀ s owner d :=
  Machine.Reach.invariant (P := fun s => ∃ owner d, Inv body d₀ s owner d)
    ⟨none, d₀, .start body d₀⟩
    (fun _ _ _ hinv _ hs => by
      obtain ⟨owner, d, hinv⟩ := hinv
      exact hinv.step hs) h

/-! ## Taking a free lock -/

/-- Instructions of one thread, while no other one goes on. -/
def alone (body : ω → Prog σ ρ) (t : ι) : Nat → Spin ι ω σ ρ → Option (Spin ι ω σ ρ)
  | 0, s => some s
  | n + 1, s => (s.exec body t).bind (alone body t n)

/-- The thread has come into its section after at most `n` instructions of its own. -/
def Enters (body : ω → Prog σ ρ) (t : ι) (n : Nat) (s : Spin ι ω σ ρ) : Prop :=
  ∃ k ≤ n, ∃ s' o, alone body t k s = some s' ∧ s'.place t = .inside o (body o)

theorem Enters.exec {n : Nat} (h : Enters body t n s') (hs : s.exec body t = some s') :
    Enters body t (n + 1) s := by
  obtain ⟨k, hk, s₁, o, halone, hplace⟩ := h
  refine ⟨k + 1, by omega, s₁, o, ?_, hplace⟩
  rw [alone, hs]
  exact halone

theorem Enters.mono {n m : Nat} (h : Enters body t n s) (hle : n ≤ m) : Enters body t m s := by
  obtain ⟨k, hk, hrest⟩ := h
  exact ⟨k, Nat.le_trans hk hle, hrest⟩

/-! The four instructions of the loop, from the last to the first. -/

theorem enters_testStatus (hplace : s.place t = .testStatus o 0) : Enters body t 1 s := by
  have hexec : s.exec body t = some (s.goto t (.inside o (body o))) := by simp [Spin.exec, hplace]
  exact Enters.exec ⟨0, Nat.le_refl _, _, o, rfl, goto_self ..⟩ hexec

theorem enters_stxr (hplace : s.place t = .stxr o) (hmon : s.lock.monitor t = true) :
    Enters body t 2 s := by
  have hexec : s.exec body t =
      some ({ s with lock := Cell.stored 1 }.goto t (.testStatus o 0)) := by
    simp [Spin.exec, hplace, Cell.storeExclusive, hmon]
  exact (enters_testStatus (goto_self ..)).exec hexec

theorem enters_testWord (hplace : s.place t = .testWord o 0) (hmon : s.lock.monitor t = true) :
    Enters body t 3 s := by
  have hexec : s.exec body t = some (s.goto t (.stxr o)) := by simp [Spin.exec, hplace]
  exact (enters_stxr (goto_self ..) hmon).exec hexec

theorem enters_ldaxr (hplace : s.place t = .ldaxr o) (hword : s.lock.word = 0) : Enters body t 4 s := by
  have hexec : s.exec body t =
      some ({ s with lock := s.lock.loadExclusive t }.goto t (.testWord o 0)) := by
    simp [Spin.exec, hplace, hword]
  exact (enters_testWord (goto_self ..) (by simp [Cell.loadExclusive])).exec hexec

/-- A status other than 0 sends the thread back to the load. -/
theorem enters_failed {tmp : BitVec 32} (hplace : s.place t = .testStatus o tmp) (htmp : tmp ≠ 0)
    (hword : s.lock.word = 0) : Enters body t 5 s := by
  have hexec : s.exec body t = some (s.goto t (.ldaxr o)) := by
    simp only [Spin.exec, hplace, if_pos htmp]
  exact (enters_ldaxr (goto_self ..) hword).exec hexec

/-- A store-exclusive on a free lock, with the monitor set or not. -/
theorem enters_stxr_free (hplace : s.place t = .stxr o) (hword : s.lock.word = 0) :
    Enters body t 6 s := by
  by_cases hmon : s.lock.monitor t = true
  · exact (enters_stxr hplace hmon).mono (by omega)
  · have hexec : s.exec body t =
        some ({ s with lock := s.lock.lose t }.goto t (.testStatus o 1)) := by
      simp [Spin.exec, hplace, Cell.storeExclusive, hmon]
    have hfailed := goto_self { s with lock := s.lock.lose t } t (SpinPlace.testStatus o 1)
    exact (enters_failed hfailed (by decide) hword).exec hexec

theorem enters_of_waits (hplace : (s.place t).Waits) (hword : s.lock.word = 0) :
    Enters body t 7 s := by
  cases hp : s.place t with
  | ldaxr o => exact (enters_ldaxr hp hword).mono (by omega)
  | testWord o tmp =>
      by_cases htmp : tmp = 0
      · have hexec : s.exec body t = some (s.goto t (.stxr o)) := by simp [Spin.exec, hp, htmp]
        exact (enters_stxr_free (goto_self ..) hword).exec hexec
      · have hexec : s.exec body t = some (s.goto t (.ldaxr o)) := by
          simp only [Spin.exec, hp, if_pos (Ne.intro htmp)]
        exact ((enters_ldaxr (goto_self ..) hword).exec hexec).mono (by omega)
  | stxr o => exact (enters_stxr_free hp hword).mono (by omega)
  | testStatus o tmp =>
      rw [hp] at hplace
      exact (enters_failed hp hplace hword).mono (by omega)
  | out | inside | stlr =>
      rw [hp] at hplace
      exact hplace.elim

/-- **The lock is a lock.** Whatever the interleaving, at most one thread is past `spinlock_lock` and
not through with `spinlock_unlock`, the lock is 0 just when there is none, and a thread in
`spinlock_lock` that goes on alone while the lock is 0 gets in within seven instructions. -/
theorem spinlock_exclusive (h : Reachable body d₀ (fun _ _ => True) s) :
    (∀ t u, (s.place t).Holds → (s.place u).Holds → t = u) ∧
    (s.lock.word = 0 ↔ ∀ t, ¬ (s.place t).Holds) ∧
    ∀ t, s.lock.word = 0 → (s.place t).Waits → Enters body t 7 s := by
  obtain ⟨owner, d, hinv⟩ := h.inv
  refine ⟨fun t u ht hu => ?_, ?_, fun t hword hwaits => enters_of_waits hwaits hword⟩
  · exact Option.some.inj ((hinv.owner_of_holds ht).symm.trans (hinv.owner_of_holds hu))
  · rw [hinv.word]
    cases owner with
    | none => simp [hinv.holds]
    | some t =>
        refine iff_of_false (by simp) fun hnot => ?_
        exact hnot t ((hinv.holds t).mpr rfl)

/-- A section that counts up, and two threads that race for it: both find the lock free, and the first
store-exclusive makes the other one fail. -/
def countUp (_ : Unit) : Prog Nat Nat := .load fun n => .store (fun _ => n + 1) (.ret n)

def race : List (SpinAct Bool Unit) :=
  [.call true (), .call false (), .exec true, .exec false, .exec true, .exec false, .exec true,
    .exec false]

theorem spinlock_exclusive_race :
    ∃ s, Reachable countUp 0 (fun _ _ => True) s ∧ (s.place true).Holds ∧
      ¬ (s.place false).Holds ∧ s.lock.word ≠ 0 := by
  have hrun : (Machine.runWhile (Spin.step countUp) (fun _ _ => true) (Spin.start 0) race).any
      (fun s => decide (s.place true).Holds) = true := rfl
  obtain ⟨s, hreach, hholds⟩ := Machine.exists_of_runWhile hrun fun _ _ _ => trivial
  have hholds : (s.place true).Holds := of_decide_eq_true hholds
  obtain ⟨hone, hword, -⟩ := spinlock_exclusive hreach
  refine ⟨s, hreach, hholds, fun hc => absurd (hone true false hholds hc) (by decide), fun h0 => ?_⟩
  exact hword.mp h0 true hholds

end Spin

end Arcline
