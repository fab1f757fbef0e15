import Arcline.Kernel.Spinlock
import Arcline.Sched.Lifecycle

set_option autoImplicit false

/-! # Identifiers under their lock

`pid_alloc` and `pid_free` read and write `pid_bitmap` word by word, under `pid_lock`, which leaves
interrupts on: a task that holds the lock may be preempted. Whatever the interleaving, the calls are
those of a machine on which each of them is one step, the machine the scheduler is modelled on; so no
identifier is handed out twice.
-/

namespace Arcline

open Exclusive Sched

/-! ## The bitmap -/

/-- `pid_bitmap`: 32 identifiers to a word. -/
abbrev PidWords := Nat → BitVec 32

/-- Whether an identifier is marked. -/
def pidBits (w : PidWords) (i : Nat) : Bool := (w (i / 32)).getLsbD (i % 32)

/-- `1U << bit`. -/
def pidMask (i : Nat) : BitVec 32 := 1#32 <<< (i % 32)

/-- `pid_init`: `memset`, then `pid_bitmap[0] |= 1`. -/
def pidInitWords : PidWords := Function.update (fun _ => 0) 0 (0 ||| 1)

theorem pidMask_eq (i : Nat) : pidMask i = BitVec.twoPow 32 (i % 32) := rfl

/-- The test of `pid_alloc`. -/
theorem and_pidMask_eq_zero {w : PidWords} {i : Nat} :
    w (i / 32) &&& pidMask i = 0 ↔ pidBits w i = false := by
  rw [pidMask_eq, BitVec.and_twoPow, pidBits]
  cases (w (i / 32)).getLsbD (i % 32) with
  | false => simp
  | true =>
      have hne : BitVec.twoPow 32 (i % 32) ≠ 0#32 := by
        intro h0
        have hbit := congrArg (fun x => x.getLsbD (i % 32)) h0
        simp only [BitVec.getLsbD_twoPow, BitVec.getLsbD_zero] at hbit
        have hlt := Nat.mod_lt i (show 0 < 32 by decide)
        simp [hlt] at hbit
      simpa using hne

/-- A word that differs in the bit of `i` only. -/
theorem pidBits_update (w : PidWords) (i : Nat) {v : BitVec 32} {b : Bool}
    (hv : ∀ k < 32, v.getLsbD k = if i % 32 = k then b else (w (i / 32)).getLsbD k) :
    pidBits (Function.update w (i / 32) v) = Function.update (pidBits w) i b := by
  funext j
  rw [pidBits, Function.update_apply, Function.update_apply]
  by_cases hword : j / 32 = i / 32
  · rw [if_pos hword, hv _ (Nat.mod_lt j (by decide))]
    by_cases hj : j = i
    · rw [if_pos hj, if_pos (by rw [hj])]
    · rw [if_neg hj, if_neg (by omega), pidBits, hword]
  · have hj : j ≠ i := fun e => hword (by rw [e])
    rw [if_neg hword, if_neg hj, pidBits]

theorem getLsbD_pidMask (i k : Nat) : (pidMask i).getLsbD k = decide (i % 32 = k) := by
  rw [pidMask_eq, BitVec.getLsbD_twoPow]
  have hlt := Nat.mod_lt i (show 0 < 32 by decide)
  simp [hlt]

theorem pidBits_set (w : PidWords) (i : Nat) :
    pidBits (Function.update w (i / 32) (w (i / 32) ||| pidMask i)) =
      Function.update (pidBits w) i true := by
  refine pidBits_update w i fun k _ => ?_
  rw [BitVec.getLsbD_or, getLsbD_pidMask]
  by_cases hk : i % 32 = k <;> simp [hk]

theorem pidBits_clear (w : PidWords) (i : Nat) :
    pidBits (Function.update w (i / 32) (w (i / 32) &&& ~~~pidMask i)) =
      Function.update (pidBits w) i false := by
  refine pidBits_update w i fun k hlt => ?_
  rw [BitVec.getLsbD_and, BitVec.getLsbD_not, getLsbD_pidMask]
  by_cases hk : i % 32 = k <;> simp [hk, hlt]

theorem pidBits_init : pidBits pidInitWords = pidInit := by
  have h := pidBits_set (fun _ => 0) 0
  have hzero : pidBits (fun _ => 0) = fun _ => false := by
    funext j
    exact BitVec.getLsbD_zero
  rw [hzero] at h
  exact h

/-! ## The calls -/

/-- A call that takes the lock: `pid_alloc`, or `pid_free` of an identifier that passes its check. -/
inductive PidOp
  | alloc
  | free (pid : { pid : Nat // 0 < pid ∧ pid < maxPid })

/-- `pid_free` up to its lock: the call it makes under it, if any. -/
def pidFreeOp (pid : Int) : Option PidOp :=
  if h : pid ≤ 0 ∨ (maxPid : Int) ≤ pid then none else some (.free ⟨pid.toNat, by omega, by omega⟩)

/-- The loop of `pid_alloc` from `i` on, with `n` identifiers left. -/
def scanPids : Nat → Nat → Prog PidWords Int
  | 0, _ => .ret (-1)
  | n + 1, i => .load fun w =>
      if w (i / 32) &&& pidMask i = 0 then
        .load fun w =>
          .store (fun w' => Function.update w' (i / 32) (w (i / 32) ||| pidMask i)) (.ret i)
      else scanPids n (i + 1)

/-- What is under the lock; the result is 0 where the function returns nothing. -/
def pidBody : PidOp → Prog PidWords Int
  | .alloc => scanPids (maxPid - 1) 1
  | .free pid => .load fun w =>
      .store (fun w' => Function.update w' (pid.1 / 32) (w (pid.1 / 32) &&& ~~~pidMask pid.1)) (.ret 0)

/-- The calls in one step, as the scheduler has them. -/
def pidSpec : PidOp → (Nat → Bool) → (Nat → Bool) × Int
  | .alloc, bitmap =>
      match pidFree? bitmap with
      | none => (bitmap, -1)
      | some pid => (Function.update bitmap pid true, pid)
  | .free pid, bitmap => (pidFree bitmap pid.1, 0)

theorem scanPids_run (w : PidWords) (n i : Nat) :
    (scanPids n i).run w =
      match (List.range' i n).find? fun j => !pidBits w j with
      | none => (w, -1)
      | some pid => (Function.update w (pid / 32) (w (pid / 32) ||| pidMask pid), (pid : Int)) := by
  induction n generalizing i with
  | zero => rfl
  | succ n ih =>
      rw [scanPids, Prog.run_load, List.range'_succ, List.find?_cons]
      by_cases hbit : pidBits w i = false
      · rw [if_pos (and_pidMask_eq_zero.mpr hbit), hbit]
        rfl
      · rw [if_neg (mt and_pidMask_eq_zero.mp hbit), ih (i + 1)]
        simp only [Bool.not_eq_false] at hbit
        simp only [hbit, Bool.not_true]

/-- A call that is not interrupted does what it is specified to do. -/
theorem pidBody_run (o : PidOp) (w : PidWords) :
    pidSpec o (pidBits w) = (pidBits ((pidBody o).run w).1, ((pidBody o).run w).2) := by
  cases o with
  | alloc =>
      rw [pidBody, scanPids_run, pidSpec, pidFree?]
      cases (List.range' 1 (maxPid - 1)).find? fun j => !pidBits w j with
      | none => rfl
      | some pid => simp only [pidBits_set]
  | free pid =>
      have hin : ¬ ((pid.1 : Int) ≤ 0 ∨ (maxPid : Int) ≤ pid.1) := by
        have := pid.2
        omega
      rw [pidBody, pidSpec, pidFree, if_neg hin, Prog.run_load, Prog.run_store, Prog.run_ret,
        pidBits_clear, Int.toNat_natCast]

variable {ι : Type*} [DecidableEq ι]

/-- The identifiers and their lock, with the tasks `ι`. -/
abbrev PidSys (ι : Type*) := Spin ι PidOp PidWords Int

theorem atomic_of_reachable {s : PidSys ι} {ok : PidSys ι → SpinAct ι PidOp → Prop}
    (h : Spin.Reachable pidBody pidInitWords ok s) :
    ∃ bitmap, Serial pidSpec pidInit s.log bitmap ∧ (s.lock.word = 0 → pidBits s.data = bitmap) := by
  obtain ⟨owner, d, hinv⟩ := h.inv
  refine ⟨pidBits d, pidBits_init ▸ hinv.serial.map pidBody_run, fun hword => ?_⟩
  have hnone : owner = none := by
    cases owner with
    | none => rfl
    | some t => exact absurd (hinv.word.symm.trans hword) (by simp)
  rw [hinv.free hnone]

/-- **The calls are atomic.** Whatever the interleaving of the accesses of any number of tasks, the
results of the completed calls are those of the calls run one after the other, each in one step, in the
order in which they released the lock; and so is the bitmap whenever the lock is free. -/
theorem pid_calls_atomic {s : PidSys ι}
    (h : Spin.Reachable pidBody pidInitWords (fun _ _ => True) s) :
    ∃ bitmap, Serial pidSpec pidInit s.log bitmap ∧ (s.lock.word = 0 → pidBits s.data = bitmap) :=
  atomic_of_reachable h

/-- Two tasks that call `pid_alloc` at the same time: the second one tries to take the lock while the
first one is in its section. -/
def twoAllocs : List (SpinAct Bool PidOp) :=
  [.call true .alloc, .call false .alloc] ++ List.replicate 4 (.exec true) ++
    List.replicate 2 (.exec false) ++ List.replicate 5 (.exec true) ++ List.replicate 10 (.exec false)

theorem pid_calls_atomic_two :
    ∃ s : PidSys Bool, Spin.Reachable pidBody pidInitWords (fun _ _ => True) s ∧
      s.log.map Done.result = [2, 1] ∧
      ∃ bitmap, Serial pidSpec pidInit s.log bitmap ∧ (s.lock.word = 0 → pidBits s.data = bitmap) := by
  have hrun : (Machine.runWhile (Spin.step pidBody) (fun _ _ => true) (Spin.start pidInitWords)
      twoAllocs).any (fun s => decide (s.log.map Done.result = [2, 1])) = true := by decide +kernel
  obtain ⟨s, hreach, hlog⟩ := Machine.exists_of_runWhile hrun fun _ _ _ => trivial
  exact ⟨s, hreach, of_decide_eq_true hlog, pid_calls_atomic hreach⟩

/-! ## Who has which identifier -/

/-- The identifiers a task has got by the completed calls and not given back. -/
def livePids (t : ι) : List (Done ι PidOp Int) → List Nat
  | [] => []
  | ⟨u, .alloc, r⟩ :: log =>
      if u = t ∧ 0 < r then r.toNat :: livePids t log else livePids t log
  | ⟨u, .free pid, _⟩ :: log => if u = t then (livePids t log).erase pid.1 else livePids t log

/-- Every identifier was given back by a task that had it. -/
def FreesOwn : List (Done ι PidOp Int) → Prop
  | [] => True
  | ⟨_, .alloc, _⟩ :: log => FreesOwn log
  | ⟨t, .free pid, _⟩ :: log => pid.1 ∈ livePids t log ∧ FreesOwn log

/-- Each identifier that is marked, other than 0, is held once, and by one task. -/
structure Shared (log : List (Done ι PidOp Int)) (bitmap : Nat → Bool) : Prop where
  nodup : ∀ t, (livePids t log).Nodup
  one : ∀ t u i, i ∈ livePids t log → i ∈ livePids u log → t = u
  pos : ∀ t i, i ∈ livePids t log → 0 < i
  marked : ∀ i, bitmap i = true ↔ i = 0 ∨ ∃ t, i ∈ livePids t log

variable {log : List (Done ι PidOp Int)} {bitmap : Nat → Bool}

/-- Handing out an identifier that nobody has. -/
theorem Shared.alloc (h : Shared log bitmap) (t : ι) {pid : Nat} (hpos : 0 < pid)
    (hclear : bitmap pid = false) :
    Shared (⟨t, .alloc, (pid : Int)⟩ :: log) (Function.update bitmap pid true) := by
  have hfresh : ∀ u, pid ∉ livePids u log := fun u hu => by
    have := (h.marked pid).mpr (.inr ⟨u, hu⟩)
    simp [hclear] at this
  have hlive : ∀ u, livePids u (⟨t, .alloc, (pid : Int)⟩ :: log) =
      if t = u then pid :: livePids u log else livePids u log := by
    intro u
    simp only [livePids, Int.natCast_pos, hpos, and_true, Int.toNat_natCast]
  have hmem : ∀ u i, i ∈ livePids u (⟨t, .alloc, (pid : Int)⟩ :: log) ↔
      (t = u ∧ i = pid) ∨ i ∈ livePids u log := by
    intro u i
    rw [hlive]
    split
    · simp [*]
    · simp [*]
  refine ⟨fun u => ?_, fun u v i hu hv => ?_, fun u i hi => ?_, fun i => ?_⟩
  · rw [hlive]
    split
    · exact List.nodup_cons.mpr ⟨hfresh u, h.nodup u⟩
    · exact h.nodup u
  · rcases (hmem u i).mp hu with ⟨rfl, rfl⟩ | hu'
    · rcases (hmem v i).mp hv with ⟨rfl, -⟩ | hv'
      · rfl
      · exact absurd hv' (hfresh v)
    · rcases (hmem v i).mp hv with ⟨-, rfl⟩ | hv'
      · exact absurd hu' (hfresh u)
      · exact h.one u v i hu' hv'
  · rcases (hmem u i).mp hi with ⟨-, rfl⟩ | hi
    · exact hpos
    · exact h.pos u i hi
  · rw [Function.update_apply]
    by_cases hi : i = pid
    · rw [if_pos hi]
      exact iff_of_true rfl (.inr ⟨t, (hmem t i).mpr (.inl ⟨rfl, hi⟩)⟩)
    · rw [if_neg hi, h.marked i]
      simp [hmem, hi]

/-- Taking back an identifier from the task that has it. -/
theorem Shared.free (h : Shared log bitmap) {t : ι} {pid : { pid : Nat // 0 < pid ∧ pid < maxPid }}
    (hown : pid.1 ∈ livePids t log) (r : Int) :
    Shared (⟨t, .free pid, r⟩ :: log) (pidFree bitmap pid.1) := by
  have hmem : ∀ u i, i ∈ livePids u (⟨t, .free pid, r⟩ :: log) ↔
      i ≠ pid.1 ∧ i ∈ livePids u log := by
    intro u i
    rw [livePids]
    by_cases hu : t = u
    · rw [if_pos hu, (h.nodup u).mem_erase_iff]
    · rw [if_neg hu]
      -- the identifier was held by `t` alone
      have hne : i ∈ livePids u log → i ≠ pid.1 := fun hi e => hu (h.one t u i (e ▸ hown) hi)
      exact ⟨fun hi => ⟨hne hi, hi⟩, And.right⟩
  refine ⟨fun u => ?_, fun u v i hu hv => ?_, fun u i hi => ?_, fun i => ?_⟩
  · rw [livePids]
    split
    · exact (h.nodup u).erase pid.1
    · exact h.nodup u
  · exact h.one u v i ((hmem u i).mp hu).2 ((hmem v i).mp hv).2
  · exact h.pos u i ((hmem u i).mp hi).2
  · have hrange := pid.2
    rw [pidFree_apply]
    by_cases hi : i = pid.1
    · rw [if_pos (by omega)]
      refine iff_of_false (by simp) ?_
      rintro (h0 | ⟨u, hu⟩)
      · omega
      · exact ((hmem u i).mp hu).1 hi
    · rw [if_neg (by omega), h.marked i]
      simp [hmem, hi]

theorem shared_of_serial (h : Serial pidSpec pidInit log bitmap) :
    FreesOwn log → Shared log bitmap := by
  refine Serial.invariant (P := fun log bitmap => FreesOwn log → Shared log bitmap) ?_ ?_ h
  · intro _
    refine ⟨fun _ => .nil, fun _ _ _ hi => absurd hi List.not_mem_nil,
      fun _ _ hi => absurd hi List.not_mem_nil, fun i => ?_⟩
    simp [pidInit, Function.update_apply, livePids]
  · intro log bitmap bitmap' r t o ih hrun hown
    cases o with
    | alloc =>
        have hshared := ih hown
        rw [pidSpec] at hrun
        cases hfree : pidFree? bitmap with
        | none =>
            simp only [hfree, Prod.mk.injEq] at hrun
            obtain ⟨rfl, rfl⟩ := hrun
            have hlive : ∀ u, livePids u (⟨t, .alloc, -1⟩ :: log) = livePids u log := fun u =>
              if_neg fun hc => absurd hc.2 (by decide)
            constructor
            · simpa only [hlive] using hshared.nodup
            · simpa only [hlive] using hshared.one
            · simpa only [hlive] using hshared.pos
            · simpa only [hlive] using hshared.marked
        | some pid =>
            simp only [hfree, Prod.mk.injEq] at hrun
            obtain ⟨rfl, rfl⟩ := hrun
            obtain ⟨hclear, hrange, -⟩ := pidFree?_eq_some.mp hfree
            exact hshared.alloc t hrange.1 hclear
    | free pid =>
        obtain ⟨rfl, rfl⟩ := Prod.mk.inj hrun
        exact (ih hown.2).free hown.1 0

/-- Tasks give back only identifiers they have. -/
def GivesOwn (s : PidSys ι) : SpinAct ι PidOp → Prop
  | .call t (.free pid) => pid.1 ∈ livePids t s.log
  | _ => True

/-- A task that is giving an identifier back has it until the call is completed. -/
structure Owning (s : PidSys ι) : Prop where
  done : FreesOwn s.log
  doing : ∀ t pid, (s.place t).op? = some (.free pid) → pid.1 ∈ livePids t s.log

/-- The completed calls of one task do not change what another one has. -/
theorem livePids_other {t u : ι} (h : u ≠ t) (o : PidOp) (r : Int) (log : List (Done ι PidOp Int)) :
    livePids t (⟨u, o, r⟩ :: log) = livePids t log := by
  cases o with
  | alloc => exact if_neg fun hc => h hc.1
  | free pid => exact if_neg h

theorem Owning.step {s s' : PidSys ι} {a : SpinAct ι PidOp} (h : Owning s) (hok : GivesOwn s a)
    (hs : s.step pidBody a = some s') : Owning s' := by
  cases a with
  | lose t =>
      obtain rfl := Option.some.inj hs
      exact ⟨h.done, h.doing⟩
  | call t o =>
      obtain ⟨-, rfl⟩ := Spin.step_call hs
      refine ⟨h.done, fun u pid hu => ?_⟩
      by_cases hut : u = t
      · subst hut
        rw [Spin.goto_self] at hu
        obtain rfl : o = .free pid := Option.some.inj hu
        exact hok
      · rw [Spin.goto_other _ _ hut] at hu
        exact h.doing u pid hu
  | exec t =>
      rcases Spin.exec_cases hs with ⟨hlog, hop, hother⟩ | ⟨o, r, hplace, hlog, hout, hother⟩
      · refine ⟨hlog ▸ h.done, fun u pid hu => ?_⟩
        rw [hlog]
        apply h.doing u pid
        by_cases hut : u = t
        · rw [hut] at hu ⊢
          exact hop ▸ hu
        · exact hother u hut ▸ hu
      · refine ⟨?_, fun u pid hu => ?_⟩
        · rw [hlog]
          cases o with
          | alloc => exact h.done
          | free pid => exact ⟨h.doing t pid (by rw [hplace]; rfl), h.done⟩
        · by_cases hut : u = t
          · rw [hut, hout] at hu
            exact absurd hu (by simp [SpinPlace.op?])
          · rw [hother u hut] at hu
            rw [hlog, livePids_other (Ne.symm hut)]
            exact h.doing u pid hu

/-- **No identifier is handed out twice.** Whatever the interleaving of calls by which tasks take
identifiers and give back those they have, each task has an identifier at most once and no two tasks
have the same one; and whenever the lock is free, the bitmap marks exactly 0 and the identifiers that
some task has. -/
theorem pid_held_once {s : PidSys ι} (h : Spin.Reachable pidBody pidInitWords GivesOwn s) :
    (∀ t, (livePids t s.log).Nodup) ∧
    (∀ t u i, i ∈ livePids t s.log → i ∈ livePids u s.log → t = u) ∧
    (s.lock.word = 0 → ∀ i, pidBits s.data i = true ↔ i = 0 ∨ ∃ t, i ∈ livePids t s.log) := by
  have howning : Owning s := by
    refine Machine.Reach.invariant ?_ (fun _ _ _ hs hok hstep => hs.step hok hstep) h
    exact ⟨trivial, fun t pid ht => absurd ht (by simp [Spin.start, SpinPlace.op?])⟩
  obtain ⟨bitmap, hserial, hfree⟩ := atomic_of_reachable h
  have hshared := shared_of_serial hserial howning.done
  exact ⟨hshared.nodup, hshared.one, fun hword i => by rw [hfree hword, hshared.marked i]⟩

instance decidableGivesOwn (s : PidSys ι) : (a : SpinAct ι PidOp) → Decidable (GivesOwn s a)
  | .call t (.free pid) => inferInstanceAs (Decidable (pid.1 ∈ livePids t s.log))
  | .call _ .alloc | .exec _ | .lose _ => .isTrue trivial

/-- The two tasks of `twoAllocs`, of which the first one then gives its identifier back. -/
def twoAllocsOneFree : List (SpinAct Bool PidOp) :=
  twoAllocs ++ .call true (.free ⟨1, by decide, by simp [maxPid]⟩) :: List.replicate 8 (.exec true)

theorem pid_held_once_two :
    ∃ s : PidSys Bool, Spin.Reachable pidBody pidInitWords GivesOwn s ∧
      livePids true s.log = [] ∧ livePids false s.log = [2] ∧
      ∀ i, pidBits s.data i = true ↔ i = 0 ∨ i = 2 := by
  have hrun : (Machine.runWhile (Spin.step pidBody) (fun s a => decide (GivesOwn s a))
      (Spin.start pidInitWords) twoAllocsOneFree).any
      (fun s => decide (livePids true s.log = [] ∧ livePids false s.log = [2] ∧ s.lock.word = 0)) =
      true := by decide +kernel
  obtain ⟨s, hreach, hlog⟩ := Machine.exists_of_runWhile hrun fun _ _ h => of_decide_eq_true h
  obtain ⟨htrue, hfalse, hword⟩ := of_decide_eq_true hlog
  refine ⟨s, hreach, htrue, hfalse, fun i => ?_⟩
  rw [(pid_held_once hreach).2.2 hword i]
  simp [htrue, hfalse]

end Arcline
