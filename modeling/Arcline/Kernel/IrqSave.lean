import Arcline.Run
import Mathlib.Data.BitVec

set_option autoImplicit false

/-! # Locks taken with interrupts masked

`spinlock_lock_irqsave` and `spinlock_unlock_irqrestore` instruction by instruction, on one processor
whose tasks, and interrupt handlers, are switched wherever interrupts are not masked and wherever a task
is in none of these calls. The calls nest: the page-table code takes `pmm_lock` under `vmm_lock`, and
messages are logged under any of the other locks.
-/

namespace Arcline

/-- One end of a critical section. The lock a `leave` gives back is the one taken last. -/
inductive Bracket (ℒ : Type)
  | enter (lock : ℒ)
  | leave
deriving DecidableEq

/-- The instruction a thread is at. From `mrs` to `msr` each remembers the lock that is being taken and
the DAIF flags that were read. -/
inductive IrqPlace (ℒ : Type)
  | ready
  | daifset (lock : ℒ) (flags : Bool)
  | ldaxr (lock : ℒ) (flags : Bool)
  | testWord (lock : ℒ) (flags : Bool) (word : BitVec 32)
  | stxr (lock : ℒ) (flags : Bool)
  | testStatus (lock : ℒ) (flags : Bool) (status : BitVec 32)
  | msr (flags : Bool)
deriving DecidableEq

/-- The store-exclusive has taken the lock. -/
def IrqPlace.Takes {ℒ : Type} (p : IrqPlace ℒ) (l : ℒ) : Prop := ∃ flags, p = .testStatus l flags 0

/-- A task or an interrupt handler: the locks it has, each with the flags saved when it was taken, the
last one first; the instruction it is at; and what is left of its call. -/
structure IrqThread (ℒ : Type) where
  frames : List (ℒ × Bool)
  place : IrqPlace ℒ
  code : List (Bracket ℒ)
deriving DecidableEq

/-- One processor and its memory. `masked` is PSTATE.I, in the processor for the thread that is running
and in the saved state of the others. -/
structure IrqCpu (ι ℒ : Type) where
  word : ℒ → BitVec 32
  monitor : Option ℒ
  masked : ι → Bool
  thread : ι → IrqThread ℒ
  current : ι

/-- What happens next: the running thread makes a call or executes an instruction, the exclusive monitor
is lost, or another thread is switched to. -/
inductive IrqAct (ι ℒ : Type)
  | call (code : List (Bracket ℒ))
  | exec
  | lose
  | switch (next : ι)

namespace IrqThread

variable {ℒ : Type}

/-- In no call. -/
def Out (T : IrqThread ℒ) : Prop := T.frames = [] ∧ T.place = .ready ∧ T.code = []

instance [DecidableEq ℒ] (T : IrqThread ℒ) : Decidable T.Out := inferInstanceAs (Decidable (_ ∧ _ ∧ _))

def locks (T : IrqThread ℒ) : List ℒ := T.frames.map Prod.fst

/-- A lock is held from the store-exclusive that succeeds to the `stlr`. -/
def Holds (T : IrqThread ℒ) (l : ℒ) : Prop := l ∈ T.locks ∨ T.place.Takes l

end IrqThread

namespace IrqCpu

variable {ι ℒ : Type} [DecidableEq ι] [DecidableEq ℒ]

def running (s : IrqCpu ι ℒ) : IrqThread ℒ := s.thread s.current

def setRunning (s : IrqCpu ι ℒ) (T : IrqThread ℒ) : IrqCpu ι ℒ :=
  { s with thread := Function.update s.thread s.current T }

def goto (s : IrqCpu ι ℒ) (p : IrqPlace ℒ) : IrqCpu ι ℒ := s.setRunning { s.running with place := p }

def setMask (s : IrqCpu ι ℒ) (b : Bool) : IrqCpu ι ℒ :=
  { s with masked := Function.update s.masked s.current b }

def setWord (s : IrqCpu ι ℒ) (l : ℒ) (v : BitVec 32) : IrqCpu ι ℒ :=
  { s with word := Function.update s.word l v }

/-- The running thread executes an instruction. It has none to execute in no call. -/
def exec (s : IrqCpu ι ℒ) : Option (IrqCpu ι ℒ) :=
  match s.running.place with
  | .ready =>
      match s.running.code with
      | [] => none
      | .enter l :: code =>
          -- mrs flags, daif
          some (s.setRunning { s.running with place := .daifset l (s.masked s.current), code := code })
      | .leave :: code =>
          match s.running.frames with
          | [] => none
          | (l, flags) :: frames => some ((s.setWord l 0).setRunning ⟨frames, .msr flags, code⟩)
  | .daifset l flags => some ((s.setMask true).goto (.ldaxr l flags))
  | .ldaxr l flags => some ({ s with monitor := some l }.goto (.testWord l flags (s.word l)))
  | .testWord l flags w => some (s.goto (if w ≠ 0 then .ldaxr l flags else .stxr l flags))
  | .stxr l flags =>
      if s.monitor = some l
      then some (({ s with monitor := none }.setWord l 1).goto (.testStatus l flags 0))
      else some ({ s with monitor := none }.goto (.testStatus l flags 1))
  | .testStatus l flags st =>
      if st ≠ 0 then some (s.goto (.ldaxr l flags))
      else some (s.setRunning { s.running with frames := (l, flags) :: s.running.frames, place := .ready })
  | .msr flags => some ((s.setMask flags).goto .ready)

def step (s : IrqCpu ι ℒ) : IrqAct ι ℒ → Option (IrqCpu ι ℒ)
  | .call code => some (s.setRunning { s.running with code := code })
  | .exec => s.exec
  | .lose => some { s with monitor := none }
  | .switch u => some { s with current := u }

/-- Free locks, and no thread in a call. -/
def start (mask : ι → Bool) (t : ι) : IrqCpu ι ℒ := ⟨fun _ => 0, none, mask, fun _ => ⟨[], .ready, []⟩, t⟩

end IrqCpu

section Nesting

variable {ℒ : Type} (rank : ℒ → Nat)

/-- Sections nest, each lock below those that are held: what is to follow while `held` are. -/
def Nests : List ℒ → List (Bracket ℒ) → Prop
  | held, [] => held = []
  | held, .enter l :: code => (∀ h ∈ held, rank l < rank h) ∧ Nests (l :: held) code
  | [], .leave :: _ => False
  | _ :: held, .leave :: code => Nests held code

end Nesting

namespace IrqCpu

variable {ι ℒ : Type} (rank : ℒ → Nat)

/-- Calls are made where the thread is in none, and nest. A thread is switched from by an interrupt,
where these are not masked, or of its own accord, in no call. -/
def Allowed (s : IrqCpu ι ℒ) : IrqAct ι ℒ → Prop
  | .call code => s.running.Out ∧ Nests rank [] code
  | .switch _ => s.masked s.current = false ∨ s.running.Out
  | .exec | .lose => True

/-! ## What a thread looks like -/

/-- Whether interrupts are masked outside the innermost section, if they are masked as `base` says
outside all. -/
def outer (base : Bool) (frames : List (ℒ × Bool)) : Bool := if frames.isEmpty then base else true

/-- The flags saved with each lock are those of the sections around, whose locks are above it. -/
def Saved (base : Bool) : List (ℒ × Bool) → Prop
  | [] => True
  | (l, flags) :: frames => flags = outer base frames ∧
      (∀ h ∈ frames.map Prod.fst, rank l < rank h) ∧ Saved base frames

/-- A place fits the mask, the locks and the rest of the call of a thread that is there. -/
def Fits (base mask : Bool) (frames : List (ℒ × Bool)) (code : List (Bracket ℒ)) : IrqPlace ℒ → Prop
  | .ready => mask = outer base frames ∧ Nests rank (frames.map Prod.fst) code
  | .daifset l flags => mask = outer base frames ∧ flags = outer base frames ∧
      Nests rank (frames.map Prod.fst) (.enter l :: code)
  | .ldaxr l flags | .testWord l flags _ | .stxr l flags | .testStatus l flags _ =>
      mask = true ∧ flags = outer base frames ∧ Nests rank (frames.map Prod.fst) (.enter l :: code)
  | .msr flags => mask = true ∧ flags = outer base frames ∧ Nests rank (frames.map Prod.fst) code

/-- No lock, and not in the instructions that are executed with interrupts masked for one. -/
def Lockless (T : IrqThread ℒ) : Prop :=
  T.frames = [] ∧ (T.place = .ready ∨ ∃ l flags, T.place = .daifset l flags)

/-- Whoever is not running has no lock, whoever runs has those that are taken, and the word last read of
a lock that is being taken is 0. -/
structure Inv (base : ι → Bool) (s : IrqCpu ι ℒ) : Prop where
  saved : ∀ t, Saved rank (base t) (s.thread t).frames
  fits : ∀ t, Fits rank (base t) (s.masked t) (s.thread t).frames (s.thread t).code (s.thread t).place
  others : ∀ t, t ≠ s.current → Lockless (s.thread t)
  words : ∀ l, s.word l = 0 ↔ ¬ s.running.Holds l
  read : ∀ l flags w, s.running.place = .testWord l flags w → w = 0

variable {rank} {base : ι → Bool} {s s' : IrqCpu ι ℒ}

theorem Inv.here (h : Inv rank base s) : Fits rank (base s.current) (s.masked s.current)
    s.running.frames s.running.code s.running.place := h.fits s.current

variable {l : ℒ} {p : IrqPlace ℒ} {code : List (Bracket ℒ)} {flags : Bool}
  {frames : List (ℒ × Bool)}

/-- The lock that is being taken is free. -/
theorem Inv.free (h : Inv rank base s) (hno : ¬ s.running.place.Takes l)
    (habove : ∀ h ∈ s.running.locks, rank l < rank h) : s.word l = 0 := by
  refine (h.words l).mpr ?_
  rintro (hmem | htakes)
  · exact Nat.lt_irrefl _ (habove l hmem)
  · exact hno htakes

theorem not_takes (h : ∀ l flags, p ≠ .testStatus l flags 0) (l : ℒ) : ¬ p.Takes l :=
  fun ⟨flags, hp⟩ => h l flags hp

/-- A thread that may be switched from has no lock. -/
theorem Inv.lockless (h : Inv rank base s) (hok : s.masked s.current = false ∨ s.running.Out) :
    Lockless s.running := by
  rcases hok with hmask | hout
  · have hfits := h.here
    rw [hmask] at hfits
    have hframes : ∀ {b : Bool}, false = outer b s.running.frames → s.running.frames = [] := by
      intro b hb
      cases hf : s.running.frames with
      | nil => rfl
      | cons frame frames => simp [outer, hf] at hb
    -- with interrupts unmasked only two places are left
    cases hp : s.running.place with
    | ready =>
        rw [hp] at hfits
        exact ⟨hframes hfits.1, .inl hp⟩
    | daifset l flags =>
        rw [hp] at hfits
        exact ⟨hframes hfits.1, .inr ⟨l, flags, hp⟩⟩
    | ldaxr | testWord | stxr | testStatus | msr => simp [hp, Fits] at hfits
  · exact ⟨hout.1, .inl hout.2.1⟩

theorem Lockless.not_holds {T : IrqThread ℒ} (h : Lockless T) (l : ℒ) : ¬ T.Holds l := by
  rintro (hmem | ⟨flags, hp⟩)
  · simp [IrqThread.locks, h.1] at hmem
  · rcases h.2 with hready | ⟨l', flags', hset⟩
    · simp [hready] at hp
    · simp [hset] at hp

/-- Whoever has a lock runs, with interrupts masked. -/
theorem Inv.holder (h : Inv rank base s) {t : ι} (hold : (s.thread t).Holds l) :
    t = s.current ∧ s.masked t = true := by
  have hcur : t = s.current := by
    by_contra hne
    exact (h.others t hne).not_holds l hold
  refine ⟨hcur, ?_⟩
  by_contra hmask
  rw [hcur] at hold hmask
  exact (h.lockless (.inl (Bool.eq_false_of_not_eq_true hmask))).not_holds l hold

theorem Inv.masked_out (h : Inv rank base s) {t : ι} (hout : (s.thread t).Out) : s.masked t = base t := by
  have hfits := h.fits t
  rw [hout.1, hout.2.1] at hfits
  exact hfits.1

theorem inv_start (base : ι → Bool) (t : ι) : Inv rank base (start base t : IrqCpu ι ℒ) := by
  refine ⟨fun _ => trivial, fun _ => ⟨rfl, rfl⟩, fun _ _ => ⟨rfl, .inl rfl⟩, fun l => ?_, ?_⟩
  · simp [start, running, IrqThread.Holds, IrqThread.locks, IrqPlace.Takes]
  · simp [start, running]

/-! ## What a step keeps -/

variable [DecidableEq ι]

@[simp] theorem running_setRunning (s : IrqCpu ι ℒ) (T : IrqThread ℒ) : (s.setRunning T).running = T := by
  simp [running, setRunning]

@[simp] theorem running_goto (s : IrqCpu ι ℒ) (p : IrqPlace ℒ) :
    (s.goto p).running = { s.running with place := p } := running_setRunning s _

/-- A step of the running thread: what is to be shown of it alone. -/
theorem Inv.update (h : Inv rank base s) (hcur : s'.current = s.current)
    (hthread : ∀ t, t ≠ s.current → s'.thread t = s.thread t)
    (hmask : ∀ t, t ≠ s.current → s'.masked t = s.masked t)
    (hsaved : Saved rank (base s.current) s'.running.frames)
    (hfits : Fits rank (base s.current) (s'.masked s.current) s'.running.frames s'.running.code
      s'.running.place)
    (hwords : ∀ l, s'.word l = 0 ↔ ¬ s'.running.Holds l)
    (hread : ∀ l flags w, s'.running.place = .testWord l flags w → w = 0) : Inv rank base s' := by
  have hrun : s'.thread s.current = s'.running := congrArg s'.thread hcur.symm
  refine ⟨fun t => ?_, fun t => ?_, fun t ht => ?_, hwords, hread⟩
  · by_cases ht : t = s.current
    · rw [ht, hrun]
      exact hsaved
    · rw [hthread t ht]
      exact h.saved t
  · by_cases ht : t = s.current
    · rw [ht, hrun]
      exact hfits
    · rw [hthread t ht, hmask t ht]
      exact h.fits t
  · rw [hcur] at ht
    rw [hthread t ht]
    exact h.others t ht

/-- A step to a place `p` by which no lock is taken or given back. -/
theorem Inv.moves (h : Inv rank base s) (hold : ∀ l, ¬ s.running.place.Takes l)
    (hcur : s'.current = s.current) (hthread : ∀ t, t ≠ s.current → s'.thread t = s.thread t)
    (hmask : ∀ t, t ≠ s.current → s'.masked t = s.masked t) (hword : s'.word = s.word)
    (hrun : s'.running = ⟨s.running.frames, p, code⟩) (hnew : ∀ l, ¬ p.Takes l)
    (hfits : Fits rank (base s.current) (s'.masked s.current) s.running.frames code p)
    (hread : ∀ l flags w, p = .testWord l flags w → w = 0) : Inv rank base s' := by
  refine h.update hcur hthread hmask ?_ ?_ ?_ ?_
  · rw [hrun]
    exact h.saved s.current
  · rw [hrun]
    exact hfits
  · intro l
    calc s'.word l = 0 ↔ s.word l = 0 := by rw [hword]
      _ ↔ ¬ s.running.Holds l := h.words l
      _ ↔ ¬ s'.running.Holds l := by
        rw [hrun]
        simp [IrqThread.Holds, IrqThread.locks, hold l, hnew l]
  · rw [hrun]
    exact hread

theorem Inv.goes (h : Inv rank base s) (m : Option ℒ) (hold : ∀ l, ¬ s.running.place.Takes l)
    (hnew : ∀ l, ¬ p.Takes l)
    (hfits : Fits rank (base s.current) (s.masked s.current) s.running.frames s.running.code p)
    (hread : ∀ l flags w, p = .testWord l flags w → w = 0) :
    Inv rank base ({ s with monitor := m }.goto p) :=
  h.moves hold rfl (fun _ ht => Function.update_of_ne ht _ _) (fun _ _ => rfl) rfl (running_goto _ _) hnew
    hfits hread

/-- The lock that was taken becomes the last one of the frames. -/
theorem Inv.taken (h : Inv rank base s) (hp : s.running.place = .testStatus l flags 0) :
    Inv rank base (s.setRunning ⟨(l, flags) :: s.running.frames, .ready, s.running.code⟩) := by
  have hfits := h.here
  rw [hp] at hfits
  obtain ⟨hmask, hflags, habove, hnests⟩ := hfits
  refine h.update rfl (fun t ht => Function.update_of_ne ht _ _) (fun _ _ => rfl) ?_ ?_ ?_ ?_
  · rw [running_setRunning]
    exact ⟨hflags, habove, h.saved s.current⟩
  · rw [running_setRunning]
    exact ⟨hmask, hnests⟩
  · intro l'
    rw [running_setRunning]
    show s.word l' = 0 ↔ _
    rw [h.words l']
    simp [IrqThread.Holds, IrqThread.locks, IrqPlace.Takes, hp, or_comm, eq_comm]
  · rw [running_setRunning]
    simp

/-- Between two threads without locks. -/
theorem Inv.switch (h : Inv rank base s) (hok : s.masked s.current = false ∨ s.running.Out) (u : ι) :
    Inv rank base { s with current := u } := by
  have hall : ∀ t, Lockless (s.thread t) := by
    intro t
    by_cases ht : t = s.current
    · rw [ht]
      exact h.lockless hok
    · exact h.others t ht
  refine ⟨h.saved, h.fits, fun t _ => hall t, fun l => ?_, fun l flags w hp => ?_⟩
  · have hnew : ¬ (s.thread u).Holds l := (hall u).not_holds l
    have hold : ¬ s.running.Holds l := (hall s.current).not_holds l
    exact ⟨fun _ => hnew, fun _ => (h.words l).mpr hold⟩
  · have hp' : (s.thread u).place = .testWord l flags w := hp
    rcases (hall u).2 with hready | ⟨l', flags', hset⟩
    · simp [hready] at hp'
    · simp [hset] at hp'

variable [DecidableEq ℒ]

section Exec

variable {l : ℒ} {flags : Bool}

theorem exec_enter (hp : s.running.place = .ready) (hc : s.running.code = .enter l :: code) :
    s.exec = some (s.setRunning ⟨s.running.frames, .daifset l (s.masked s.current), code⟩) := by
  rw [exec, hp, hc]

theorem exec_leave (hp : s.running.place = .ready) (hc : s.running.code = .leave :: code)
    (hf : s.running.frames = (l, flags) :: frames) :
    s.exec = some ((s.setWord l 0).setRunning ⟨frames, .msr flags, code⟩) := by
  rw [exec, hp, hc, hf]

theorem exec_daifset (hp : s.running.place = .daifset l flags) :
    s.exec = some ((s.setMask true).goto (.ldaxr l flags)) := by
  rw [exec, hp]

theorem exec_ldaxr (hp : s.running.place = .ldaxr l flags) :
    s.exec = some ({ s with monitor := some l }.goto (.testWord l flags (s.word l))) := by
  rw [exec, hp]

theorem exec_testWord (hp : s.running.place = .testWord l flags 0) :
    s.exec = some (s.goto (.stxr l flags)) := by
  rw [exec, hp]
  rfl

theorem exec_stxr (hp : s.running.place = .stxr l flags) (hm : s.monitor = some l) :
    s.exec = some (({ s with monitor := none }.setWord l 1).goto (.testStatus l flags 0)) := by
  rw [exec, hp]
  exact if_pos hm

theorem exec_taken (hp : s.running.place = .testStatus l flags 0) :
    s.exec = some (s.setRunning ⟨(l, flags) :: s.running.frames, .ready, s.running.code⟩) := by
  rw [exec, hp]
  rfl

theorem exec_msr (hp : s.running.place = .msr flags) :
    s.exec = some ((s.setMask flags).goto .ready) := by
  rw [exec, hp]

end Exec

/-- Taking the lock: the word is 1 now. -/
theorem Inv.takes (h : Inv rank base s) (hp : s.running.place = .stxr l flags) :
    Inv rank base (({ s with monitor := none }.setWord l 1).goto (.testStatus l flags 0)) := by
  have hfits := h.here
  rw [hp] at hfits
  refine h.update rfl (fun t ht => Function.update_of_ne ht _ _) (fun _ _ => rfl) ?_ ?_ ?_ ?_
  · rw [running_goto]
    exact h.saved s.current
  · rw [running_goto]
    exact hfits
  · intro l'
    have hold := h.words l'
    rw [running_goto]
    show Function.update s.word l 1 l' = 0 ↔
      ¬ (l' ∈ s.running.locks ∨ IrqPlace.Takes (.testStatus l flags 0) l')
    by_cases hl : l' = l
    · subst hl
      simp [IrqPlace.Takes]
    · rw [Function.update_of_ne hl, hold]
      simp [IrqThread.Holds, IrqPlace.Takes, hp, Ne.symm hl]
  · rw [running_goto]
    simp

/-- Giving the lock taken last back. -/
theorem Inv.gives (h : Inv rank base s) (hp : s.running.place = .ready)
    (hc : s.running.code = .leave :: code) (hf : s.running.frames = (l, flags) :: frames) :
    Inv rank base ((s.setWord l 0).setRunning ⟨frames, .msr flags, code⟩) := by
  have hfits := h.here
  have hsaved : Saved rank (base s.current) s.running.frames := h.saved s.current
  rw [hp, hc, hf] at hfits
  rw [hf] at hsaved
  obtain ⟨hmask, hnests⟩ := hfits
  obtain ⟨hflags, habove, hsaved⟩ := hsaved
  refine h.update rfl (fun t ht => Function.update_of_ne ht _ _) (fun _ _ => rfl) ?_ ?_ ?_ ?_
  · rw [running_setRunning]
    exact hsaved
  · rw [running_setRunning]
    exact ⟨hmask, hflags, hnests⟩
  · intro l'
    have hold := h.words l'
    rw [running_setRunning]
    show Function.update s.word l 0 l' = 0 ↔ ¬ (l' ∈ frames.map Prod.fst ∨ IrqPlace.Takes (.msr flags) l')
    by_cases hl : l' = l
    · -- the locks still held are above it
      subst hl
      have hnot : l' ∉ frames.map Prod.fst := fun hmem => Nat.lt_irrefl _ (habove l' hmem)
      simpa [IrqPlace.Takes] using hnot
    · rw [Function.update_of_ne hl, hold]
      simp [IrqThread.Holds, IrqThread.locks, IrqPlace.Takes, hp, hf, hl]
  · rw [running_setRunning]
    simp

/-- An instruction. -/
theorem Inv.exec (h : Inv rank base s) (hs : s.exec = some s') : Inv rank base s' := by
  have hfits := h.here
  have hsame : ∀ (T : IrqThread ℒ) t, t ≠ s.current →
      Function.update s.thread s.current T t = s.thread t := fun _ _ ht => Function.update_of_ne ht _ _
  have hmasks : ∀ (b : Bool) t, t ≠ s.current →
      Function.update s.masked s.current b t = s.masked t := fun _ _ ht => Function.update_of_ne ht _ _
  have hown : ∀ b, Function.update s.masked s.current b s.current = b := fun b =>
    Function.update_self s.current b s.masked
  cases hp : s.running.place with
  | ready =>
      rw [hp] at hfits
      obtain ⟨hmask, hnests⟩ := hfits
      cases hc : s.running.code with
      | nil => simp [IrqCpu.exec, hp, hc] at hs
      | cons x code =>
          rw [hc] at hnests
          cases x with
          | enter l =>
              rw [exec_enter hp hc] at hs
              obtain rfl := Option.some.inj hs
              exact h.moves (not_takes (by simp [hp])) rfl (hsame _) (fun _ _ => rfl) rfl
                (running_setRunning _ _) (not_takes (by simp)) ⟨hmask, hmask, hnests⟩ (by simp)
          | leave =>
              cases hf : s.running.frames with
              | nil => simp [IrqCpu.exec, hp, hc, hf] at hs
              | cons frame frames =>
                  rw [exec_leave hp hc hf] at hs
                  obtain rfl := Option.some.inj hs
                  exact h.gives hp hc hf
  | daifset l flags =>
      rw [hp] at hfits
      obtain ⟨-, hflags, hnests⟩ := hfits
      rw [exec_daifset hp] at hs
      obtain rfl := Option.some.inj hs
      exact h.moves (not_takes (by simp [hp])) rfl (hsame _) (hmasks true) rfl (running_goto _ _)
        (not_takes (by simp)) ⟨hown true, hflags, hnests⟩ (by simp)
  | ldaxr l flags =>
      rw [hp] at hfits
      have hold : ∀ l, ¬ s.running.place.Takes l := not_takes (by simp [hp])
      rw [exec_ldaxr hp] at hs
      obtain rfl := Option.some.inj hs
      refine h.goes (some l) hold (not_takes (by simp)) hfits ?_
      intro l' flags' w heq
      obtain ⟨-, -, rfl⟩ := IrqPlace.testWord.inj heq
      exact h.free (hold l) hfits.2.2.1
  | testWord l flags w =>
      obtain rfl := h.read l flags w hp
      rw [hp] at hfits
      rw [exec_testWord hp] at hs
      obtain rfl := Option.some.inj hs
      exact h.goes s.monitor (not_takes (by simp [hp])) (not_takes (by simp)) hfits (by simp)
  | stxr l flags =>
      by_cases hm : s.monitor = some l
      · rw [exec_stxr hp hm] at hs
        obtain rfl := Option.some.inj hs
        exact h.takes hp
      · rw [hp] at hfits
        simp only [IrqCpu.exec, hp, if_neg hm] at hs
        obtain rfl := Option.some.inj hs
        exact h.goes none (not_takes (by simp [hp])) (not_takes (by simp)) hfits (by simp)
  | testStatus l flags st =>
      by_cases hst : st = 0
      · subst hst
        rw [exec_taken hp] at hs
        obtain rfl := Option.some.inj hs
        exact h.taken hp
      · rw [hp] at hfits
        simp only [IrqCpu.exec, hp, if_pos (Ne.intro hst)] at hs
        obtain rfl := Option.some.inj hs
        have hold : ∀ l flags, s.running.place ≠ .testStatus l flags 0 := fun _ _ hc =>
          hst (IrqPlace.testStatus.inj (hp.symm.trans hc)).2.2
        exact h.goes s.monitor (not_takes hold) (not_takes (by simp)) hfits (by simp)
  | msr flags =>
      rw [hp] at hfits
      obtain ⟨-, hflags, hnests⟩ := hfits
      rw [exec_msr hp] at hs
      obtain rfl := Option.some.inj hs
      exact h.moves (not_takes (by simp [hp])) rfl (hsame _) (hmasks flags) rfl (running_goto _ _)
        (not_takes (by simp)) ⟨(hown flags).trans hflags, hnests⟩ (by simp)

theorem Inv.step (h : Inv rank base s) {a : IrqAct ι ℒ} (hok : s.Allowed rank a)
    (hs : s.step a = some s') : Inv rank base s' := by
  cases a with
  | call code =>
      obtain rfl := Option.some.inj hs
      obtain ⟨⟨hframes, hplace, -⟩, hnests⟩ := hok
      have hfits := h.here
      rw [hplace, hframes] at hfits
      have hready : ∀ l, ¬ s.running.place.Takes l := not_takes (by simp [hplace])
      refine h.moves hready rfl (fun t ht => Function.update_of_ne ht _ _) (fun _ _ => rfl) rfl
        (running_setRunning _ _) hready ?_ (by simp [hplace])
      rw [hplace, hframes]
      exact ⟨hfits.1, hnests⟩
  | exec => exact h.exec hs
  | lose =>
      obtain rfl := Option.some.inj hs
      exact ⟨h.saved, h.fits, h.others, h.words, h.read⟩
  | switch u =>
      obtain rfl := Option.some.inj hs
      exact h.switch hok u

/-! ## Calls come to an end -/

/-- Let the running thread execute `n` instructions. -/
def execs : Nat → IrqCpu ι ℒ → Option (IrqCpu ι ℒ)
  | 0, s => some s
  | n + 1, s => s.exec.bind (execs n)

theorem execs_add (m n : Nat) (s : IrqCpu ι ℒ) : execs (m + n) s = (execs m s).bind (execs n) := by
  induction m generalizing s with
  | zero => simp [execs]
  | succ m ih =>
      rw [Nat.succ_add, execs, execs, Option.bind_assoc]
      exact congrArg _ (funext ih)

theorem Inv.execs {n : Nat} (h : Inv rank base s) (hs : execs n s = some s') : Inv rank base s' := by
  induction n generalizing s with
  | zero =>
      obtain rfl := Option.some.inj hs
      exact h
  | succ n ih =>
      obtain ⟨s₁, hs₁, hs⟩ := Option.bind_eq_some_iff.mp hs
      exact ih (h.exec hs₁) hs

/-- `spinlock_lock_irqsave` takes six instructions. -/
theorem Inv.execs_enter (h : Inv rank base s) (hp : s.running.place = .ready)
    (hc : s.running.code = .enter l :: code) :
    ∃ s', IrqCpu.execs 6 s = some s' ∧ s'.current = s.current ∧
      s'.running = ⟨(l, s.masked s.current) :: s.running.frames, .ready, code⟩ := by
  have hfits := h.here
  rw [hp, hc] at hfits
  have hword : s.word l = 0 := h.free (not_takes (by simp [hp]) l) hfits.2.1
  -- mrs and msr, then the load-exclusive, which finds 0, and the store-exclusive
  set s₁ := s.setRunning ⟨s.running.frames, .daifset l (s.masked s.current), code⟩
  have h₁ : s₁.running = ⟨s.running.frames, .daifset l (s.masked s.current), code⟩ := running_setRunning _ _
  set s₂ := (s₁.setMask true).goto (.ldaxr l (s.masked s.current))
  have h₂ : s₂.running = { s₁.running with place := .ldaxr l (s.masked s.current) } := running_goto _ _
  set s₃ := { s₂ with monitor := some l }.goto (.testWord l (s.masked s.current) (s₂.word l))
  have h₃ : s₃.running = { s₂.running with place := .testWord l (s.masked s.current) 0 } := by
    rw [← hword]
    exact running_goto _ _
  set s₄ := s₃.goto (.stxr l (s.masked s.current))
  have h₄ : s₄.running = { s₃.running with place := .stxr l (s.masked s.current) } := running_goto _ _
  set s₅ := ({ s₄ with monitor := none }.setWord l 1).goto (.testStatus l (s.masked s.current) 0)
  have h₅ : s₅.running = { s₄.running with place := .testStatus l (s.masked s.current) 0 } :=
    running_goto _ _
  refine ⟨s₅.setRunning ⟨(l, s.masked s.current) :: s₅.running.frames, .ready, s₅.running.code⟩, ?_, rfl,
    ?_⟩
  · simp only [IrqCpu.execs]
    rw [exec_enter hp hc, Option.bind_some, exec_daifset (congrArg IrqThread.place h₁), Option.bind_some,
      exec_ldaxr (congrArg IrqThread.place h₂), Option.bind_some,
      exec_testWord (congrArg IrqThread.place h₃), Option.bind_some,
      exec_stxr (congrArg IrqThread.place h₄) rfl, Option.bind_some,
      exec_taken (congrArg IrqThread.place h₅), Option.bind_some]
  · rw [running_setRunning, h₅, h₄, h₃, h₂, h₁]

/-- `spinlock_unlock_irqrestore` takes two. -/
theorem execs_leave (hp : s.running.place = .ready) (hc : s.running.code = .leave :: code)
    (hf : s.running.frames = (l, flags) :: frames) :
    ∃ s', IrqCpu.execs 2 s = some s' ∧ s'.current = s.current ∧ s'.running = ⟨frames, .ready, code⟩ := by
  set s₁ := (s.setWord l 0).setRunning ⟨frames, .msr flags, code⟩
  have h₁ : s₁.running = ⟨frames, .msr flags, code⟩ := running_setRunning _ _
  refine ⟨(s₁.setMask flags).goto .ready, ?_, rfl, ?_⟩
  · simp only [execs]
    rw [exec_leave hp hc hf, Option.bind_some, exec_msr (congrArg IrqThread.place h₁), Option.bind_some]
  · rw [running_goto]
    exact congrArg (fun T : IrqThread ℒ => { T with place := .ready }) h₁

/-- Left alone, a call is over after six instructions for each bracket at most. -/
theorem Inv.finishes (h : Inv rank base s) (hp : s.running.place = .ready) :
    ∃ n ≤ 6 * s.running.code.length, ∃ s', IrqCpu.execs n s = some s' ∧ s'.current = s.current ∧
      s'.running.Out := by
  generalize hc : s.running.code = code
  induction code generalizing s with
  | nil =>
      have hfits := h.here
      rw [hp, hc] at hfits
      exact ⟨0, Nat.zero_le _, s, rfl, rfl, List.map_eq_nil_iff.mp hfits.2, hp, hc⟩
  | cons x code ih =>
      have hstep : ∃ k ≤ 6, ∃ s₁, IrqCpu.execs k s = some s₁ ∧ s₁.current = s.current ∧
          s₁.running.place = .ready ∧ s₁.running.code = code := by
        cases x with
        | enter l =>
            obtain ⟨s₁, hs₁, hcur, hrun⟩ := h.execs_enter hp hc
            exact ⟨6, Nat.le_refl 6, s₁, hs₁, hcur, by rw [hrun], by rw [hrun]⟩
        | leave =>
            cases hf : s.running.frames with
            | nil =>
                have hfits := h.here
                rw [hp, hc, hf] at hfits
                exact hfits.2.elim
            | cons frame frames =>
                obtain ⟨s₁, hs₁, hcur, hrun⟩ := execs_leave hp hc hf
                exact ⟨2, by omega, s₁, hs₁, hcur, by rw [hrun], by rw [hrun]⟩
      obtain ⟨k, hk, s₁, hs₁, hcur₁, hp₁, hc₁⟩ := hstep
      obtain ⟨n, hn, s', hs', hcur, hout⟩ := ih (h.execs hs₁) hp₁ hc₁
      refine ⟨k + n, by rw [List.length_cons]; omega, s', ?_, hcur.trans hcur₁, hout⟩
      rw [execs_add, hs₁]
      exact hs'

end IrqCpu

/-! ## The calls of the kernel -/

inductive KLock
  | vmalloc
  | vmm
  | pmm
  | klog
deriving DecidableEq

/-- `pmm_lock` is taken under `vmm_lock`, and `klog_lock` under any other lock. -/
def KLock.rank : KLock → Nat
  | vmalloc => 3
  | vmm => 2
  | pmm => 1
  | klog => 0

def locked (l : KLock) (inner : List (Bracket KLock)) : List (Bracket KLock) :=
  .enter l :: (inner ++ [.leave])

/-- `log_write_str`, with the lock if the message is stored. -/
def logWriteStr (stored : Bool) : List (Bracket KLock) := if stored then locked .klog [] else []

/-- `mmu_map_page`, with `alloc_table` called for so many levels. -/
def mmuMapPage (tables : Nat) : List (Bracket KLock) := (List.replicate tables (locked .pmm [])).flatten

/-- The functions that take these locks. `stored` says of each message whether it is stored, `tables` of
each page how many tables it needs. -/
inductive KCall
  | logWriteStr (stored : Bool)
  | logRead
  | pmmAllocRun
  | pmmFreePages (stored : List Bool)
  | pmmTotalPages
  | pmmFreePagesCount
  | pmmCheck (stored : List Bool)
  | vmmMap (tables : List Nat)
  | vmmUnmap
  | vmmProtect
  | vmmDump (stored : List Bool)
  | vmmVirtToPhys
  | mmuMapRegion (tables : List Nat)
  | findFreeSpace
  | addFreeSpace
  | vmallocStats (stored : Bool)

def KCall.code : KCall → List (Bracket KLock)
  | logWriteStr stored => Arcline.logWriteStr stored
  | logRead => locked .klog []
  | pmmAllocRun | pmmTotalPages | pmmFreePagesCount => locked .pmm []
  | pmmFreePages stored | pmmCheck stored => locked .pmm (stored.flatMap Arcline.logWriteStr)
  | vmmMap tables => locked .vmm (tables.flatMap mmuMapPage)
  | vmmUnmap | vmmProtect | vmmVirtToPhys => locked .vmm []
  | vmmDump stored => locked .vmm (stored.flatMap Arcline.logWriteStr)
  | mmuMapRegion tables => tables.flatMap mmuMapPage
  | findFreeSpace | addFreeSpace => locked .vmalloc []
  | vmallocStats stored => locked .vmalloc (Arcline.logWriteStr stored)

/-- What may be done while `held` are, before any rest. -/
def Balanced (held : List KLock) (code : List (Bracket KLock)) : Prop :=
  ∀ rest, Nests KLock.rank held rest → Nests KLock.rank held (code ++ rest)

theorem balanced_nil (held : List KLock) : Balanced held [] := fun _ h => h

theorem Balanced.locked {held : List KLock} {l : KLock} {inner : List (Bracket KLock)}
    (habove : ∀ h ∈ held, l.rank < h.rank) (hinner : Balanced (l :: held) inner) :
    Balanced held (locked l inner) := by
  intro rest hrest
  rw [Arcline.locked, List.cons_append, List.append_assoc]
  exact ⟨habove, hinner _ hrest⟩

theorem balanced_flatMap {α : Type} {held : List KLock} {f : α → List (Bracket KLock)} {xs : List α}
    (h : ∀ x ∈ xs, Balanced held (f x)) : Balanced held (xs.flatMap f) := by
  induction xs with
  | nil => exact balanced_nil held
  | cons x xs ih =>
      intro rest hrest
      rw [List.flatMap_cons, List.append_assoc]
      exact h x List.mem_cons_self _ (ih (fun y hy => h y (List.mem_cons_of_mem x hy)) rest hrest)

theorem balanced_logWriteStr {held : List KLock} (habove : ∀ h ∈ held, KLock.klog.rank < h.rank)
    (stored : Bool) : Balanced held (logWriteStr stored) := by
  cases stored with
  | false => exact balanced_nil held
  | true => exact .locked habove (balanced_nil _)

theorem balanced_mmuMapPage {held : List KLock} (habove : ∀ h ∈ held, KLock.pmm.rank < h.rank)
    (tables : Nat) : Balanced held (mmuMapPage tables) := by
  induction tables with
  | zero => exact balanced_nil held
  | succ n ih =>
      intro rest hrest
      rw [mmuMapPage, List.replicate_succ, List.flatten_cons, List.append_assoc]
      exact Balanced.locked habove (balanced_nil _) _ (ih rest hrest)

theorem KCall.nests (c : KCall) : Nests KLock.rank [] c.code := by
  suffices h : Balanced [] c.code by
    have hnests := h [] rfl
    rwa [List.append_nil] at hnests
  have hnone : ∀ l : KLock, ∀ h ∈ ([] : List KLock), l.rank < h.rank :=
    fun _ _ h => absurd h List.not_mem_nil
  have hlog : ∀ (l : KLock), KLock.klog.rank < l.rank →
      ∀ stored, Balanced [l] (Arcline.logWriteStr stored) :=
    fun l hl => balanced_logWriteStr (by simpa using hl)
  cases c with
  | logWriteStr stored => exact balanced_logWriteStr (hnone _) stored
  | logRead | pmmAllocRun | pmmTotalPages | pmmFreePagesCount | vmmUnmap | vmmProtect | vmmVirtToPhys
    | findFreeSpace | addFreeSpace => exact .locked (hnone _) (balanced_nil _)
  | pmmFreePages stored | pmmCheck stored =>
      exact .locked (hnone _) (balanced_flatMap fun b _ => hlog .pmm (by decide) b)
  | vmmMap tables =>
      exact .locked (hnone _) (balanced_flatMap fun n _ => balanced_mmuMapPage (by decide) n)
  | vmmDump stored => exact .locked (hnone _) (balanced_flatMap fun b _ => hlog .vmm (by decide) b)
  | mmuMapRegion tables => exact balanced_flatMap fun n _ => balanced_mmuMapPage (hnone _) n
  | vmallocStats stored => exact .locked (hnone _) (hlog .vmalloc (by decide) stored)

namespace IrqCpu

variable {ι : Type} [DecidableEq ι]

/-- Threads call the functions of the kernel. -/
def KernelCalls (s : IrqCpu ι KLock) : IrqAct ι KLock → Prop
  | .call code => s.running.Out ∧ ∃ c : KCall, code = c.code
  | .switch _ => s.masked s.current = false ∨ s.running.Out
  | .exec | .lose => True

omit [DecidableEq ι] in
theorem KernelCalls.allowed {s : IrqCpu ι KLock} {a : IrqAct ι KLock} (h : s.KernelCalls a) :
    s.Allowed KLock.rank a := by
  cases a with
  | call code =>
      obtain ⟨hout, c, rfl⟩ := h
      exact ⟨hout, c.nests⟩
  | exec => exact trivial
  | lose => exact trivial
  | switch u => exact h

/-- **Locks with interrupts masked.** On one processor, wherever interrupts and switches happen:
whoever has one of these locks is running with interrupts masked; whoever takes one finds it free and
does not wait; a thread in no call has its interrupts masked as at the start; and a call that is left
alone is over, with all locks free, after six instructions for each bracket at most. -/
theorem irqsave_uncontended {base : ι → Bool} {t₀ : ι} {s : IrqCpu ι KLock}
    (h : Machine.Reach step KernelCalls (start base t₀) s) :
    (∀ t l, (s.thread t).Holds l → t = s.current ∧ s.masked t = true) ∧
    (∀ l flags w, s.running.place = .testWord l flags w → w = 0) ∧
    (∀ t, (s.thread t).Out → s.masked t = base t) ∧
    (s.running.place = .ready → ∃ n ≤ 6 * s.running.code.length, ∃ s', execs n s = some s' ∧
      s'.current = s.current ∧ s'.running.Out ∧ ∀ l, s'.word l = 0) := by
  have hinv : Inv KLock.rank base s :=
    h.invariant (inv_start base t₀) fun _ _ _ hs hok hstep => hs.step hok.allowed hstep
  refine ⟨fun t l hold => hinv.holder hold, hinv.read, fun t hout => hinv.masked_out hout, fun hp => ?_⟩
  obtain ⟨n, hn, s', hs', hcur, hout⟩ := hinv.finishes hp
  refine ⟨n, hn, s', hs', hcur, hout, fun l => ?_⟩
  have hnot : ¬ s'.running.Holds l := Lockless.not_holds ⟨hout.1, .inl hout.2.1⟩ l
  exact ((hinv.execs hs').words l).mpr hnot

/-- Allowed, with the call one of two. -/
def checkCalls (s : IrqCpu ι KLock) : IrqAct ι KLock → Bool
  | .call code => decide s.running.Out &&
      (code == (KCall.vmmMap [1]).code || code == (KCall.logWriteStr true).code)
  | .switch _ => !s.masked s.current || decide s.running.Out
  | .exec | .lose => true

omit [DecidableEq ι] in
theorem kernelCalls_of_check (s : IrqCpu ι KLock) (a : IrqAct ι KLock) (h : s.checkCalls a = true) :
    s.KernelCalls a := by
  cases a with
  | call code =>
      simp only [checkCalls, Bool.and_eq_true, Bool.or_eq_true, decide_eq_true_eq, beq_iff_eq] at h
      rcases h with ⟨hout, rfl | rfl⟩
      · exact ⟨hout, _, rfl⟩
      · exact ⟨hout, _, rfl⟩
  | exec => exact trivial
  | lose => exact trivial
  | switch u => simpa [checkCalls, KernelCalls] using h

/-- A task is interrupted between `mrs` and `msr` in `vmm_map`, the handler logs a message, and the task
goes on up to the lock of the page allocator. -/
theorem irqsave_uncontended_interrupted :
    ∃ s : IrqCpu Bool KLock, Machine.Reach step KernelCalls (start id false) s ∧
      s.running.code = [.enter .pmm, .leave, .leave] ∧ s.word .vmm = 1 ∧ s.masked false = true ∧
      ∃ n ≤ 18, ∃ s', execs n s = some s' ∧ s'.running.Out ∧ ∀ l, s'.word l = 0 := by
  have hrun : (Machine.runWhile step checkCalls (start id false : IrqCpu Bool KLock)
      ([.call (KCall.vmmMap [1]).code, .exec, .switch true, .call (KCall.logWriteStr true).code] ++
        List.replicate 8 .exec ++ [.switch false] ++ List.replicate 5 .exec)).any
      (fun s => decide (s.running = ⟨[(.vmm, false)], .ready, [.enter .pmm, .leave, .leave]⟩ ∧
        s.current = false ∧ s.word .vmm = 1)) = true := by decide +kernel
  obtain ⟨s, hreach, hs⟩ := Machine.exists_of_runWhile hrun kernelCalls_of_check
  obtain ⟨hthread, hcur, hword⟩ := of_decide_eq_true hs
  obtain ⟨hheld, -, -, hends⟩ := irqsave_uncontended hreach
  have hmasked : s.masked false = true := by
    refine (hheld false .vmm (.inl ?_)).2
    rw [← hcur]
    show KLock.vmm ∈ s.running.locks
    rw [hthread]
    exact List.mem_cons_self
  obtain ⟨n, hn, s', hs', -, hout, hfree⟩ := hends (by rw [hthread])
  rw [hthread] at hn
  exact ⟨s, hreach, by rw [hthread], hword, hmasked, n, hn, s', hs', hout, hfree⟩

end IrqCpu

end Arcline
