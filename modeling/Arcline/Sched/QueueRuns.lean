import Arcline.Run
import Arcline.Sched.RunQueue

set_option autoImplicit false

/-! # Runs of the run queue

The functions of the run queue are called in any order, from `eevdf_init` on. What the queue is for is
said by the list of the waiting tasks in the order in which they came: the next one is the first of
those with the least `vruntime`. The tree and its leftmost pointer give the same answer in every run.
-/

namespace Arcline

namespace Eevdf

/-- A call of the run queue, or a write to a task by the rest of the kernel. -/
inductive Call
  | enqueue (t : Nat)
  | dequeue (t : Nat)
  | updateCurr (t : Nat) (now : Word)
  | setNice (t : Nat) (nice : Int)
  | store (t : Nat) (v : Task)

def call (q : Eevdf) : Call → Option Eevdf
  | .enqueue t => q.enqueue t
  | .dequeue t => q.dequeue t
  | .updateCurr t now => some (q.updateCurr t now)
  | .setNice t nice => some (q.setNice t nice)
  | .store t v => some (q.setTask t v)

/-- Only ready tasks that are not queued are queued, and the rest of the kernel leaves the `vruntime`
and the priority of a queued task alone. -/
def Call.Valid (q : Eevdf) : Call → Prop
  | .enqueue t => (q.task t).state = .ready ∧ q.isQueued t = false
  | .store t v => q.isQueued t = true →
      v.vruntime = (q.task t).vruntime ∧ v.priority = (q.task t).priority
  | _ => True

/-- No queued task is charged. -/
def Call.Unqueued (q : Eevdf) : Call → Prop
  | .updateCurr t _ => q.isQueued t = false
  | _ => True

instance (q : Eevdf) (c : Call) : Decidable (c.Valid q) :=
  match c with
  | .enqueue t => inferInstanceAs (Decidable ((q.task t).state = .ready ∧ q.isQueued t = false))
  | .store t v => inferInstanceAs (Decidable (q.isQueued t = true →
      v.vruntime = (q.task t).vruntime ∧ v.priority = (q.task t).priority))
  | .dequeue _ | .updateCurr _ _ | .setNice _ _ => .isTrue trivial

instance (q : Eevdf) (c : Call) : Decidable (c.Unqueued q) :=
  match c with
  | .updateCurr t _ => inferInstanceAs (Decidable (q.isQueued t = false))
  | .enqueue _ | .dequeue _ | .setNice _ _ | .store _ _ => .isTrue trivial

/-- Pick the next task and take it out, until none is left; with a bound on the steps. -/
def drain : Nat → Eevdf → Option (List Nat × Eevdf)
  | 0, q => some ([], q)
  | steps + 1, q =>
      match q.pickNext with
      | none => some ([], q)
      | some t => (q.dequeue t).bind fun q => (drain steps q).map fun r => (t :: r.1, r.2)

variable {q : Eevdf} {l : List Nat} {a b : Nat}

theorem Queue.drain (h : q.Queue l) {steps : Nat} (hsteps : l.length ≤ steps) :
    ∃ q', drain steps q = some (l, q') ∧ q'.Queue [] := by
  induction l generalizing q steps with
  | nil =>
      cases steps with
      | zero => exact ⟨q, rfl, h⟩
      | succ steps =>
          have hpick : q.pickNext = none := h.pickNext
          refine ⟨q, ?_, h⟩
          rw [Eevdf.drain, hpick]
  | cons a l ih =>
      rcases steps with _ | steps
      · exact absurd hsteps (by simp)
      have hpick : q.pickNext = some a := h.pickNext
      obtain ⟨q₁, hq₁, hqueue, -⟩ := h.dequeue List.mem_cons_self
      rw [List.erase_cons_head] at hqueue
      obtain ⟨q', hq', hempty⟩ := ih hqueue (Nat.le_of_succ_le_succ hsteps)
      refine ⟨q', ?_, hempty⟩
      rw [Eevdf.drain, hpick]
      show (q.dequeue a).bind _ = _
      rw [hq₁, Option.bind_some, hq', Option.map_some]

/-- Ready tasks of nice 0; the third one has run less than the others. -/
def sampleTasks (t : Nat) : Task :=
  { pid := t, state := .ready, priority := 0, timeSlice := 0, vruntime := if t = 3 then 3 else 5,
    context := .zero, kernelStack := 0, pgd := 0, next := none, prev := none }

/-! ## The waiting tasks -/

/-- The run queue and the tasks that wait, in the order in which they came. -/
structure History where
  queue : Eevdf
  waiting : List Nat

namespace History

variable {h h' : History} {c : Call}

/-- A task that finds no free node does not wait. -/
def wait (waiting : List Nat) : Call → List Nat
  | .enqueue t => if waiting.length < nodePoolSize then waiting ++ [t] else waiting
  | .dequeue t => waiting.erase t
  | _ => waiting

def step (h : History) (c : Call) : Option History :=
  (h.queue.call c).map fun q => { queue := q, waiting := wait h.waiting c }

def start (task : Nat → Task) : History where
  queue := init task
  waiting := []

/-- `a` runs before `b`: it has run less, or as long, and came first. -/
def Before (h : History) (a b : Nat) : Prop :=
  (h.queue.task a).vruntime < (h.queue.task b).vruntime ∨
    (h.queue.task a).vruntime = (h.queue.task b).vruntime ∧ [a, b].Sublist h.waiting

/-- The tree holds the waiting tasks `l`, in the order in which they are to run. -/
structure Ordered (h : History) (l : List Nat) : Prop where
  queue : h.queue.Queue l
  perm : l.Perm h.waiting
  before : l.Pairwise h.Before

/-- The order stays where no `vruntime` of a waiting task is changed and no two of them change
places. -/
theorem Ordered.before_congr (ho : h.Ordered l) {l' : List Nat} (hsub : l'.Sublist l)
    (hv : ∀ u ∈ l', (h'.queue.task u).vruntime = (h.queue.task u).vruntime)
    (hw : ∀ u ∈ l', ∀ v ∈ l', [u, v].Sublist h.waiting → [u, v].Sublist h'.waiting) :
    l'.Pairwise h'.Before := by
  refine (ho.before.sublist hsub).imp_of_mem fun {u v} hu hv' huv => ?_
  unfold Before at huv ⊢
  rw [hv u hu, hv v hv']
  exact huv.imp_right fun heq => ⟨heq.1, hw u hu v hv' heq.2⟩

/-- The order with a task that came last, in its place. -/
theorem Ordered.place (ho : h.Ordered l) {w : Word} (ha : a ∉ l)
    (hother : ∀ u, u ≠ a → (h'.queue.task u).vruntime = (h.queue.task u).vruntime)
    (hnew : (h'.queue.task a).vruntime = w) (hwaiting : h'.waiting = h.waiting ++ [a]) :
    (place (fun u => (h.queue.task u).vruntime) l a w).Pairwise h'.Before := by
  have hv : ∀ u ∈ l, (h'.queue.task u).vruntime = (h.queue.task u).vruntime :=
    fun u hu => hother u fun e => ha (e ▸ hu)
  have hl : l.Pairwise h'.Before := by
    refine ho.before_congr (List.Sublist.refl l) hv fun u _ v _ huv => ?_
    rw [hwaiting]
    exact huv.trans (List.sublist_append_left _ _)
  -- those that stay in front have not run longer, and came before
  have hfront : ∀ u ∈ l.filter (fun u => !decide (w < (h.queue.task u).vruntime)),
      u ∈ l ∧ (h.queue.task u).vruntime ≤ w := by
    intro u hu
    obtain ⟨hul, hle⟩ := List.mem_filter.mp hu
    exact ⟨hul, BitVec.not_lt.mp (by simpa using hle)⟩
  have hback : ∀ u ∈ l.filter (fun u => decide (w < (h.queue.task u).vruntime)),
      u ∈ l ∧ w < (h.queue.task u).vruntime := by
    intro u hu
    obtain ⟨hul, hlt⟩ := List.mem_filter.mp hu
    exact ⟨hul, of_decide_eq_true hlt⟩
  rw [Eevdf.place, List.pairwise_append, List.pairwise_cons]
  refine ⟨hl.filter _, ⟨fun u hu => .inl ?_, hl.filter _⟩, fun u hu v hv' => ?_⟩
  · rw [hnew, hv u (hback u hu).1]
    exact (hback u hu).2
  · obtain ⟨hul, hle⟩ := hfront u hu
    rcases List.mem_cons.mp hv' with rfl | hv'
    · unfold Before
      rw [hnew, hv u hul]
      by_cases heq : (h.queue.task u).vruntime = w
      · refine .inr ⟨heq, ?_⟩
        rw [hwaiting]
        exact (List.singleton_sublist.mpr (ho.perm.mem_iff.mp hul)).append (List.Sublist.refl _)
      · refine .inl ?_
        bv_omega
    · refine .inl ?_
      rw [hv u hul, hv v (hback v hv').1]
      have hlt := (hback v hv').2
      bv_omega

/-- **One call** has a result and keeps the order. -/
theorem Ordered.step (ho : h.Ordered l) (hvalid : c.Valid h.queue) (hun : c.Unqueued h.queue) :
    ∃ h' l', h.step c = some h' ∧ h'.Ordered l' := by
  have hnot : ∀ t, h.queue.isQueued t = false → t ∉ l := by
    intro t ht hmem
    rw [ho.queue.isQueued.mpr hmem] at ht
    exact absurd ht (by simp)
  cases c with
  | enqueue t =>
      obtain ⟨hready, hqueued⟩ := hvalid
      have ht := hnot t hqueued
      have hlength : h.waiting.length = l.length := ho.perm.length_eq.symm
      have hother : ∀ (task : Task) (u : Nat), u ≠ t →
          (Function.update h.queue.task t task u).vruntime = (h.queue.task u).vruntime :=
        fun task u hu => by rw [Function.update_of_ne hu]
      by_cases hfree : l.length < nodePoolSize
      · obtain ⟨q', hq', hqueue, htask, -⟩ := ho.queue.enqueue hready ht hfree
        refine ⟨_, _, congrArg (Option.map _) hq', hqueue, ?_, ?_⟩
        · show List.Perm _ (wait h.waiting (.enqueue t))
          rw [wait, hlength, if_pos hfree]
          refine (place_perm _ l t _).trans ?_
          exact (ho.perm.cons t).trans (List.perm_append_singleton t h.waiting).symm
        · refine ho.place ht (fun u hu => ?_) ?_ ?_
          · rw [htask]
            exact hother _ u hu
          · rw [htask, Function.update_self]
            rfl
          · show wait h.waiting (.enqueue t) = _
            rw [wait, hlength, if_pos hfree]
      · have hfull : l.length = nodePoolSize :=
          Nat.le_antisymm ho.queue.length_le (Nat.le_of_not_lt hfree)
        have hwait : wait h.waiting (.enqueue t) = h.waiting := by
          rw [wait, hlength, if_neg hfree]
        refine ⟨_, l, congrArg (Option.map _) (ho.queue.members.enqueue_full hready hfull),
          ho.queue.setTask fun hmem => absurd hmem ht, ?_, ?_⟩
        · rw [hwait]
          exact ho.perm
        · refine ho.before_congr (List.Sublist.refl l) (fun u hu => ?_) fun u _ v _ huv => ?_
          · exact hother _ u fun e => ht (e ▸ hu)
          · rw [hwait]
            exact huv
  | dequeue t =>
      by_cases ht : t ∈ l
      · obtain ⟨q', hq', hqueue, htask, -⟩ := ho.queue.dequeue ht
        refine ⟨_, _, congrArg (Option.map _) hq', hqueue, ho.perm.erase t, ?_⟩
        refine ho.before_congr List.erase_sublist (fun u _ => by rw [htask]) fun u hu v hv huv => ?_
        have hne : ∀ u ∈ l.erase t, u ≠ t := fun u hu => (ho.queue.nodup.mem_erase_iff.mp hu).1
        have herase : [u, v].erase t = [u, v] := by
          refine List.erase_of_not_mem ?_
          simp [(hne u hu).symm, (hne v hv).symm]
        rw [← herase]
        exact huv.erase t
      · have hwait : wait h.waiting (.dequeue t) = h.waiting :=
          List.erase_of_not_mem (mt ho.perm.mem_iff.mpr ht)
        refine ⟨_, l, congrArg (Option.map _) (ho.queue.members.dequeue_of_notMem ht), ho.queue, ?_, ?_⟩
        · rw [hwait]
          exact ho.perm
        · refine ho.before_congr (List.Sublist.refl l) (fun _ _ => rfl) fun u _ v _ huv => ?_
          rw [hwait]
          exact huv
  | updateCurr t now =>
      have ht := hnot t hun
      refine ⟨_, l, rfl, ho.queue.updateCurr ht now, ho.perm,
        ho.before_congr (List.Sublist.refl l) (fun u hu => ?_) fun _ _ _ _ huv => huv⟩
      have hut : u ≠ t := fun e => ht (e ▸ hu)
      rw [updateCurr_task, Function.update_of_ne hut]
  | setNice t nice =>
      refine ⟨_, l, rfl, ho.queue.setTask fun _ => rfl, ho.perm,
        ho.before_congr (List.Sublist.refl l) (fun u _ => ?_) fun _ _ _ _ huv => huv⟩
      show (Function.update h.queue.task t _ u).vruntime = _
      by_cases hut : u = t
      · rw [hut, Function.update_self]
      · rw [Function.update_of_ne hut]
  | store t v =>
      have hv : t ∈ l → v.vruntime = (h.queue.task t).vruntime :=
        fun ht => (hvalid (ho.queue.isQueued.mpr ht)).1
      refine ⟨_, l, rfl, ho.queue.setTask hv, ho.perm,
        ho.before_congr (List.Sublist.refl l) (fun u hu => ?_) fun _ _ _ _ huv => huv⟩
      show (Function.update h.queue.task t v u).vruntime = _
      by_cases hut : u = t
      · rw [hut, Function.update_self, hv (hut ▸ hu)]
      · rw [Function.update_of_ne hut]

/-- The calls of an orderly run. -/
def Orderly (h : History) (c : Call) : Prop := c.Valid h.queue ∧ c.Unqueued h.queue

theorem reach_ordered {task : Nat → Task} (hr : Machine.Reach step Orderly (start task) h) :
    ∃ l, h.Ordered l := by
  refine Machine.Reach.invariant (P := fun h : History => ∃ l, h.Ordered l)
    ⟨[], queue_init task, List.Perm.refl _, List.Pairwise.nil⟩ ?_ hr
  rintro h c h' ⟨l, ho⟩ ⟨hvalid, hun⟩ hs
  obtain ⟨h₁, l', hs₁, ho'⟩ := ho.step hvalid hun
  obtain rfl : h₁ = h' := Option.some.inj (hs₁.symm.trans hs)
  exact ⟨l', ho'⟩

/-- **The order of the queue**: in every run the queue holds the waiting tasks; none is picked if none
waits, and else the one that runs before all others; picking and taking out until none is left gives
each waiting task once, in the order in which they run; and every call has a result. -/
theorem pick_in_order {task : Nat → Task} (hr : Machine.Reach step Orderly (start task) h) :
    (∀ a, h.queue.isQueued a = true ↔ a ∈ h.waiting) ∧
    (h.queue.pickNext = none ↔ h.waiting = []) ∧
    (∀ a, h.queue.pickNext = some a → a ∈ h.waiting ∧ ∀ b ∈ h.waiting, b ≠ a → h.Before a b) ∧
    (∃ l q, h.queue.drain nodeSteps = some (l, q) ∧ q.pickNext = none ∧ l.Perm h.waiting ∧
      l.Nodup ∧ l.Pairwise h.Before) ∧
    ∀ c, h.Orderly c → ∃ h', h.step c = some h' := by
  obtain ⟨l, ho⟩ := reach_ordered hr
  refine ⟨fun a => ?_, ?_, fun a hpick => ?_, ?_, fun c ⟨hvalid, hun⟩ => ?_⟩
  · rw [ho.queue.isQueued, ho.perm.mem_iff]
  · rw [ho.queue.pickNext, List.head?_eq_none_iff]
    exact ⟨fun hnil => (hnil ▸ ho.perm).symm.eq_nil, fun hnil => (hnil ▸ ho.perm).eq_nil⟩
  · rw [ho.queue.pickNext] at hpick
    obtain ⟨rest, rfl⟩ := List.head?_eq_some_iff.mp hpick
    refine ⟨ho.perm.mem_iff.mp List.mem_cons_self, fun b hb hba => ?_⟩
    have hrest := (List.mem_cons.mp (ho.perm.mem_iff.mpr hb)).resolve_left hba
    exact (List.pairwise_cons.mp ho.before).1 b hrest
  · have hsteps : l.length ≤ nodeSteps := Nat.le_succ_of_le ho.queue.length_le
    obtain ⟨q, hq, hempty⟩ := ho.queue.drain hsteps
    exact ⟨l, q, hq, hempty.pickNext, ho.perm, ho.queue.nodup, ho.before⟩
  · obtain ⟨h', -, hs, -⟩ := ho.step hvalid hun
    exact ⟨h', hs⟩

instance (h : History) (c : Call) : Decidable (h.Orderly c) :=
  inferInstanceAs (Decidable (c.Valid h.queue ∧ c.Unqueued h.queue))

/-- Two tasks that have run equally long, and one that has run less and comes last. -/
theorem pick_in_order_three :
    ∃ h, Machine.Reach step Orderly (start sampleTasks) h ∧ h.waiting = [1, 2, 3] ∧
      h.queue.pickNext = some 3 ∧ (∀ b ∈ h.waiting, b ≠ 3 → h.Before 3 b) ∧
      ∃ l q, h.queue.drain nodeSteps = some (l, q) ∧ l.Perm [1, 2, 3] ∧ l.Pairwise h.Before := by
  obtain ⟨h, hrun, hh⟩ := (Option.any_eq_true
    (fun h : History => decide (h.waiting = [1, 2, 3] ∧ h.queue.pickNext = some 3)) _).mp
    (show (Machine.runWhile step (fun h c => decide (h.Orderly c)) (start sampleTasks)
      [.enqueue 1, .enqueue 2, .enqueue 3]).any _ = true by decide +kernel)
  obtain ⟨hwaiting, hpick⟩ := of_decide_eq_true hh
  have hr := Machine.reach_of_runWhile (fun _ _ hc => of_decide_eq_true hc) hrun
  obtain ⟨-, -, hleast, ⟨l, q, hdrain, -, hperm, -, hbefore⟩, -⟩ := pick_in_order hr
  exact ⟨h, hr, hwaiting, hpick, (hleast 3 hpick).2, l, q, hdrain, hwaiting ▸ hperm, hbefore⟩

end History

end Eevdf

end Arcline
