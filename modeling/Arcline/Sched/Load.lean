import Arcline.Sched.QueueRuns
import Mathlib.Algebra.BigOperators.Group.List.Basic
import Mathlib.Algebra.Group.Action.Defs
import Mathlib.Algebra.Order.BigOperators.Group.List
import Mathlib.Algebra.Order.Ring.Nat

set_option autoImplicit false

/-! # The load of the run queue

`load_weight` is kept up to date one call at a time. It is the sum of the weights of the queued tasks
as long as the weight of a queued task stays: `eevdf_set_nice` does not tell the queue.
-/

namespace Arcline

namespace Eevdf

variable {q q' : Eevdf} {l : List Nat} {a : Nat} {c : Call}

/-- The weight of a task, by its priority. -/
def weight (q : Eevdf) (t : Nat) : Nat := (niceWeight (q.task t).priority).toNat

/-- The sum of the weights of the queued tasks, node by node. -/
def queuedWeight (q : Eevdf) : Nat :=
  (((List.range nodePoolSize).filter q.nodeBitmap).map fun n => q.weight (q.tree.val n)).sum

/-- `load_weight` is the sum of the weights of the queued tasks. -/
def LoadRight (q : Eevdf) : Prop := q.loadWeight.toNat = q.queuedWeight

theorem Members.queuedWeight (h : q.Members l) : q.queuedWeight = (l.map q.weight).sum := by
  obtain ⟨t, hshape, rfl⟩ := h
  have hperm : ((List.range nodePoolSize).filter q.nodeBitmap).Perm t.ids := by
    refine (List.perm_ext_iff_of_nodup (List.nodup_range.filter _) hshape.nodup).mpr fun n => ?_
    rw [List.mem_filter, List.mem_range, hshape.nodes n]
  rw [Eevdf.queuedWeight, List.map_map]
  exact (hperm.map _).sum_eq

theorem niceWeight_le (priority : Int) : (niceWeight priority).toNat ≤ 88761 := by
  have htable : ∀ w ∈ eevdfNiceToWeight, Nat.ble w.toNat 88761 = true :=
    List.all_eq_true.mp (by decide +kernel)
  unfold niceWeight
  rw [List.getD_eq_getElem?_getD]
  cases hw : eevdfNiceToWeight[(priority + 20).toNat]? with
  | none => simp
  | some w =>
      rw [Option.getD_some]
      exact Nat.le_of_ble_eq_true (htable w (List.mem_of_getElem? hw))

/-- The pool is too small for the sum to overflow. -/
theorem Members.sum_lt (h : q.Members l) (a : Nat) :
    (l.map q.weight).sum + q.weight a < 2 ^ 32 := by
  have hsum : (l.map q.weight).sum ≤ (l.map q.weight).length • 88761 := by
    refine List.sum_le_card_nsmul _ _ fun w hw => ?_
    obtain ⟨t, -, rfl⟩ := List.mem_map.mp hw
    exact niceWeight_le _
  have hlength : l.length ≤ 64 := h.length_le
  have ha : q.weight a ≤ 88761 := niceWeight_le _
  rw [List.length_map, smul_eq_mul] at hsum
  omega

/-- The sum after the weight of one task was changed. -/
theorem sum_eq_iff (hnodup : l.Nodup) (hother : ∀ t, t ≠ a → q'.weight t = q.weight t) :
    (l.map q.weight).sum = (l.map q'.weight).sum ↔ (a ∈ l → q'.weight a = q.weight a) := by
  by_cases ha : a ∈ l
  · have hrest : (l.erase a).map q'.weight = (l.erase a).map q.weight :=
      List.map_congr_left fun t ht => hother t (hnodup.mem_erase_iff.mp ht).1
    have hsum := List.sum_map_erase q.weight ha
    have hsum' := List.sum_map_erase q'.weight ha
    rw [hrest] at hsum'
    constructor
    · intro heq _
      omega
    · intro heq
      have := heq ha
      omega
  · have hrest : l.map q'.weight = l.map q.weight :=
      List.map_congr_left fun t ht => hother t fun e => ha (e ▸ ht)
    rw [hrest]
    exact ⟨fun _ hmem => absurd hmem ha, fun _ => rfl⟩

/-- The weights depend on the priorities. -/
theorem weight_congr (h : ∀ t, (q'.task t).priority = (q.task t).priority) :
    q'.weight = q.weight := by
  funext t
  rw [weight, weight, h t]

theorem update_priority {v : Task} (hv : v.priority = (q.task a).priority) (t : Nat) :
    (Function.update q.task a v t).priority = (q.task t).priority := by
  by_cases hta : t = a
  · rw [hta, Function.update_self, hv]
  · rw [Function.update_of_ne hta]

/-- A call does not change the weight of a queued task. -/
def Call.KeepsWeight (q : Eevdf) : Call → Prop
  | .setNice t nice =>
      q.isQueued t = true → niceWeight (clampNice nice) = niceWeight (q.task t).priority
  | _ => True

instance (q : Eevdf) (c : Call) : Decidable (c.KeepsWeight q) :=
  match c with
  | .setNice t nice => inferInstanceAs (Decidable (q.isQueued t = true →
      niceWeight (clampNice nice) = niceWeight (q.task t).priority))
  | .enqueue _ | .dequeue _ | .updateCurr _ _ | .store _ _ => .isTrue trivial

/-- The load after a write to a task. -/
theorem Members.setTask_loadRight (h : q.Members l) (hload : q.LoadRight) (v : Task) :
    (q.setTask a v).LoadRight ↔
      (q.isQueued a = true → niceWeight v.priority = niceWeight (q.task a).priority) := by
  have hset : (q.setTask a v).Members l := h.congr rfl rfl rfl
  have hother : ∀ t, t ≠ a → (q.setTask a v).weight t = q.weight t := by
    intro t ht
    rw [weight, setTask_task, Function.update_of_ne ht]
    rfl
  have hself : (q.setTask a v).weight a = q.weight a ↔
      niceWeight v.priority = niceWeight (q.task a).priority := by
    rw [weight, weight, setTask_task, Function.update_self, BitVec.toNat_inj]
  unfold LoadRight at hload ⊢
  rw [h.queuedWeight] at hload
  rw [hset.queuedWeight, show (q.setTask a v).loadWeight = q.loadWeight from rfl, hload,
    sum_eq_iff h.nodup hother, h.isQueued, hself]

/-- **One call** has a result, and leaves the load right just when it keeps the weights of the queued
tasks. -/
theorem Members.call (h : q.Members l) (hload : q.LoadRight) (hvalid : c.Valid q) :
    ∃ q' l', q.call c = some q' ∧ q'.Members l' ∧ (q'.LoadRight ↔ c.KeepsWeight q) := by
  have hsum : q.loadWeight.toNat = (l.map q.weight).sum := hload.trans h.queuedWeight
  cases c with
  | enqueue t =>
      obtain ⟨hready, hqueued⟩ := hvalid
      have ht : t ∉ l := by
        intro hmem
        rw [h.isQueued.mpr hmem] at hqueued
        exact absurd hqueued (by simp)
      by_cases hfree : l.length < nodePoolSize
      · obtain ⟨q', l', hq', hmembers, hperm, htask, hload'⟩ := h.enqueue hready ht hfree
        refine ⟨q', l', hq', hmembers, fun _ => trivial, fun _ => ?_⟩
        have hweight : q'.weight = q.weight := weight_congr fun u => by
          rw [htask]
          exact update_priority (show (q.entryTask t).priority = _ from rfl) u
        unfold LoadRight
        rw [hmembers.queuedWeight, hweight, (hperm.map q.weight).sum_eq, List.map_cons,
          List.sum_cons, hload', BitVec.toNat_add, hsum]
        have hlt := h.sum_lt t
        unfold weight at hlt ⊢
        omega
      · have hfull : l.length = nodePoolSize :=
          Nat.le_antisymm h.length_le (Nat.le_of_not_lt hfree)
        refine ⟨_, l, h.enqueue_full hready hfull, h.congr rfl rfl rfl, fun _ => trivial,
          fun _ => ?_⟩
        exact (h.setTask_loadRight hload _).mpr fun _ => rfl
  | dequeue t =>
      by_cases ht : t ∈ l
      · obtain ⟨q', hq', hmembers, htask, hload'⟩ := h.dequeue ht
        refine ⟨q', l.erase t, hq', hmembers, fun _ => trivial, fun _ => ?_⟩
        have hweight : q'.weight = q.weight := weight_congr fun u => by rw [htask]
        have herase := List.sum_map_erase q.weight ht
        have hle : niceWeight (q.task t).priority ≤ q.loadWeight := by
          rw [BitVec.le_def, hsum]
          unfold weight at herase ⊢
          omega
        unfold LoadRight
        rw [hmembers.queuedWeight, hweight, hload', if_pos hle, BitVec.toNat_sub_of_le hle, hsum]
        unfold weight at herase ⊢
        omega
      · exact ⟨q, l, h.dequeue_of_notMem ht, h, fun _ => trivial, fun _ => hload⟩
  | updateCurr t now =>
      have hrest : (q.updateCurr t now).tree = q.tree ∧
          (q.updateCurr t now).nodeBitmap = q.nodeBitmap ∧
          (q.updateCurr t now).leftmost = q.leftmost ∧
          (q.updateCurr t now).loadWeight = q.loadWeight := by
        rw [Eevdf.updateCurr]
        dsimp only
        split <;> exact ⟨rfl, rfl, rfl, rfl⟩
      have hmembers := h.congr hrest.1 hrest.2.1 hrest.2.2.1
      refine ⟨_, l, rfl, hmembers, fun _ => trivial, fun _ => ?_⟩
      have hweight : (q.updateCurr t now).weight = q.weight := weight_congr fun u => by
        rw [updateCurr_task]
        exact update_priority (by rfl) u
      unfold LoadRight
      rw [hmembers.queuedWeight, hweight, hrest.2.2.2, hsum]
  | setNice t nice =>
      exact ⟨_, l, rfl, h.congr rfl rfl rfl, h.setTask_loadRight hload _⟩
  | store t v =>
      refine ⟨_, l, rfl, h.congr rfl rfl rfl, fun _ => trivial, fun _ => ?_⟩
      refine (h.setTask_loadRight hload v).mpr fun hqueued => ?_
      rw [(hvalid hqueued).2]

/-- **The load**: in every run whose calls keep the weights of the queued tasks, the load is the sum
of these weights, so none of an empty queue; and every further call has a result and leaves the load
right just when it keeps the weights of the queued tasks too. -/
theorem load_right_iff {task : Nat → Task}
    (hr : Machine.Reach call (fun q c => c.Valid q ∧ c.KeepsWeight q) (init task) q) :
    q.LoadRight ∧ ((∀ t, q.isQueued t = false) → q.loadWeight = 0) ∧
      ∀ c, c.Valid q → ∃ q', q.call c = some q' ∧ (q'.LoadRight ↔ c.KeepsWeight q) := by
  have hinv : ∃ l, q.Members l ∧ q.LoadRight := by
    refine Machine.Reach.invariant (P := fun q : Eevdf => ∃ l, q.Members l ∧ q.LoadRight)
      ⟨[], (queue_init task).members, ?_⟩ ?_ hr
    · unfold LoadRight
      rw [(queue_init task).members.queuedWeight]
      rfl
    · rintro q c q' ⟨l, hmembers, hload⟩ ⟨hvalid, hkeeps⟩ hs
      obtain ⟨q₁, l', hs₁, hmembers', hiff⟩ := hmembers.call hload hvalid
      obtain rfl : q₁ = q' := Option.some.inj (hs₁.symm.trans hs)
      exact ⟨l', hmembers', hiff.mpr hkeeps⟩
  obtain ⟨l, hmembers, hload⟩ := hinv
  refine ⟨hload, fun hempty => ?_, fun c hvalid => ?_⟩
  · have hnil : l = [] := by
      refine List.eq_nil_iff_forall_not_mem.mpr fun t ht => ?_
      have := hempty t
      rw [hmembers.isQueued.mpr ht] at this
      exact absurd this (by simp)
    have hzero : q.loadWeight.toNat = 0 := by
      rw [hload, hmembers.queuedWeight, hnil]
      rfl
    exact BitVec.eq_of_toNat_eq hzero
  · obtain ⟨q', -, hs, -, hiff⟩ := hmembers.call hload hvalid
    exact ⟨q', hs, hiff⟩

theorem load_right_one :
    ∃ q, Machine.Reach call (fun q c => c.Valid q ∧ c.KeepsWeight q) (init sampleTasks) q ∧
      q.isQueued 1 = true ∧ q.LoadRight := by
  obtain ⟨q, hrun, hq⟩ := (Option.any_eq_true (fun q : Eevdf => q.isQueued 1) _).mp
    (show (Machine.runWhile call (fun q c => decide (c.Valid q ∧ c.KeepsWeight q))
      (init sampleTasks) [.enqueue 1]).any _ = true by decide +kernel)
  have hr := Machine.reach_of_runWhile (fun _ _ hc => of_decide_eq_true hc) hrun
  exact ⟨q, hr, hq, (load_right_iff hr).1⟩

/-- A task of nice 0 is queued, gets nice 5 and is taken out: 1024 is added and 335 is taken off. -/
theorem setNice_leaves_load :
    ∃ q, Machine.Reach call (fun q c => c.Valid q) (init sampleTasks) q ∧
      q.queuedWeight = 0 ∧ q.pickNext = none ∧ q.loadWeight = 689 := by
  obtain ⟨q, hrun, hq⟩ := (Option.any_eq_true (fun q : Eevdf => decide (q.queuedWeight = 0 ∧
    q.pickNext = none ∧ q.loadWeight = 689)) _).mp
    (show (Machine.runWhile call (fun q c => decide (c.Valid q)) (init sampleTasks)
      [.enqueue 1, .setNice 1 5, .dequeue 1]).any _ = true by decide +kernel)
  exact ⟨q, Machine.reach_of_runWhile (fun _ _ hc => of_decide_eq_true hc) hrun,
    of_decide_eq_true hq⟩

end Eevdf

end Arcline
