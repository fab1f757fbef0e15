import Arcline.Sched.QueueRuns

set_option autoImplicit false

/-! # The tree of the run queue in every run

In every run of the functions of the run queue, from `eevdf_init` on, its nodes are a red-black tree
ordered by `vruntime`, the bitmap marks exactly the nodes of the tree, `nr_running` counts them, and no
queued task has run less than `min_vruntime`.

A rotation of a node whose child on the other side is missing has no result in the model, and neither
has any function that makes one; so a call that has a result has made none.
-/

namespace Arcline

namespace Eevdf

/-- The run queue holds the tasks `l` and its two counters are right. -/
structure Tidy (q : Eevdf) (l : List Nat) : Prop where
  queue : q.Queue l
  count : q.nrRunning = BitVec.ofNat 32 l.length
  least : ∀ b ∈ l, q.minVruntime ≤ (q.task b).vruntime

variable {q : Eevdf} {l : List Nat} {a : Nat} {c : Call}

theorem tidy_init (task : Nat → Task) : (init task).Tidy [] where
  queue := queue_init task
  count := rfl
  least _ hb := absurd hb List.not_mem_nil

/-- Writing a task leaves the counters alone, if its `vruntime` stays or it is not queued. -/
theorem Tidy.setTask (h : q.Tidy l) {v : Task} (hv : a ∈ l → v.vruntime = (q.task a).vruntime) :
    (q.setTask a v).Tidy l where
  queue := h.queue.setTask hv
  count := h.count
  least b hb := by
    by_cases hba : b = a
    · subst hba
      rw [setTask_task, Function.update_self, hv hb]
      exact h.least b hb
    · rw [setTask_task, Function.update_of_ne hba]
      exact h.least b hb

theorem Tidy.enqueue (h : q.Tidy l) (hready : (q.task a).state = .ready) (ha : a ∉ l) :
    ∃ q' l', q.enqueue a = some q' ∧ q'.Tidy l' := by
  by_cases hfree : l.length < nodePoolSize
  · obtain ⟨q', hq', hqueue, htask, hmin, hcount⟩ := h.queue.enqueue hready ha hfree
    have hperm := place_perm (fun b => (q.task b).vruntime) l a (q.entryVruntime a)
    refine ⟨q', _, hq', hqueue, ?_, fun b hb => ?_⟩
    · calc q'.nrRunning = BitVec.ofNat 32 l.length + 1 := by rw [hcount, h.count]
        _ = BitVec.ofNat 32 (l.length + 1) := (BitVec.ofNat_add ..).symm
        _ = BitVec.ofNat 32 _ := by rw [hperm.length_eq, List.length_cons]
    · rw [hmin, htask]
      -- the new task starts at the minimum at least
      rcases List.mem_cons.mp (hperm.mem_iff.mp hb) with rfl | hb
      · rw [Function.update_self]
        exact le_entryVruntime q b
      · have hba : b ≠ a := fun e => ha (e ▸ hb)
        rw [Function.update_of_ne hba]
        exact h.least b hb
  · have hfull : l.length = nodePoolSize :=
      Nat.le_antisymm h.queue.length_le (Nat.le_of_not_lt hfree)
    exact ⟨_, l, h.queue.members.enqueue_full hready hfull, h.setTask fun hmem => absurd hmem ha⟩

theorem Tidy.dequeue (h : q.Tidy l) (a : Nat) : ∃ q' l', q.dequeue a = some q' ∧ q'.Tidy l' := by
  by_cases ha : a ∈ l
  · obtain ⟨q', hq', hqueue, htask, hmin, hcount⟩ := h.queue.dequeue ha
    have hlength : (l.erase a).length + 1 = l.length := by
      rw [List.length_erase_of_mem ha]
      have := List.length_pos_of_mem ha
      omega
    have hle := h.queue.length_le
    have hnodes : nodePoolSize = 64 := rfl
    refine ⟨q', _, hq', hqueue, ?_, fun b hb => ?_⟩
    · have hpos : (0 : BitVec 32) < q.nrRunning := by
        rw [h.count, BitVec.lt_def, BitVec.toNat_ofNat]
        show 0 < l.length % 2 ^ 32
        omega
      rw [hcount, if_pos hpos, h.count, ← hlength, BitVec.ofNat_add]
      exact BitVec.add_sub_cancel _ _
    · rw [hmin, htask]
      exact h.least b (List.mem_of_mem_erase hb)
  · exact ⟨q, l, h.queue.members.dequeue_of_notMem ha, h⟩

theorem updateCurr_nrRunning (q : Eevdf) (a : Nat) (now : Word) :
    (q.updateCurr a now).nrRunning = q.nrRunning := by
  rw [Eevdf.updateCurr]
  dsimp only
  split <;> rfl

theorem Tidy.updateCurr (h : q.Tidy l) (ha : a ∉ l) (now : Word) : (q.updateCurr a now).Tidy l where
  queue := h.queue.updateCurr ha now
  count := (q.updateCurr_nrRunning a now).trans h.count
  least b hb := by
    have hba : b ≠ a := fun e => ha (e ▸ hb)
    rw [h.queue.updateCurr_minVruntime ha now, updateCurr_task, Function.update_of_ne hba]
    split
    · exact h.least b hb
    · -- the minimum is now that of the first task
      cases l with
      | nil => exact absurd hb List.not_mem_nil
      | cons first rest =>
          have hsorted := (List.pairwise_cons.mp h.queue.sorted).1
          rcases List.mem_cons.mp hb with rfl | hb
          · exact BitVec.le_refl _
          · exact hsorted b hb

/-- **One call** has a result and keeps the queue tidy. -/
theorem Tidy.call (h : q.Tidy l) (hvalid : c.Valid q) (hun : c.Unqueued q) :
    ∃ q' l', q.call c = some q' ∧ q'.Tidy l' := by
  have hnot : ∀ t, q.isQueued t = false → t ∉ l := by
    intro t ht hmem
    rw [h.queue.isQueued.mpr hmem] at ht
    exact absurd ht (by simp)
  cases c with
  | enqueue t => exact h.enqueue hvalid.1 (hnot t hvalid.2)
  | dequeue t => exact h.dequeue t
  | updateCurr t now => exact ⟨_, l, rfl, h.updateCurr (hnot t hun) now⟩
  | setNice t nice => exact ⟨_, l, rfl, h.setTask fun _ => rfl⟩
  | store t v =>
      exact ⟨_, l, rfl, h.setTask fun ht => (hvalid (h.queue.isQueued.mpr ht)).1⟩

theorem reach_tidy {task : Nat → Task}
    (hr : Machine.Reach call (fun q c => c.Valid q ∧ c.Unqueued q) (init task) q) :
    ∃ l, q.Tidy l := by
  refine Machine.Reach.invariant (P := fun q : Eevdf => ∃ l, q.Tidy l) ⟨[], tidy_init task⟩ ?_ hr
  rintro q c q' ⟨l, h⟩ ⟨hvalid, hun⟩ hs
  obtain ⟨q₁, l', hs₁, h'⟩ := h.call hvalid hun
  obtain rfl : q₁ = q' := Option.some.inj (hs₁.symm.trans hs)
  exact ⟨l', h'⟩

/-- **The run queue is a red-black tree in every run**: the links of its nodes, with their colours and
parents, are those of a tree `t` with a black root, no red node below a red one and equally many black
nodes on every path, ordered by `vruntime`; its nodes are those of the pool that the bitmap marks and
as many as `nr_running` says; and none has a `vruntime` below `min_vruntime`. Every further call has a
result. -/
theorem queue_is_redBlack {task : Nat → Task}
    (hr : Machine.Reach call (fun q c => c.Valid q ∧ c.Unqueued q) (init task) q) :
    (∃ t m, q.tree.Is t ∧ t.Bal .black m ∧
      t.ids.Pairwise (fun i j =>
        (q.task (q.tree.val i)).vruntime ≤ (q.task (q.tree.val j)).vruntime) ∧
      (∀ n, n ∈ t.ids ↔ n < nodePoolSize ∧ q.nodeBitmap n = true) ∧
      q.nrRunning.toNat = t.ids.length ∧
      ∀ n ∈ t.ids, q.minVruntime ≤ (q.task (q.tree.val n)).vruntime) ∧
    ∀ c : Call, c.Valid q → c.Unqueued q → ∃ q', q.call c = some q' := by
  obtain ⟨l, h⟩ := reach_tidy hr
  constructor
  · have hle := h.queue.length_le
    have hnodes : nodePoolSize = 64 := rfl
    have hcount : q.nrRunning.toNat = l.length := by
      rw [h.count, BitVec.toNat_ofNat]
      omega
    obtain ⟨t, hinv, rfl⟩ := h.queue
    obtain ⟨m, hbal⟩ := hinv.bal
    refine ⟨t, m, hinv.is, hbal, hinv.sorted, hinv.nodes, ?_, fun n hn => ?_⟩
    · rw [hcount, List.length_map]
    · exact h.least _ (List.mem_map_of_mem hn)
  · intro c hvalid hun
    obtain ⟨q', l', hq', -⟩ := h.call hvalid hun
    exact ⟨q', hq'⟩

/-- Three tasks are queued, one of them leaves, and another one is charged. -/
theorem queue_is_redBlack_three :
    ∃ q, Machine.Reach call (fun q c => c.Valid q ∧ c.Unqueued q) (init sampleTasks) q ∧
      q.nrRunning = 2 ∧
      ∃ t m, q.tree.Is t ∧ t.Bal .black m ∧ q.nrRunning.toNat = t.ids.length := by
  obtain ⟨q, hrun, hcount⟩ := (Option.any_eq_true (fun q : Eevdf => decide (q.nrRunning = 2)) _).mp
    (show (Machine.runWhile call (fun q c => decide (c.Valid q ∧ c.Unqueued q)) (init sampleTasks)
      [.enqueue 1, .enqueue 2, .enqueue 3, .dequeue 1, .updateCurr 1 9]).any _ = true by
        decide +kernel)
  have hr := Machine.reach_of_runWhile (fun _ _ hc => of_decide_eq_true hc) hrun
  obtain ⟨⟨t, m, his, hbal, -, -, hlength, -⟩, -⟩ := queue_is_redBlack hr
  exact ⟨q, hr, of_decide_eq_true hcount, t, m, his, hbal, hlength⟩

end Eevdf

end Arcline
