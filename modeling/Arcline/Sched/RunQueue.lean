import Arcline.Sched.Eevdf
import Mathlib.Data.List.Perm.Basic

set_option autoImplicit false

/-! # What the run queue holds

`q.Queue l` says that the run queue is a red-black tree, that its nodes are those the bitmap marks,
that its leftmost pointer is right, and that it holds the tasks `l`, each once, in the order of
their `vruntime`. The functions of the queue are characterised by what they do to `l`.
-/

namespace Arcline

open RbTree (Rb Color)

namespace Eevdf

/-- The run queue has the tree `t`, in whatever order its tasks are. -/
structure Shape (q : Eevdf) (t : RbTree.Tree) : Prop where
  is : q.tree.Is t
  bal : ∃ m, t.Bal .black m
  nodes : ∀ n, n ∈ t.ids ↔ n < nodePoolSize ∧ q.nodeBitmap n = true
  tasks : (t.ids.map q.tree.val).Nodup
  first : q.leftmost = t.ids.head?

/-- The run queue is the tree `t`. -/
structure Inv (q : Eevdf) (t : RbTree.Tree) : Prop extends Shape q t where
  sorted : t.ids.Pairwise fun i j =>
    (q.task (q.tree.val i)).vruntime ≤ (q.task (q.tree.val j)).vruntime

/-- The run queue holds the tasks `l`, in this order. -/
def Queue (q : Eevdf) (l : List Nat) : Prop := ∃ t, q.Inv t ∧ t.ids.map q.tree.val = l

/-- The run queue holds the tasks `l`, in whatever order. -/
def Members (q : Eevdf) (l : List Nat) : Prop := ∃ t, q.Shape t ∧ t.ids.map q.tree.val = l

variable {q q' : Eevdf} {t : RbTree.Tree} {l : List Nat} {a : Nat}

theorem Queue.members (h : q.Queue l) : q.Members l := by
  obtain ⟨t, hinv, hl⟩ := h
  exact ⟨t, hinv.toShape, hl⟩

theorem Shape.nodup (h : q.Shape t) : t.ids.Nodup := List.Nodup.of_map _ h.tasks

theorem Shape.length_le (h : q.Shape t) : t.ids.length ≤ nodePoolSize := by
  have hsub : t.ids ⊆ List.range nodePoolSize := fun n hn =>
    List.mem_range.mpr ((h.nodes n).mp hn).1
  have := (h.nodup.subperm hsub).length_le
  rwa [List.length_range] at this

theorem Shape.length_lt (h : q.Shape t) : t.ids.length < nodeSteps :=
  Nat.lt_succ_of_le h.length_le

theorem Shape.congr (h : q.Shape t) (htree : q'.tree = q.tree)
    (hbits : q'.nodeBitmap = q.nodeBitmap) (hfirst : q'.leftmost = q.leftmost) : q'.Shape t where
  is := htree ▸ h.is
  bal := h.bal
  nodes := hbits ▸ h.nodes
  tasks := htree ▸ h.tasks
  first := hfirst ▸ h.first

theorem Members.congr (h : q.Members l) (htree : q'.tree = q.tree)
    (hbits : q'.nodeBitmap = q.nodeBitmap) (hfirst : q'.leftmost = q.leftmost) : q'.Members l := by
  obtain ⟨t, hshape, rfl⟩ := h
  exact ⟨t, hshape.congr htree hbits hfirst, by rw [htree]⟩

/-- The queue depends on the tasks through the `vruntime` of those it holds. -/
theorem Inv.congr (h : q.Inv t) (htree : q'.tree = q.tree) (hbits : q'.nodeBitmap = q.nodeBitmap)
    (hfirst : q'.leftmost = q.leftmost)
    (htask : ∀ n ∈ t.ids, (q'.task (q.tree.val n)).vruntime = (q.task (q.tree.val n)).vruntime) :
    q'.Inv t where
  toShape := h.toShape.congr htree hbits hfirst
  sorted := by
    rw [htree]
    refine h.sorted.imp_of_mem fun hi hj hij => ?_
    rw [htask _ hi, htask _ hj]
    exact hij

theorem Queue.congr (h : q.Queue l) (htree : q'.tree = q.tree)
    (hbits : q'.nodeBitmap = q.nodeBitmap) (hfirst : q'.leftmost = q.leftmost)
    (htask : ∀ b ∈ l, (q'.task b).vruntime = (q.task b).vruntime) : q'.Queue l := by
  obtain ⟨t, hinv, rfl⟩ := h
  refine ⟨t, hinv.congr htree hbits hfirst fun n hn => htask _ (List.mem_map_of_mem hn), ?_⟩
  rw [htree]

/-- Writing a task that is not queued, or not its `vruntime`, does not concern the queue. -/
theorem Queue.setTask (h : q.Queue l) {v : Task} (hv : a ∈ l → v.vruntime = (q.task a).vruntime) :
    (q.setTask a v).Queue l := by
  refine h.congr rfl rfl rfl fun b hb => ?_
  by_cases hba : b = a
  · subst hba
    rw [setTask_task, Function.update_self, hv hb]
  · rw [setTask_task, Function.update_of_ne hba]

theorem queue_init (task : Nat → Task) : (init task).Queue [] := by
  refine ⟨.nil, ⟨⟨⟨rfl, trivial, List.nodup_nil⟩, ⟨0, .nil⟩, fun n => ?_, List.nodup_nil, rfl⟩,
    List.Pairwise.nil⟩, rfl⟩
  simp [init]

theorem Members.nodup (h : q.Members l) : l.Nodup := by
  obtain ⟨t, hshape, rfl⟩ := h
  exact hshape.tasks

theorem Queue.nodup (h : q.Queue l) : l.Nodup := h.members.nodup

theorem Members.length_le (h : q.Members l) : l.length ≤ nodePoolSize := by
  obtain ⟨t, hshape, rfl⟩ := h
  rw [List.length_map]
  exact hshape.length_le

theorem Queue.length_le (h : q.Queue l) : l.length ≤ nodePoolSize := h.members.length_le

/-- The queue is ordered by `vruntime`. -/
theorem Queue.sorted (h : q.Queue l) :
    l.Pairwise fun b c => (q.task b).vruntime ≤ (q.task c).vruntime := by
  obtain ⟨t, hinv, rfl⟩ := h
  exact List.pairwise_map.mpr hinv.sorted

theorem Queue.pickNext (h : q.Queue l) : q.pickNext = l.head? := by
  obtain ⟨t, hinv, rfl⟩ := h
  rw [Eevdf.pickNext, hinv.first, List.head?_map]

/-! ## Nodes -/

variable {n : Nat}

/-- The node that holds a queued task. -/
theorem Shape.nodeOf_eq_some (h : q.Shape t) : q.nodeOf a = some n ↔ n ∈ t.ids ∧ q.tree.val n = a := by
  have hsome {n : Nat} (hn : q.nodeOf a = some n) : n ∈ t.ids ∧ q.tree.val n = a := by
    have hp := List.find?_some hn
    have hmem := List.mem_of_find?_eq_some hn
    simp only [Bool.and_eq_true, beq_iff_eq] at hp
    exact ⟨(h.nodes n).mpr ⟨List.mem_range.mp hmem, hp.1⟩, hp.2⟩
  refine ⟨hsome, fun ⟨hn, ha⟩ => ?_⟩
  have hex : (q.nodeOf a).isSome := by
    rw [nodeOf, List.find?_isSome]
    obtain ⟨hlt, hbit⟩ := (h.nodes n).mp hn
    exact ⟨n, List.mem_range.mpr hlt, by simp [hbit, ha]⟩
  obtain ⟨m, hm⟩ := Option.isSome_iff_exists.mp hex
  obtain ⟨hm', hma⟩ := hsome hm
  rw [hm, List.inj_on_of_nodup_map h.tasks hm' hn (hma.trans ha.symm)]

theorem Members.isQueued (h : q.Members l) : q.isQueued a = true ↔ a ∈ l := by
  obtain ⟨t, hshape, rfl⟩ := h
  rw [Eevdf.isQueued, Option.isSome_iff_exists, List.mem_map]
  exact exists_congr fun n => hshape.nodeOf_eq_some

theorem Queue.isQueued (h : q.Queue l) : q.isQueued a = true ↔ a ∈ l := h.members.isQueued

/-- A queued task is in the tree exactly once. -/
theorem Queue.mem_iff (h : q.Queue l) : a ∈ l ↔ ∃! n, q.tree.InTree n ∧ q.tree.val n = a := by
  obtain ⟨t, hinv, rfl⟩ := h
  rw [List.mem_map]
  constructor
  · rintro ⟨n, hn, ha⟩
    refine ⟨n, ⟨hinv.is.inTree_iff.mpr hn, ha⟩, fun m ⟨hm, hma⟩ => ?_⟩
    exact List.inj_on_of_nodup_map hinv.tasks (hinv.is.inTree_iff.mp hm) hn (hma.trans ha.symm)
  · rintro ⟨n, ⟨hn, ha⟩, -⟩
    exact ⟨n, hinv.is.inTree_iff.mp hn, ha⟩

theorem Queue.not_mem_iff (h : q.Queue l) :
    a ∉ l ↔ ∀ n, q.tree.InTree n → q.tree.val n ≠ a := by
  obtain ⟨t, hinv, rfl⟩ := h
  simp only [List.mem_map, not_exists, not_and, hinv.is.inTree_iff, ne_eq]

/-- A free node that is handed out is not in the tree. -/
theorem Shape.freeNode (h : q.Shape t) (hn : q.freeNode? = some n) : n < nodePoolSize ∧ n ∉ t.ids := by
  have hp := List.find?_some hn
  have hmem := List.mem_range.mp (List.mem_of_find?_eq_some hn)
  refine ⟨hmem, fun hn' => ?_⟩
  rw [((h.nodes n).mp hn').2] at hp
  exact absurd hp (by simp)

/-- The pool is exhausted exactly when it is all in the queue. -/
theorem Members.freeNode_eq_none (h : q.Members l) :
    q.freeNode? = none ↔ l.length = nodePoolSize := by
  obtain ⟨t, hinv, rfl⟩ := h
  rw [List.length_map, freeNode?, List.find?_eq_none]
  constructor
  · intro hall
    have hsub : List.range nodePoolSize ⊆ t.ids := by
      intro n hn
      refine (hinv.nodes n).mpr ⟨List.mem_range.mp hn, ?_⟩
      simpa using hall n hn
    have hge := (List.nodup_range.subperm hsub).length_le
    rw [List.length_range] at hge
    exact Nat.le_antisymm hinv.length_le hge
  · intro hlen n hn
    have hperm : t.ids.Perm (List.range nodePoolSize) := by
      refine (hinv.nodup.subperm fun n hn => ?_).perm_of_length_le ?_
      · exact List.mem_range.mpr ((hinv.nodes n).mp hn).1
      · rw [List.length_range, hlen]
    simp [((hinv.nodes n).mp (hperm.mem_iff.mpr hn)).2]

theorem Members.exists_freeNode (h : q.Members l) (hfree : l.length < nodePoolSize) :
    ∃ n, q.freeNode? = some n := by
  rw [← Option.isSome_iff_exists, Option.isSome_iff_ne_none, ne_eq, h.freeNode_eq_none]
  exact Nat.ne_of_lt hfree

/-! ## Queueing a task -/

/-- The tasks `l` in the order of their `vruntime`, with `a` after all those that have not run
longer than `v`. -/
def place (vruntime : Nat → Word) (l : List Nat) (a : Nat) (v : Word) : List Nat :=
  l.filter (fun b => !decide (v < vruntime b)) ++ a :: l.filter fun b => decide (v < vruntime b)

/-- Splitting a list by a test and putting `a` in between. -/
theorem split_perm (p : Nat → Bool) (l : List Nat) (a : Nat) :
    (l.filter (fun b => !p b) ++ a :: l.filter p).Perm (a :: l) := by
  refine List.perm_middle.trans (List.Perm.cons a ?_)
  exact List.perm_append_comm.trans (List.filter_append_perm p l)

theorem place_perm (vruntime : Nat → Word) (l : List Nat) (a : Nat) (v : Word) :
    (place vruntime l a v).Perm (a :: l) := split_perm _ l a

theorem place_congr {f g : Nat → Word} {l : List Nat} (h : ∀ b ∈ l, f b = g b) (a : Nat)
    (v : Word) : place f l a v = place g l a v := by
  have hlt : l.filter (fun b => decide (v < f b)) = l.filter fun b => decide (v < g b) :=
    List.filter_congr fun b hb => by rw [h b hb]
  have hge : l.filter (fun b => !decide (v < f b)) = l.filter fun b => !decide (v < g b) :=
    List.filter_congr fun b hb => by rw [h b hb]
  rw [place, place, hlt, hge]

/-- The first element of the list is the new one, if all others come behind it, and else stays. -/
theorem head?_split {p : Nat → Bool} {l : List Nat} (hcut : Rb.Cuts p l) (a : Nat) :
    (l.filter (fun b => !p b) ++ a :: l.filter p).head? =
      if l.all p = true then some a else l.head? := by
  cases l with
  | nil => rfl
  | cons b l =>
      rw [Rb.Cuts, List.pairwise_cons] at hcut
      cases hb : p b with
      | true =>
          have hl : ∀ c ∈ l, p c = true := fun c hc => hcut.1 c hc hb
          have hnil : l.filter (fun b => !p b) = [] := by
            rw [List.filter_eq_nil_iff]
            intro c hc
            simp [hl c hc]
          rw [if_pos (by simpa [hb] using hl)]
          simp [hb, hnil]
      | false => simp [hb]

/-- The test `eevdf_enqueue` makes at a node on its way down. -/
def runsAfter (q : Eevdf) (n a : Nat) : Nat → Bool :=
  fun p => decide ((q.task a).vruntime < (q.task ((initNode q.tree n a).val p)).vruntime)

theorem Shape.initNode_is (h : q.Shape t) (hn : n ∉ t.ids) (a : Nat) : (initNode q.tree n a).Is t := by
  refine h.is.congr rfl fun i hi => ?_
  have hin : i ≠ n := fun e => hn (e ▸ hi)
  simp [initNode, Rb.SameNode, hin]

/-- The new node goes between the two parts into which the sequence is cut, by the test itself or by
another one that takes the same way down. -/
theorem Shape.insertNode (h : q.Shape t) (hn : n ∉ t.ids) (ha : a ∉ t.ids.map q.tree.val)
    (hlt : n < nodePoolSize) {goLeft : Nat → Bool} (hcut : Rb.Cuts goLeft t.ids)
    (hwalk : Rb.descendFirst (q.runsAfter n a) nodeSteps (initNode q.tree n a) none true =
      Rb.descendFirst goLeft nodeSteps (initNode q.tree n a) none true) :
    ∃ q' t', ({ q with nodeBitmap := Function.update q.nodeBitmap n true } : Eevdf).insertNode n a =
        some q' ∧ q'.Shape t' ∧
      t'.ids = t.ids.filter (fun i => !goLeft i) ++ n :: t.ids.filter goLeft ∧
      q'.tree.val = (initNode q.tree n a).val ∧
      (t'.ids.map q'.tree.val).Perm (a :: t.ids.map q.tree.val) ∧ q'.task = q.task ∧
      q'.minVruntime = q.minVruntime ∧
      q'.loadWeight = q.loadWeight + niceWeight (q.task a).priority ∧
      q'.nrRunning = q.nrRunning + 1 := by
  obtain ⟨m, hbal⟩ := h.bal
  have hne : ∀ i ∈ t.ids, i ≠ n := fun i hi e => hn (e ▸ hi)
  obtain ⟨link, s', t', hd, hfix, his', hids, hbal', honly⟩ :=
    Rb.insertFirst_spec Rb.isRotateLeft_rotateLeft Rb.isRotateRight_rotateRight
      (h.initNode_is hn a) hbal hcut hn (by simp [initNode]) (by simp [initNode])
      (by simp [initNode]) h.length_lt
  have hperm : t'.ids.Perm (n :: t.ids) := hids ▸ split_perm _ t.ids n
  have hvals : (t'.ids.map s'.val).Perm (a :: t.ids.map q.tree.val) := by
    have hmap : t.ids.map (initNode q.tree n a).val = t.ids.map q.tree.val :=
      List.map_congr_left fun i hi => by simp [initNode, hne i hi]
    have hvaln : (initNode q.tree n a).val n = a := by simp [initNode]
    have hcons := hperm.map (initNode q.tree n a).val
    rwa [List.map_cons, hvaln, hmap, ← honly.val] at hcons
  refine ⟨{ q with
      nodeBitmap := Function.update q.nodeBitmap n true
      tree := s'
      leftmost := if t.ids.all goLeft = true then some n else q.leftmost
      loadWeight := q.loadWeight + niceWeight (q.task a).priority
      nrRunning := q.nrRunning + 1 },
    t', ?_, ⟨his', hbal', fun i => ?_, ?_, ?_⟩, hids, honly.val, hvals, rfl, rfl, rfl, rfl⟩
  · rw [Eevdf.insertNode]
    have hd' := hwalk.trans hd
    unfold runsAfter at hd'
    simp only [hd', Option.bind_some, hfix, Option.map_some]
  · rw [hperm.mem_iff, List.mem_cons, h.nodes i]
    by_cases hi : i = n
    · simp [hi, hlt]
    · simp [hi]
  · show (t'.ids.map s'.val).Nodup
    rw [hvals.nodup_iff, List.nodup_cons]
    exact ⟨ha, h.tasks⟩
  · rw [hids, head?_split hcut, ← h.first]

theorem Inv.insertNode (h : q.Inv t) (hn : n ∉ t.ids) (ha : a ∉ t.ids.map q.tree.val)
    (hlt : n < nodePoolSize) :
    ∃ q' t', ({ q with nodeBitmap := Function.update q.nodeBitmap n true } : Eevdf).insertNode n a =
        some q' ∧ q'.Inv t' ∧
      t'.ids.map q'.tree.val = place (fun b => (q.task b).vruntime) (t.ids.map q.tree.val) a
        (q.task a).vruntime ∧ q'.task = q.task ∧ q'.minVruntime = q.minVruntime ∧
      q'.nrRunning = q.nrRunning + 1 := by
  have hval : ∀ i ∈ t.ids, (initNode q.tree n a).val i = q.tree.val i := by
    intro i hi
    have hin : i ≠ n := fun e => hn (e ▸ hi)
    simp [initNode, hin]
  have hvaln : (initNode q.tree n a).val n = a := by simp [initNode]
  -- the search compares with what is already ordered
  have hsorted : t.ids.Pairwise fun i j => (q.task ((initNode q.tree n a).val i)).vruntime ≤
      (q.task ((initNode q.tree n a).val j)).vruntime := by
    refine h.sorted.imp_of_mem fun hi hj hij => ?_
    rw [hval _ hi, hval _ hj]
    exact hij
  have hcut : Rb.Cuts (q.runsAfter n a) t.ids := by
    refine hsorted.imp fun hij hi => ?_
    have hlt := BitVec.lt_def.mp (of_decide_eq_true hi)
    exact decide_eq_true (BitVec.lt_def.mpr (Nat.lt_of_lt_of_le hlt (BitVec.le_def.mp hij)))
  obtain ⟨q', t', hq', hshape, hids, hval', -, htask, hmin, -, hcount⟩ :=
    h.toShape.insertNode hn ha hlt hcut rfl
  refine ⟨q', t', hq', ⟨hshape, ?_⟩, ?_,
    htask, hmin, hcount⟩
  · rw [htask, hval', hids, List.pairwise_append, List.pairwise_cons]
    have hA {i : Nat} (hi : i ∈ t.ids.filter fun p => !q.runsAfter n a p) :
        (q.task ((initNode q.tree n a).val i)).vruntime ≤ (q.task a).vruntime := by
      have := (List.mem_filter.mp hi).2
      simpa [runsAfter, BitVec.not_lt] using this
    have hB {j : Nat} (hj : j ∈ t.ids.filter (q.runsAfter n a)) :
        (q.task a).vruntime ≤ (q.task ((initNode q.tree n a).val j)).vruntime :=
      BitVec.le_of_lt (of_decide_eq_true (List.mem_filter.mp hj).2)
    refine ⟨hsorted.filter _, ⟨fun j hj => ?_, hsorted.filter _⟩, fun i hi j hj => ?_⟩
    · rw [hvaln]
      exact hB hj
    rcases List.mem_cons.mp hj with rfl | hj
    · rw [hvaln]
      exact hA hi
    · exact BitVec.le_trans (hA hi) (hB hj)
  · have hmap : t.ids.map (initNode q.tree n a).val = t.ids.map q.tree.val :=
      List.map_congr_left hval
    rw [hval', hids, List.map_append, List.map_cons, hvaln, place, ← hmap, List.filter_map,
      List.filter_map]
    rfl

/-- The `vruntime` a task is queued with. -/
def entryVruntime (q : Eevdf) (a : Nat) : Word :=
  if (q.task a).vruntime < q.minVruntime then q.minVruntime else (q.task a).vruntime

/-- The task as `eevdf_enqueue` leaves it. -/
def entryTask (q : Eevdf) (a : Nat) : Task :=
  { q.task a with vruntime := q.entryVruntime a }

theorem enqueue_eq (hready : (q.task a).state = .ready) :
    q.enqueue a =
      match (q.setTask a (q.entryTask a)).freeNode? with
      | none => some (q.setTask a (q.entryTask a))
      | some n =>
          ({ q.setTask a (q.entryTask a) with
            nodeBitmap := Function.update q.nodeBitmap n true } : Eevdf).insertNode n a := by
  rw [enqueue, if_neg (by simp [hready])]
  rfl

/-- **Queueing.** A ready task that is not queued is put in its place, if a node is left. -/
theorem Queue.enqueue (h : q.Queue l) (hready : (q.task a).state = .ready) (ha : a ∉ l)
    (hfree : l.length < nodePoolSize) :
    ∃ q', q.enqueue a = some q' ∧
      q'.Queue (place (fun b => (q.task b).vruntime) l a (q.entryVruntime a)) ∧
      q'.task = Function.update q.task a (q.entryTask a) ∧ q'.minVruntime = q.minVruntime ∧
      q'.nrRunning = q.nrRunning + 1 := by
  obtain ⟨t, hinv, hl⟩ : (q.setTask a (q.entryTask a)).Queue l :=
    h.setTask fun hmem => absurd hmem ha
  obtain ⟨n, hn⟩ := Members.exists_freeNode ⟨t, hinv.toShape, hl⟩ hfree
  obtain ⟨hlt, hnt⟩ := hinv.toShape.freeNode hn
  obtain ⟨q', t', hq', hinv', hvals, htask, hmin, hcount⟩ := hinv.insertNode hnt (hl ▸ ha) hlt
  refine ⟨q', ?_, ⟨t', hinv', ?_⟩, htask, hmin, hcount⟩
  · rw [enqueue_eq hready, hn]
    exact hq'
  · have hcongr : ∀ b ∈ l, ((q.setTask a (q.entryTask a)).task b).vruntime =
        (q.task b).vruntime := by
      intro b hb
      have hba : b ≠ a := fun e => ha (e ▸ hb)
      rw [setTask_task, Function.update_of_ne hba]
    have hv : ((q.setTask a (q.entryTask a)).task a).vruntime = q.entryVruntime a := by
      rw [setTask_task, Function.update_self]
      rfl
    rw [hvals, hl, hv, place_congr hcongr]

/-- A ready task that is not queued is put somewhere, in whatever order the others are. -/
theorem Members.enqueue (h : q.Members l) (hready : (q.task a).state = .ready) (ha : a ∉ l)
    (hfree : l.length < nodePoolSize) :
    ∃ q' l', q.enqueue a = some q' ∧ q'.Members l' ∧ l'.Perm (a :: l) ∧
      q'.task = Function.update q.task a (q.entryTask a) ∧
      q'.loadWeight = q.loadWeight + niceWeight (q.task a).priority := by
  have hset : (q.setTask a (q.entryTask a)).Members l := h.congr rfl rfl rfl
  obtain ⟨n, hn⟩ := hset.exists_freeNode hfree
  obtain ⟨t, hshape, hl⟩ := hset
  obtain ⟨hlt, hnt⟩ := hshape.freeNode hn
  obtain ⟨goLeft, hcut, hwalk⟩ := Rb.exists_cuts
    ((q.setTask a (q.entryTask a)).runsAfter n a)
    (show Rb.At (initNode q.tree n a) [] t from hshape.initNode_is hnt a)
  obtain ⟨q', t', hq', hshape', -, -, hperm, htask, -, hload, -⟩ :=
    hshape.insertNode hnt (hl ▸ ha) hlt hcut (hwalk goLeft (fun _ _ => rfl) nodeSteps true)
  refine ⟨q', _, ?_, ⟨t', hshape', rfl⟩, hl ▸ hperm, htask, ?_⟩
  · rw [enqueue_eq hready, hn]
    exact hq'
  · rw [hload, setTask_task, Function.update_self]
    rfl

/-- Without a node only the task itself is written. -/
theorem Members.enqueue_full (h : q.Members l) (hready : (q.task a).state = .ready)
    (hfull : l.length = nodePoolSize) :
    q.enqueue a = some (q.setTask a (q.entryTask a)) := by
  have hq : (q.setTask a (q.entryTask a)).Members l := h.congr rfl rfl rfl
  rw [enqueue_eq hready, hq.freeNode_eq_none.mpr hfull]

/-! ## Taking a task out -/

theorem Members.dequeue_of_notMem (h : q.Members l) (ha : a ∉ l) : q.dequeue a = some q := by
  have hnone : q.nodeOf a = none := by
    rw [← Option.not_isSome_iff_eq_none]
    exact fun hs => ha (h.isQueued.mp hs)
  rw [Eevdf.dequeue, hnone]

/-- The node of a queued task leaves the tree. -/
theorem Shape.dequeue (h : q.Shape t) (hn : n ∈ t.ids) (hna : q.tree.val n = a) :
    ∃ q' t', q.dequeue a = some q' ∧ q'.Shape t' ∧ t'.ids = t.ids.erase n ∧
      q'.tree.val = q.tree.val ∧ q'.task = q.task ∧ q'.minVruntime = q.minVruntime ∧
      (q'.loadWeight = if niceWeight (q.task a).priority ≤ q.loadWeight
        then q.loadWeight - niceWeight (q.task a).priority else 0) ∧
      q'.nrRunning = if 0 < q.nrRunning then q.nrRunning - 1 else q.nrRunning := by
  obtain ⟨m, hbal⟩ := h.bal
  obtain ⟨s', t', hs', his', hids, hbal', honly⟩ :=
    Rb.rbDelete_spec missingSibling Rb.isRotateLeft_rotateLeft Rb.isRotateRight_rotateRight
      h.is hbal hn h.length_lt
  -- the pointer to the first node moves on if it is this one
  have hfirst : (if q.leftmost = some n then Rb.nextNode nodeSteps q.tree n else some q.leftmost) =
      some t'.ids.head? := by
    rw [hids]
    split
    · rename_i hleft
      rw [Rb.nextNode_first h.is (h.first ▸ hleft) h.length_lt]
      cases hl : t.ids with
      | nil => rfl
      | cons i rest =>
          obtain rfl : i = n := by
            rw [h.first, hl] at hleft
            simpa using hleft
          rw [List.erase_cons_head, List.tail_cons]
    · rename_i hleft
      rw [h.first] at hleft ⊢
      cases hl : t.ids with
      | nil => rfl
      | cons i rest =>
          rw [hl] at hleft
          have hin : i ≠ n := by simpa using hleft
          rw [List.erase_cons_tail (by simpa using hin), List.head?_cons, List.head?_cons]
  refine ⟨{ q with
      tree := s'
      leftmost := t'.ids.head?
      loadWeight := if niceWeight (q.task a).priority ≤ q.loadWeight
        then q.loadWeight - niceWeight (q.task a).priority else 0
      nrRunning := if 0 < q.nrRunning then q.nrRunning - 1 else q.nrRunning
      nodeBitmap := Function.update q.nodeBitmap n false },
    t', ?_, ⟨his', hbal', fun i => ?_, ?_, rfl⟩, hids, honly.val, rfl, rfl, rfl, rfl⟩
  · rw [Eevdf.dequeue, h.nodeOf_eq_some.mpr ⟨hn, hna⟩]
    show Eevdf.removeNode q n a = _
    rw [removeNode, hfirst, Option.bind_some, Rb.rbDetach_eq h.is hn h.length_lt, hs']
    rfl
  · rw [hids, h.nodup.mem_erase_iff, h.nodes i]
    by_cases hi : i = n
    · simp [hi]
    · simp [hi]
  · show (t'.ids.map s'.val).Nodup
    rw [honly.val, hids]
    exact h.tasks.sublist (List.erase_sublist.map _)

/-- The tasks that are left when the node of `a` goes. -/
theorem Shape.map_erase (h : q.Shape t) (hn : n ∈ t.ids) (hna : q.tree.val n = a) :
    (t.ids.erase n).map q.tree.val = (t.ids.map q.tree.val).erase a := by
  obtain ⟨p₁, p₂, hsplit⟩ := List.append_of_mem hn
  have hnodup := h.nodup
  have htasks := h.tasks
  rw [hsplit] at hnodup
  rw [hsplit, List.map_append, List.map_cons, hna] at htasks
  rw [hsplit, List.erase_append_right, List.erase_cons_head, List.map_append, List.map_append,
    List.map_cons, hna, List.erase_append_right, List.erase_cons_head]
  · exact fun hp => (List.nodup_append.mp htasks).2.2 a hp a List.mem_cons_self rfl
  · exact fun hp => (List.nodup_append.mp hnodup).2.2 n hp n List.mem_cons_self rfl

/-- A queued task leaves, in whatever order the others are. -/
theorem Members.dequeue (h : q.Members l) (ha : a ∈ l) :
    ∃ q', q.dequeue a = some q' ∧ q'.Members (l.erase a) ∧ q'.task = q.task ∧
      q'.loadWeight = if niceWeight (q.task a).priority ≤ q.loadWeight
        then q.loadWeight - niceWeight (q.task a).priority else 0 := by
  obtain ⟨t, hshape, rfl⟩ := h
  obtain ⟨n, hn, hna⟩ := List.mem_map.mp ha
  obtain ⟨q', t', hq', hshape', hids, hval, htask, -, hload, -⟩ := hshape.dequeue hn hna
  refine ⟨q', hq', ⟨t', hshape', ?_⟩, htask, hload⟩
  rw [hval, hids, hshape.map_erase hn hna]

/-- **Taking a task out.** A queued task leaves the queue, and nothing else changes. -/
theorem Queue.dequeue (h : q.Queue l) (ha : a ∈ l) :
    ∃ q', q.dequeue a = some q' ∧ q'.Queue (l.erase a) ∧ q'.task = q.task ∧
      q'.minVruntime = q.minVruntime ∧
      q'.nrRunning = if 0 < q.nrRunning then q.nrRunning - 1 else q.nrRunning := by
  obtain ⟨t, hinv, rfl⟩ := h
  obtain ⟨n, hn, hna⟩ := List.mem_map.mp ha
  obtain ⟨q', t', hq', hshape, hids, hval, htask, hmin, -, hcount⟩ := hinv.toShape.dequeue hn hna
  refine ⟨q', hq', ⟨t', ⟨hshape, ?_⟩, ?_⟩, htask, hmin, hcount⟩
  · rw [htask, hval, hids]
    exact hinv.sorted.sublist List.erase_sublist
  · rw [hval, hids, hinv.toShape.map_erase hn hna]

/-! ## Charging a task -/

/-- The `vruntime` of a task that is charged at the time `now`. -/
def chargedVruntime (q : Eevdf) (a : Nat) (now : Word) : Word :=
  if now - (q.task a).context.x 23 = 0 then (q.task a).vruntime
  else (q.task a).vruntime +
    ((now - (q.task a).context.x 23) * eevdfNice0Load.setWidth 64) / q.load.setWidth 64

/-- Charging a task leaves the time in its `x23` and changes its `vruntime`, and nothing else of the
tasks. -/
theorem updateCurr_task (q : Eevdf) (a : Nat) (now : Word) :
    (q.updateCurr a now).task = Function.update q.task a
      { q.task a with
        context := (q.task a).context.setX 23 now
        vruntime := q.chargedVruntime a now } := by
  rw [updateCurr, chargedVruntime]
  dsimp only
  by_cases hdelta : now - (q.task a).context.x 23 = 0
  · -- no time has passed: `x23` already holds it
    have hnow : (q.task a).context.x 23 = now := by bv_omega
    have hctx : (q.task a).context.setX 23 now = (q.task a).context := by
      rw [CpuContext.setX, ← hnow, Function.update_eq_self]
    rw [if_pos hdelta, if_pos hdelta, hctx, Function.update_eq_self]
  · rw [if_neg hdelta, if_neg hdelta]
    rfl

theorem Queue.updateCurr (h : q.Queue l) (ha : a ∉ l) (now : Word) :
    (q.updateCurr a now).Queue l := by
  have hrest : (q.updateCurr a now).tree = q.tree ∧
      (q.updateCurr a now).nodeBitmap = q.nodeBitmap ∧
      (q.updateCurr a now).leftmost = q.leftmost := by
    rw [Eevdf.updateCurr]
    dsimp only
    split <;> exact ⟨rfl, rfl, rfl⟩
  refine h.congr hrest.1 hrest.2.1 hrest.2.2 fun b hb => ?_
  have hba : b ≠ a := fun e => ha (e ▸ hb)
  rw [updateCurr_task, Function.update_of_ne hba]

/-- A charge leaves the least `vruntime` of the queue as the minimum, or, where the queue is empty,
that of the task it charges. -/
theorem Queue.updateCurr_minVruntime (h : q.Queue l) (ha : a ∉ l) (now : Word) :
    (q.updateCurr a now).minVruntime =
      if now - (q.task a).context.x 23 = 0 then q.minVruntime
      else (l.head?.map fun b => (q.task b).vruntime).getD (q.chargedVruntime a now) := by
  rw [← h.pickNext, Eevdf.updateCurr, Eevdf.pickNext, chargedVruntime]
  dsimp only
  by_cases hdelta : now - (q.task a).context.x 23 = 0
  · rw [if_pos hdelta, if_pos hdelta]
  · rw [if_neg hdelta, if_neg hdelta, if_neg hdelta, Eevdf.setTask]
    cases hfirst : q.leftmost with
    | none => rfl
    | some n =>
        have hmem : q.tree.val n ∈ l := by
          have hpick := h.pickNext
          rw [Eevdf.pickNext, hfirst] at hpick
          exact List.mem_of_mem_head? hpick.symm
        have hne : q.tree.val n ≠ a := fun e => ha (e ▸ hmem)
        show (Function.update q.task a _ (q.tree.val n)).vruntime = _
        rw [Function.update_of_ne hne]
        rfl

theorem le_entryVruntime (q : Eevdf) (a : Nat) : q.minVruntime ≤ q.entryVruntime a := by
  unfold entryVruntime
  split
  · exact BitVec.le_refl _
  · rename_i h
    exact BitVec.not_lt.mp h

end Eevdf

end Arcline
