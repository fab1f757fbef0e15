import Arcline.Sched.Load

set_option autoImplicit false

/-! # The arithmetic of time

`get_ns` turns the counter into nanoseconds, `eevdf_calc_slice` gives a task its share of the target
latency, and `eevdf_update_curr` charges it for the time it ran. All three multiply before they divide. The
product of `get_ns` is cut to 64 bits and that of `eevdf_calc_slice`, in which no operand is wider, to 32
bits; the quotient is the exact one just as long as the product is not cut. `eevdf_update_curr` divides by
the load of the run queue and not by the weight of the task, so the priority does not enter.
-/

namespace Arcline

/-! ## Products that are cut -/

/-- A product that is cut to a width above the divisor has the wrong quotient. -/
theorem mod_div_eq_iff {x width f : Nat} (hf : 0 < f) (hwidth : f ≤ width) :
    x % width / f = x / f ↔ x < width := by
  constructor
  · intro heq
    by_contra hcut
    have hpos : 0 < x / width := Nat.div_pos (by omega) (by omega)
    have hsplit : x % width + width * (x / width) = x := Nat.mod_add_div x width
    have hone : width * 1 ≤ width * (x / width) := Nat.mul_le_mul_left width hpos
    have hlt : x % width / f < x / f := by
      calc x % width / f < x % width / f + 1 := Nat.lt_succ_self _
        _ = (x % width + f) / f := (Nat.add_div_right _ hf).symm
        _ ≤ x / f := Nat.div_le_div_right (by omega)
    omega
  · intro hlt
    rw [Nat.mod_eq_of_lt hlt]

/-! ## The clock -/

/-- `get_ns`, with the values of the counter and of its frequency. -/
def getNs (cntpct cntfrq : Word) : Word := cntpct * 1000000000 / cntfrq

/-- The time in nanoseconds, in unbounded arithmetic. -/
def exactNs (cntpct cntfrq : Word) : Nat := cntpct.toNat * 1000000000 / cntfrq.toNat

variable {c c₁ c₂ f : Word}

theorem getNs_toNat (c f : Word) : (getNs c f).toNat = c.toNat * 1000000000 % 2 ^ 64 / f.toNat := by
  rw [getNs, BitVec.toNat_udiv, BitVec.toNat_mul]
  rfl

theorem getNs_exact_iff (hf : 0 < f.toNat) :
    (getNs c f).toNat = exactNs c f ↔ c.toNat * 1000000000 < 2 ^ 64 := by
  rw [getNs_toNat]
  exact mod_div_eq_iff hf (Nat.le_of_lt f.isLt)

theorem exactNs_mono (h : c₁ ≤ c₂) : exactNs c₁ f ≤ exactNs c₂ f :=
  Nat.div_le_div_right (Nat.mul_le_mul_right _ h)

/-- **The clock is exact and runs forward** just as long as the later counter value times 10^9 is below
2^64: then the time for which `eevdf_update_curr` charges a task that was switched in at the earlier one
is the time in between. Times that do not fit in 64 bits, of which nothing can be asked, count as failing
here; for them the product is cut as well. -/
theorem clock_exact_iff (hf : 0 < f.toNat) (hle : c₁ ≤ c₂) :
    ((getNs c₁ f).toNat = exactNs c₁ f ∧ (getNs c₂ f).toNat = exactNs c₂ f ∧ getNs c₁ f ≤ getNs c₂ f ∧
      ∀ (q : Eevdf) (t : Nat), (q.task t).context.x 23 = getNs c₁ f →
        (q.delta t (getNs c₂ f)).toNat = exactNs c₂ f - exactNs c₁ f) ↔
      c₂.toNat * 1000000000 < 2 ^ 64 := by
  constructor
  · rintro ⟨-, hlate, -⟩
    exact (getNs_exact_iff hf).mp hlate
  · intro hlate
    have hcount : c₁.toNat ≤ c₂.toNat := hle
    have hearly : c₁.toNat * 1000000000 < 2 ^ 64 :=
      Nat.lt_of_le_of_lt (Nat.mul_le_mul_right _ hcount) hlate
    have h₁ := (getNs_exact_iff hf).mpr hearly
    have h₂ := (getNs_exact_iff hf).mpr hlate
    have hmono : exactNs c₁ f ≤ exactNs c₂ f := exactNs_mono hle
    have hforward : getNs c₁ f ≤ getNs c₂ f := by
      rw [BitVec.le_def, h₁, h₂]
      exact hmono
    refine ⟨h₁, h₂, hforward, fun q t hstart => ?_⟩
    rw [Eevdf.delta, hstart, BitVec.toNat_sub_of_le hforward, h₁, h₂]

/-- One second and two seconds after start, with a counter of 62.5 MHz. -/
theorem clock_exact_seconds :
    (getNs 62500000 62500000).toNat = 1000000000 ∧ (getNs 125000000 62500000).toNat = 2000000000 ∧
      getNs 62500000 62500000 ≤ getNs 125000000 62500000 := by
  obtain ⟨h₁, h₂, hforward, -⟩ :=
    (clock_exact_iff (show 0 < (62500000 : Word).toNat by decide)
      (show (62500000 : Word) ≤ 125000000 by decide)).mpr (by decide)
  exact ⟨h₁, h₂, hforward⟩

/-- After 295 seconds the clock starts again. Both times fit in 64 bits. -/
theorem clock_runs_backwards :
    exactNs 18446744073 62500000 < 2 ^ 64 ∧ exactNs 18446744074 62500000 = 295147905184 ∧
      getNs 18446744073 62500000 = 295147905168 ∧ getNs 18446744074 62500000 = 4 ∧
      (getNs 18446744074 62500000 - getNs 18446744073 62500000).toNat = 2 ^ 64 - 295147905164 := by
  decide

namespace Eevdf

variable {q : Eevdf} {t : Nat}

/-! ## Slices -/

theorem load_pos (q : Eevdf) : 0 < q.load.toNat := by
  unfold load
  split
  · rename_i hne
    exact Nat.pos_of_ne_zero fun h0 => hne (BitVec.eq_of_toNat_eq h0)
  · decide

/-- A share of the target latency in proportion to the weight, within the bounds of a slice. -/
def exactSlice (weight load : Nat) : Nat := min (max (6000000 * weight / load) 750000) 100000000

/-- What `eevdf_calc_slice` gives, as a number. -/
theorem calcSlice_toNat (hrun : q.nrRunning ≠ 0) :
    (q.calcSlice t).toNat
      = min (max (6000000 * q.weight t % 2 ^ 32 / q.load.toNat) 750000) 100000000 := by
  have hquot : ((eevdfTargetLatency * niceWeight (q.task t).priority / q.load).setWidth 64).toNat
      = 6000000 * q.weight t % 2 ^ 32 / q.load.toNat := by
    rw [BitVec.toNat_setWidth_of_le (by decide), BitVec.toNat_udiv, BitVec.toNat_mul]
    rfl
  have hmin : eevdfMinGranularity.toNat = 750000 := rfl
  have hmax : eevdfMaxTimeSliceNs.toNat = 100000000 := rfl
  rw [calcSlice, if_neg hrun]
  dsimp only
  generalize (eevdfTargetLatency * niceWeight (q.task t).priority / q.load).setWidth 64 = slice
    at hquot ⊢
  rw [← hquot]
  simp only [gt_iff_lt, BitVec.lt_def]
  split
  · split
    · omega
    · omega
  · split
    · omega
    · omega

/-- The product of latency and weight fits in 32 bits; or, where it does not, both it and what is left
of it are beyond the same bound of a slice. -/
def SliceFits (weight load : Nat) : Prop :=
  6000000 * weight < 2 ^ 32 ∨ 6000000 * weight / load ≤ 750000 ∨
    100000000 ≤ 6000000 * weight % 2 ^ 32 / load

theorem calcSlice_exact_iff (hrun : q.nrRunning ≠ 0) :
    (q.calcSlice t).toNat = exactSlice (q.weight t) q.load.toNat ↔
      SliceFits (q.weight t) q.load.toNat := by
  rw [calcSlice_toNat hrun, exactSlice, SliceFits]
  have hload := q.load_pos
  have hcut := mod_div_eq_iff (x := 6000000 * q.weight t) hload (Nat.le_of_lt q.load.isLt)
  have hle : 6000000 * q.weight t % 2 ^ 32 / q.load.toNat ≤ 6000000 * q.weight t / q.load.toNat :=
    Nat.div_le_div_right (Nat.mod_le _ _)
  generalize 6000000 * q.weight t % 2 ^ 32 / q.load.toNat = cut at hcut hle ⊢
  generalize 6000000 * q.weight t / q.load.toNat = share at hcut hle ⊢
  rw [← hcut]
  omega

theorem exactSlice_mono {w w' : Nat} (h : w ≤ w') (load : Nat) :
    exactSlice w load ≤ exactSlice w' load := by
  have hshare : 6000000 * w / load ≤ 6000000 * w' / load :=
    Nat.div_le_div_right (Nat.mul_le_mul_left _ h)
  unfold exactSlice
  omega

/-- **Slices are the exact share of the latency** just where the product fits, and there a heavier task
never gets a shorter slice. -/
theorem slice_exact_iff (hrun : q.nrRunning ≠ 0) (t : Nat) :
    ((q.calcSlice t).toNat = exactSlice (q.weight t) q.load.toNat ↔
      SliceFits (q.weight t) q.load.toNat) ∧
    ∀ u, SliceFits (q.weight t) q.load.toNat → SliceFits (q.weight u) q.load.toNat →
      q.weight u ≤ q.weight t → q.calcSlice u ≤ q.calcSlice t := by
  refine ⟨calcSlice_exact_iff hrun, fun u ht hu hle => ?_⟩
  have ht' := (calcSlice_exact_iff hrun).mpr ht
  have hu' := (calcSlice_exact_iff hrun).mpr hu
  rw [BitVec.le_def, ht', hu']
  exact exactSlice_mono hle _

/-- The tasks 0 to 19, each with its number as its priority. -/
def nicedTasks (t : Nat) : Task := { sampleTasks t with priority := t }

/-- A task of nice 0 is queued: a task of nice 2 gets its share. -/
theorem slice_exact_nice_two :
    ∃ q, (init nicedTasks).enqueue 0 = some q ∧ q.load = 1024 ∧
      (q.calcSlice 2).toNat = exactSlice 655 1024 := by
  have hrun : ((init nicedTasks).enqueue 0).any (fun q => decide
      (q.nrRunning ≠ 0 ∧ q.load = 1024 ∧ q.weight 2 = 655)) = true := by decide +kernel
  obtain ⟨q, hq, hcheck⟩ := (Option.any_eq_true _ _).mp hrun
  obtain ⟨hrunning, hload, hweight⟩ := of_decide_eq_true hcheck
  have hslice := (slice_exact_iff hrunning 2).1
  rw [hweight, hload] at hslice
  exact ⟨q, hq, hload, hslice.mpr (.inl (by decide))⟩

/-- With the same queue a task of nice 0 should get 6 ms and gets less than 2, and one of nice 1 gets
less than one of nice 2, which is lighter. -/
theorem slice_product_cut :
    ∃ q, (init nicedTasks).enqueue 0 = some q ∧ q.nrRunning = 1 ∧ q.load = 1024 ∧ q.weight 0 = 1024 ∧
      exactSlice 1024 1024 = 6000000 ∧ q.calcSlice 0 = 1805696 ∧
      q.weight 2 < q.weight 1 ∧ q.calcSlice 1 < q.calcSlice 2 := by
  have hrun : ((init nicedTasks).enqueue 0).any (fun q => decide
      (q.nrRunning = 1 ∧ q.load = 1024 ∧ q.weight 0 = 1024 ∧ exactSlice 1024 1024 = 6000000 ∧
        q.calcSlice 0 = 1805696 ∧ q.weight 2 < q.weight 1 ∧ q.calcSlice 1 < q.calcSlice 2)) = true := by
    decide +kernel
  obtain ⟨q, hq, hcheck⟩ := (Option.any_eq_true _ _).mp hrun
  exact ⟨q, hq, of_decide_eq_true hcheck⟩

/-! ## Charges -/

/-- What `eevdf_update_curr` adds to the `vruntime` of the task. -/
def charge (q : Eevdf) (t : Nat) (now : Word) : Word :=
  ((q.updateCurr t now).task t).vruntime - (q.task t).vruntime

theorem charge_eq (q : Eevdf) (t : Nat) (now : Word) :
    q.charge t now = q.delta t now * eevdfNice0Load.setWidth 64 / q.load.setWidth 64 := by
  rw [charge, updateCurr_task, Function.update_self]
  show q.chargedVruntime t now - _ = _
  unfold chargedVruntime
  split
  · rename_i hzero
    have hdelta : q.delta t now = 0#64 := hzero
    rw [hdelta, BitVec.sub_self, BitVec.zero_mul, BitVec.zero_udiv]
  · rw [BitVec.add_comm, BitVec.add_sub_cancel]
    rfl

theorem charge_toNat {now : Word} (h : (q.delta t now).toNat < 2 ^ 54) :
    (q.charge t now).toNat = (q.delta t now).toNat * 1024 / q.load.toNat := by
  have hload : (q.load.setWidth 64).toNat = q.load.toNat := BitVec.toNat_setWidth_of_le (by decide)
  have hprod : (q.delta t now * eevdfNice0Load.setWidth 64).toNat = (q.delta t now).toNat * 1024 := by
    rw [BitVec.toNat_mul]
    show _ * 1024 % 2 ^ 64 = _
    omega
  rw [charge_eq, BitVec.toNat_udiv, hprod, hload]

/-- The weights of the table are positive. -/
theorem weight_pos (h : eevdfMinNice ≤ (q.task t).priority ∧ (q.task t).priority ≤ eevdfMaxNice) :
    0 < q.weight t := by
  have htable : ∀ k < 40, 0 < (eevdfNiceToWeight.getD k 0).toNat := by decide
  have hmin : eevdfMinNice = -20 := rfl
  have hmax : eevdfMaxNice = 19 := rfl
  exact htable _ (by omega)

/-- **A task is charged by its own weight** just where that is the load of the run queue. What a task is
charged does not depend on it: for the same time two tasks are charged the same, whatever their
weights. -/
theorem charge_by_weight_iff
    (h : eevdfMinNice ≤ (q.task t).priority ∧ (q.task t).priority ≤ eevdfMaxNice) :
    ((∀ now, (q.delta t now).toNat < 2 ^ 54 →
        (q.charge t now).toNat = (q.delta t now).toNat * 1024 / q.weight t) ↔
      q.load.toNat = q.weight t) ∧
    ∀ u now now', q.delta u now' = q.delta t now → q.charge u now' = q.charge t now := by
  have hweight := weight_pos h
  have hload := q.load_pos
  refine ⟨⟨fun hall => ?_, fun heq now hnow => ?_⟩, fun u now now' hsame => ?_⟩
  · -- for this time both quotients are exact
    have hle : q.weight t ≤ 88761 := niceWeight_le _
    have hlt := q.load.isLt
    have hbound : q.load.toNat * q.weight t < 2 ^ 54 := by
      calc q.load.toNat * q.weight t ≤ q.load.toNat * 88761 := Nat.mul_le_mul_left _ hle
        _ < 2 ^ 54 := by omega
    have hdelta : q.delta t ((q.task t).context.x 23 + BitVec.ofNat 64 (q.load.toNat * q.weight t))
        = BitVec.ofNat 64 (q.load.toNat * q.weight t) := by
      rw [delta, BitVec.add_comm, BitVec.add_sub_cancel]
    have hnat : (BitVec.ofNat 64 (q.load.toNat * q.weight t)).toNat = q.load.toNat * q.weight t := by
      rw [BitVec.toNat_ofNat]
      exact Nat.mod_eq_of_lt (by omega)
    have hcharge := hall ((q.task t).context.x 23 + BitVec.ofNat 64 (q.load.toNat * q.weight t))
      (by rw [hdelta, hnat]; exact hbound)
    rw [charge_toNat (by rw [hdelta, hnat]; exact hbound), hdelta, hnat] at hcharge
    have hleft : q.load.toNat * q.weight t * 1024 / q.load.toNat = q.weight t * 1024 := by
      rw [Nat.mul_assoc, Nat.mul_div_cancel_left _ hload]
    have hright : q.load.toNat * q.weight t * 1024 / q.weight t = q.load.toNat * 1024 := by
      rw [Nat.mul_right_comm, Nat.mul_div_cancel _ hweight]
    omega
  · rw [charge_toNat hnow, heq]
  · rw [charge_eq, charge_eq, hsame]

/-- On an empty queue a task of nice 0 is charged the time it ran. -/
theorem charge_by_weight_alone :
    (init nicedTasks).weight 0 = 1024 ∧ ((init nicedTasks).charge 0 5000).toNat
      = ((init nicedTasks).delta 0 5000).toNat * 1024 / (init nicedTasks).weight 0 :=
  ⟨by decide, (charge_by_weight_iff (by decide)).1.mpr (by decide) 5000 (by decide)⟩

/-- Two tasks, of nice 0 and 1, are queued. For 1844 ns a task of nice 2 should be charged 2882, and one
of nice 19 should be charged more; both are charged 1024. -/
theorem charge_ignores_weight :
    ∃ q, ((init nicedTasks).enqueue 0).bind (·.enqueue 1) = some q ∧ q.weight 2 = 655 ∧
      q.weight 19 = 15 ∧ 1844 * 1024 / 655 = 2882 ∧ q.delta 2 1844 = 1844 ∧ q.charge 2 1844 = 1024 ∧
      q.delta 19 1844 = 1844 ∧ q.charge 19 1844 = 1024 := by
  have hrun : (((init nicedTasks).enqueue 0).bind (·.enqueue 1)).any (fun q => decide
      (q.weight 2 = 655 ∧ q.weight 19 = 15 ∧ 1844 * 1024 / 655 = 2882 ∧ q.delta 2 1844 = 1844 ∧
        q.charge 2 1844 = 1024 ∧ q.delta 19 1844 = 1844 ∧ q.charge 19 1844 = 1024)) = true := by
    decide +kernel
  obtain ⟨q, hq, hcheck⟩ := (Option.any_eq_true _ _).mp hrun
  exact ⟨q, hq, of_decide_eq_true hcheck⟩

end Eevdf

end Arcline
