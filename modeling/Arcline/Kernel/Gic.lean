import Arcline.Arch.Context
import Arcline.Arch.Gic

set_option autoImplicit false

/-! # The driver of the interrupt controller, and the table of handlers

`gic.c` for a GICv2, store by store, and `irq.c`. A call of `gic_enable_irq` or `gic_disable_irq` changes
the interrupt it names and no other.
-/

namespace Arcline

open Arm (Gic)

/-! ## `gic.c` -/

def gicdWrite (g : Gic) (offset val : BitVec 32) : Gic := g.writeDist (offset.toNat / 4) val

def giccWrite (g : Gic) (offset val : BitVec 32) : Gic := g.writeCpu (offset.toNat / 4) val

/-- `GICD_CTLR` -/
def gicdCtlr : BitVec 32 := 0x000

/-- `GICD_ISENABLER` -/
def gicdIsenabler : BitVec 32 := 0x100

/-- `GICD_ICENABLER` -/
def gicdIcenabler : BitVec 32 := 0x180

/-- `GICC_CTLR` -/
def giccCtlr : BitVec 32 := 0x000

/-- `GICC_PMR` -/
def giccPmr : BitVec 32 := 0x004

/-- `GICC_EOIR` -/
def giccEoir : BitVec 32 := 0x010

/-- The loop of `gic_init`. -/
def gicDisableAll (g : Gic) : Gic :=
  (List.range 32).foldl (fun g i => gicdWrite g (gicdIcenabler + BitVec.ofNat 32 i * 4) 0xFFFFFFFF#32) g

/-- `gic_init` with a GICv2. -/
def gicInit (g : Gic) : Gic :=
  let g := gicdWrite g gicdCtlr 0
  let g := gicDisableAll g
  let g := gicdWrite g gicdCtlr 1
  let g := giccWrite g giccPmr 0xFF
  giccWrite g giccCtlr 1

/-- `gic_enable_irq` and `gic_disable_irq`: a store of the interrupt's bit to a register of the bank at
`base`. -/
def gicWriteIrq (base : BitVec 32) (g : Gic) (irq : Int) : Gic :=
  if irq < 0 ∨ 1020 ≤ irq then g
  else
    let reg := BitVec.ofNat 32 (irq.toNat / 32)
    gicdWrite g (base + reg * 4) (1#32 <<< (irq.toNat % 32))

def gicEnableIrq : Gic → Int → Gic := gicWriteIrq gicdIsenabler

def gicDisableIrq : Gic → Int → Gic := gicWriteIrq gicdIcenabler

def gicEoiIrq (g : Gic) (irq : BitVec 32) : Gic := giccWrite g giccEoir irq

/-- The interrupt is the one a call names. -/
def Selects (irq : Int) (i : Nat) : Prop := irq = i ∧ i < 1020

instance (irq : Int) (i : Nat) : Decidable (Selects irq i) := inferInstanceAs (Decidable (_ ∧ _))

/-- The word of a bank that a call stores to. -/
theorem bank_index {base : BitVec 32} {n : Nat} (hbase : base.toNat ≤ 0x180) (hfour : base.toNat % 4 = 0)
    (hn : n < 32) : (base + BitVec.ofNat 32 n * 4).toNat / 4 = base.toNat / 4 + n := by
  have hlt : base.toNat + n * 4 < 2 ^ 32 := by omega
  have hoffset : (base + BitVec.ofNat 32 n * 4).toNat = base.toNat + n * 4 := by
    rw [BitVec.toNat_add, BitVec.toNat_mul, BitVec.toNat_ofNat]
    show (base.toNat + n % 2 ^ 32 * 4 % 2 ^ 32) % 2 ^ 32 = _
    omega
  rw [hoffset]
  omega

/-- The bit that a call stores. -/
theorem irq_bit (n i : Nat) :
    (decide (i / 32 = n / 32) && (1#32 <<< (n % 32)).getLsbD (i % 32)) = decide (i = n) := by
  have hbit : (1#32 <<< (n % 32)).getLsbD (i % 32) = decide (i % 32 = n % 32) := by
    rw [BitVec.getLsbD_shiftLeft, BitVec.getLsbD_one, Bool.eq_iff_iff]
    simp only [Bool.and_eq_true, decide_eq_true_eq, Bool.not_eq_true', decide_eq_false_iff_not]
    omega
  rw [hbit, Bool.eq_iff_iff]
  simp only [Bool.and_eq_true, decide_eq_true_eq]
  omega

/-- A call names an interrupt, or it does nothing. -/
theorem gicWriteIrq_cases (base : BitVec 32) (hbase : base.toNat ≤ 0x180) (hfour : base.toNat % 4 = 0)
    (g : Gic) (irq : Int) :
    (∃ n < 1020, (∀ i, decide (Selects irq i) = decide (i = n)) ∧
      gicWriteIrq base g irq = g.writeDist (base.toNat / 4 + n / 32) (1#32 <<< (n % 32))) ∨
    (∀ i, ¬ Selects irq i) ∧ gicWriteIrq base g irq = g := by
  by_cases hrange : irq < 0 ∨ 1020 ≤ irq
  · right
    refine ⟨?_, if_pos hrange⟩
    rintro i ⟨rfl, hi⟩
    omega
  · left
    obtain ⟨n, rfl⟩ : ∃ n : Nat, irq = n := ⟨irq.toNat, by omega⟩
    refine ⟨n, by omega, fun i => ?_, ?_⟩
    · rw [decide_eq_decide, Selects]
      omega
    · rw [gicWriteIrq, if_neg hrange]
      dsimp only
      rw [gicdWrite, Int.toNat_natCast, bank_index hbase hfour (by omega)]

theorem gicEnableIrq_eq (g : Gic) (irq : Int) :
    gicEnableIrq g irq = { g with enabled := fun i => g.enabled i || decide (Selects irq i) } := by
  have hbase : gicdIsenabler.toNat / 4 = 64 := by decide
  rcases gicWriteIrq_cases gicdIsenabler (by decide) (by decide) g irq with
    ⟨n, hn, hsel, hwrite⟩ | ⟨hsel, hwrite⟩
  · rw [gicEnableIrq, hwrite, hbase, Gic.writeDist, if_neg (by omega), if_pos (by omega)]
    simp only [Nat.add_sub_cancel_left, irq_bit, hsel]
  · rw [gicEnableIrq, hwrite]
    simp [hsel]

theorem gicDisableIrq_eq (g : Gic) (irq : Int) :
    gicDisableIrq g irq = { g with enabled := fun i => g.enabled i && !decide (Selects irq i) } := by
  have hbase : gicdIcenabler.toNat / 4 = 96 := by decide
  rcases gicWriteIrq_cases gicdIcenabler (by decide) (by decide) g irq with
    ⟨n, hn, hsel, hwrite⟩ | ⟨hsel, hwrite⟩
  · rw [gicDisableIrq, hwrite, hbase, Gic.writeDist, if_neg (by omega), if_neg (by omega),
      if_pos (by omega)]
    simp only [Nat.add_sub_cancel_left, irq_bit, hsel]
  · rw [gicDisableIrq, hwrite]
    simp [hsel]

/-- The loop of `gic_init` after `n` stores. -/
theorem foldl_disable (g : Gic) {n : Nat} (hn : n ≤ 32) :
    (List.range n).foldl (fun g i => gicdWrite g (gicdIcenabler + BitVec.ofNat 32 i * 4) 0xFFFFFFFF#32) g =
      { g with enabled := fun i => g.enabled i && !decide (i / 32 < n) } := by
  induction n with
  | zero => simp
  | succ n ih =>
      have hbase : gicdIcenabler.toNat / 4 = 96 := by decide
      have hones : ∀ i, (0xFFFFFFFF#32).getLsbD (i % 32) = true := by
        intro i
        have hi : i % 32 < 32 := Nat.mod_lt i (by decide)
        revert hi
        generalize i % 32 = j
        decide +revert
      rw [List.range_succ, List.foldl_append, ih (by omega), List.foldl_cons, List.foldl_nil, gicdWrite,
        bank_index (by decide) (by decide) (by omega), hbase, Gic.writeDist, if_neg (by omega),
        if_neg (by omega), if_pos (by omega)]
      congr 1
      funext i
      rw [Nat.add_sub_cancel_left, hones, Bool.and_true, Bool.and_assoc, ← Bool.not_or]
      congr 2
      rw [← Bool.decide_or, decide_eq_decide]
      omega

/-- After `gic_init` no interrupt is enabled, and those that are enabled later are forwarded. -/
theorem gicInit_eq (g : Gic) :
    gicInit g =
      { g with
        ctlr := 1
        cpuCtlr := 1
        pmr := 0xFF
        enabled := fun i => g.enabled i && !decide (i / 32 < 32) } := by
  unfold gicInit gicDisableAll
  dsimp only
  rw [foldl_disable _ (Nat.le_refl 32)]
  rfl

/-! ## `irq.c` -/

/-- `MAX_IRQS` -/
def maxIrqs : Int := 1024

/-- `irq_handler_t`: the handler of the timer, or that of another device. -/
inductive IrqHandler (H : Type)
  | timer
  | device (h : H)

/-- `irq_table`, each entry with its `dev`; NULL is `none`. -/
abbrev IrqTable (H : Type) := Nat → Option (IrqHandler H × Word)

section Table

variable {H : Type} (table : IrqTable H) (irq : Int)

/-- `irq_init` -/
def irqInit : IrqTable H := fun _ => none

/-- `irq_install_handler` -/
def irqInstallHandler (handler : Option (IrqHandler H)) (dev : Word) : Int × IrqTable H :=
  match handler with
  | none => (-1, table)
  | some handler =>
      if irq < 0 ∨ maxIrqs ≤ irq then (-1, table)
      else if (table irq.toNat).isSome then (-2, table)
      else (0, Function.update table irq.toNat (some (handler, dev)))

/-- `irq_uninstall_handler` -/
def irqUninstallHandler : IrqTable H :=
  if irq < 0 ∨ maxIrqs ≤ irq then table else Function.update table irq.toNat none

/-- The call that `irq_dispatch` makes. -/
def irqDispatch : Option (IrqHandler H × Word) :=
  if irq < 0 ∨ maxIrqs ≤ irq then none else table irq.toNat

end Table

end Arcline
