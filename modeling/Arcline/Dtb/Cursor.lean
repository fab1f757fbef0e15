import Arcline.Dtb.Gic
import Arcline.Dtb.Nesting
import Arcline.Dtb.Stdout
import Arcline.Fuel

set_option autoImplicit false

/-! # The cursor of the token loops

Four functions walk the structure block with a 32-bit cursor that is compared with nothing:
`dtb_find_memory_region`, `reserve_reserved_memory`, `dtb_get_stdout_uart_base` and
`gic_detect_version`. The first three go from token to token in one way (`Next`); the last rounds
otherwise and ends at a `NOP` (`GicNext`). Whatever the bytes are, as long as names end, the loops
return just if no token is reached again from itself; and that takes a token whose end is not below
`2^32` (`Fits`), since any other sends the cursor forward.
-/

namespace Arcline

namespace Fdt

open Fuel Relation

variable {fdt : Nat → Byte}

/-! ## Names -/

/-- The string at `off` has `len` bytes. -/
def NameAt (fdt : Nat → Byte) (off len : Nat) : Prop :=
  fdt (off + len) = 0 ∧ ∀ i, i < len → fdt (off + i) ≠ 0

/-- The name of every node ends. -/
def NamesEnd (fdt : Nat → Byte) : Prop :=
  ∀ p : BitVec 32, be32 fdt p.toNat = beginNode → ∃ i, fdt ((p + 4).toNat + i) = 0

theorem exists_nameAt (off : Nat) (h : ∃ i, fdt (off + i) = 0) : ∃ len, NameAt fdt off len :=
  ⟨Nat.find h, Nat.find_spec h, fun _ hi => Nat.find_min h hi⟩

variable {off len : Nat} {p : BitVec 32}

theorem NameAt.unique {len' : Nat} (h : NameAt fdt off len) (h' : NameAt fdt off len') :
    len = len' := by
  rcases Nat.lt_trichotomy len len' with hlt | heq | hlt
  · exact absurd h.1 (h'.2 len hlt)
  · exact heq
  · exact absurd h'.1 (h.2 len' hlt)

theorem nameAt_of_startsWith {name : List Byte} (hname : startsWith fdt off (name ++ [0]) = true)
    (hzero : 0 ∉ name) : NameAt fdt off name.length := by
  induction name generalizing off with
  | nil => exact ⟨by simpa [startsWith] using hname, fun i hi => absurd hi (Nat.not_lt_zero i)⟩
  | cons b name ih =>
      simp only [List.cons_append, startsWith, Bool.and_eq_true, beq_iff_eq] at hname
      simp only [List.mem_cons, not_or] at hzero
      obtain ⟨hend, hin⟩ := ih hname.2 hzero.2
      have hshift : ∀ i, off + 1 + i = off + (i + 1) := fun i => by omega
      refine ⟨by rwa [hshift] at hend, fun i hi => ?_⟩
      cases i with
      | zero => exact fun h0 => hzero.1 (h0.symm.trans hname.1)
      | succ i => exact hshift i ▸ hin i (Nat.lt_of_succ_lt_succ hi)

/-- The loop over a name gives its length, with one step for each byte and one for the end. -/
theorem NameAt.nameLen_eq (h : NameAt fdt off len) (fuel acc : Nat) :
    nameLen fdt fuel off acc = if len < fuel then some (acc + len) else none := by
  induction fuel generalizing off len acc with
  | zero => rfl
  | succ fuel ih =>
      rw [nameLen]
      cases len with
      | zero =>
          have h0 : fdt off = 0 := h.1
          rw [if_pos h0, if_pos (Nat.succ_pos fuel), Nat.add_zero]
      | succ len =>
          have hshift : ∀ i, off + (i + 1) = off + 1 + i := fun i => by omega
          have hrest : NameAt fdt (off + 1) len :=
            ⟨hshift len ▸ h.1, fun i hi => hshift i ▸ h.2 (i + 1) (Nat.succ_lt_succ hi)⟩
          have h0 : fdt off ≠ 0 := h.2 0 (Nat.succ_pos len)
          rw [if_neg h0, ih hrest, Nat.add_assoc, Nat.add_comm 1]
          simp only [Nat.add_lt_add_iff_right]

theorem NameAt.nameLen_returns (h : NameAt fdt off len) :
    ReturnsAs (fun fuel => nameLen fdt fuel off 0) len := by
  refine ⟨len + 1, fun fuel hfuel => (h.nameLen_eq fuel 0).trans ?_⟩
  rw [if_pos (show len < fuel from hfuel), Nat.zero_add]

/-- A loop over a name, then something with its length that has no result, has none. -/
theorem NameAt.bind_none {α : Type} {fuel : Nat} (h : NameAt fdt off len) {k : Nat → Option α}
    (hk : k len = none) : (nameLen fdt fuel off 0).bind k = none := by
  rw [h.nameLen_eq, Nat.zero_add]
  split
  · exact hk
  · rfl

/-! ## From token to token -/

/-- Where the cursor goes from the token at `p`. -/
inductive Next (fdt : Nat → Byte) (p : BitVec 32) : BitVec 32 → Prop
  | beginNode {len : Nat} (htoken : be32 fdt p.toNat = beginNode)
      (hname : NameAt fdt (p + 4).toNat len) : Next fdt p (skipName (p + 4) len)
  | prop (htoken : be32 fdt p.toNat = prop) :
      Next fdt p (skipData (p + 4 + 8) (be32 fdt (p + 4).toNat))
  | endNode (htoken : be32 fdt p.toNat = endNode) : Next fdt p (p + 4)
  | nop (htoken : be32 fdt p.toNat = nop) : Next fdt p (p + 4)

/-- At `p`, `gic_detect_version` sees the property it looks for. -/
def IsGicV3At (fdt : Nat → Byte) (p : BitVec 32) : Bool :=
  isString fdt ((offStrings fdt).toNat + (be32 fdt (p + 4 + 4).toNat).toNat) "compatible" &&
    startsWith fdt (p + 4 + 8).toNat (bytesOf "arm,gic-v3")

/-- Where the cursor of `gic_detect_version` goes. -/
inductive GicNext (fdt : Nat → Byte) (p : BitVec 32) : BitVec 32 → Prop
  | beginNode {len : Nat} (htoken : be32 fdt p.toNat = beginNode)
      (hname : NameAt fdt (p + 4).toNat len) :
      GicNext fdt p ((p + 4 + BitVec.ofNat 32 len + 4) &&& ~~~3)
  | prop (htoken : be32 fdt p.toNat = prop) (hother : IsGicV3At fdt p = false) :
      GicNext fdt p ((p + 4 + 8 + be32 fdt (p + 4).toNat + 3) &&& ~~~3)
  | endNode (htoken : be32 fdt p.toNat = endNode) : GicNext fdt p (p + 4)

/-- The token at `p` ends below `2^32`, padding and all. -/
structure Fits (fdt : Nat → Byte) (p : BitVec 32) : Prop where
  name : ∀ len, be32 fdt p.toNat = beginNode → NameAt fdt (p + 4).toNat len →
    p.toNat + 8 + len < 2 ^ 32
  data : be32 fdt p.toNat = prop → p.toNat + 15 + (be32 fdt (p + 4).toNat).toNat < 2 ^ 32
  bare : be32 fdt p.toNat = endNode ∨ be32 fdt p.toNat = nop → p.toNat + 4 < 2 ^ 32

theorem toNat_add_four (h : p.toNat + 4 < 2 ^ 32) : (p + 4).toNat = p.toNat + 4 :=
  toNat_add_lt rfl h

theorem toNat_add_twelve (h : p.toNat + 12 < 2 ^ 32) : (p + 4 + 8).toNat = p.toNat + 12 :=
  toNat_add_lt (toNat_add_four (by omega)) (show p.toNat + 4 + 8 < 2 ^ 32 by omega)

/-- From a token that fits, the cursor goes forward. -/
theorem Next.lt {q : BitVec 32} (h : Next fdt p q) (hfits : Fits fdt p) : p.toNat < q.toNat := by
  cases h with
  | @beginNode len htoken hname =>
      have hlt := hfits.name len htoken hname
      have h4 := toNat_add_four (p := p) (by omega)
      rw [skipName_toNat (by omega), h4]
      omega
  | prop htoken =>
      have hlt := hfits.data htoken
      have h12 := toNat_add_twelve (p := p) (by omega)
      rw [skipData_toNat (by omega), h12]
      omega
  | endNode htoken =>
      rw [toNat_add_four (hfits.bare (.inl htoken))]
      omega
  | nop htoken =>
      rw [toNat_add_four (hfits.bare (.inr htoken))]
      omega

theorem GicNext.lt {q : BitVec 32} (h : GicNext fdt p q) (hfits : Fits fdt p) : p.toNat < q.toNat := by
  cases h with
  | @beginNode len htoken hname =>
      have hlt := hfits.name len htoken hname
      have h4 := toNat_add_four (p := p) (by omega)
      have hsum : (p + 4 + BitVec.ofNat 32 len + 4).toNat = p.toNat + 8 + len := by
        rw [BitVec.toNat_add, BitVec.toNat_add, h4, BitVec.toNat_ofNat]
        show ((p.toNat + 4 + len % 2 ^ 32) % 2 ^ 32 + 4) % 2 ^ 32 = p.toNat + 8 + len
        omega
      rw [and_not_three, hsum]
      omega
  | prop htoken hother =>
      have hlt := hfits.data htoken
      have h12 := toNat_add_twelve (p := p) (by omega)
      have hsum : (p + 4 + 8 + be32 fdt (p + 4).toNat + 3).toNat =
          p.toNat + 15 + (be32 fdt (p + 4).toNat).toNat := by
        rw [BitVec.toNat_add, BitVec.toNat_add, h12]
        show ((p.toNat + 12 + _) % 2 ^ 32 + 3) % 2 ^ 32 = _
        omega
      rw [and_not_three, hsum]
      omega
  | endNode htoken =>
      rw [toNat_add_four (hfits.bare (.inl htoken))]
      omega

/-! ## The loops that return -/

section

variable (hnames : NamesEnd fdt)

include hnames

/-- A turn of `dtb_find_memory_region` or of `reserve_reserved_memory`. -/
theorem turn_returns {σ ρ : Type} (V : Visit σ ρ) (s : BitVec 32 × σ) :
    ∃ r, ReturnsAs (fun fuel => turn fdt V fuel s) r ∧ ∀ s', r = .ok s' → Next fdt s.1 s'.1 := by
  obtain ⟨p, s⟩ := s
  by_cases hbegin : be32 fdt p.toNat = beginNode
  · obtain ⟨len, hlen⟩ := exists_nameAt _ (hnames p hbegin)
    simp only [turn, if_pos hbegin]
    refine ⟨_, hlen.nameLen_returns.map _, fun s' hs' => ?_⟩
    cases hs'
    exact .beginNode hbegin hlen
  simp only [turn, if_neg hbegin]
  by_cases hprop : be32 fdt p.toNat = prop
  · simp only [if_pos hprop]
    refine ⟨_, .pure _, fun s' hs' => ?_⟩
    obtain ⟨s₁, rfl⟩ := exists_of_map_ok hs'
    exact .prop hprop
  simp only [if_neg hprop]
  by_cases hend : be32 fdt p.toNat = endNode
  · simp only [if_pos hend]
    refine ⟨_, .pure _, fun s' hs' => ?_⟩
    cases hs'
    exact .endNode hend
  simp only [if_neg hend]
  by_cases hnop : be32 fdt p.toNat = nop
  · simp only [if_pos hnop]
    refine ⟨_, .pure _, fun s' hs' => ?_⟩
    cases hs'
    exact .nop hnop
  · simp only [if_neg hnop]
    refine ⟨_, .pure _, fun s' hs' => ?_⟩
    cases hs'

/-- `gic_detect_version`. -/
theorem gicVersion_returns (hacc : Acc (fun q p => GicNext fdt p q) p) :
    Returns fun fuel => gicVersion fdt fuel p := by
  induction hacc with
  | intro p _ ih =>
      refine .step (fun fuel => gicVersion.eq_2 fdt p fuel) ?_
      refine .ite (fun hbegin => ?_) fun _ => .ite (fun hprop => ?_) fun _ =>
        .ite (fun hend => ?_) fun _ => .pure 2
      · obtain ⟨len, hlen⟩ := exists_nameAt _ (hnames p hbegin)
        exact .bind hlen.nameLen_returns (ih _ (.beginNode hbegin hlen))
      · exact .ite (fun _ => .pure 3) fun hother =>
          ih _ (.prop hprop (Bool.eq_false_of_not_eq_true hother))
      · exact ih _ (.endNode hend)

end

/-! ### The two passes of `dtb_get_stdout_uart_base` -/

variable {σ κ ρ : Type}

/-- The loops inside the steps of a pass return as long as `Inv` holds, and it goes on to hold. -/
structure Pass.Total (P : Pass σ κ ρ) (Inv : σ → Prop) : Prop where
  enter : ∀ s off len, Inv s → ∃ s' k, ReturnsAs (fun fuel => P.enter fuel s off len) (s', k) ∧ Inv s'
  prop : ∀ {k s pname pdata len s'}, P.prop k s pname pdata len = .ok s' → Inv s → Inv s'
  leave : ∀ s, Inv s → ∃ s', ReturnsAs (fun fuel => P.leave fuel s) s' ∧ Inv s'
  up : ∀ s, Inv s → Inv (P.up s)

theorem Pass.Total.walk_returns {P : Pass σ κ ρ} {Inv : σ → Prop} (hP : P.Total Inv)
    (hnames : NamesEnd fdt) (hacc : Acc (fun q p => Next fdt p q) p) (inner : Option κ) (s : σ)
    (hs : Inv s) : Returns fun fuel => walk fdt P fuel inner p s := by
  induction hacc generalizing inner s with
  | intro p _ ih =>
      -- a begin is taken by the outer loop; the inner one only goes back to it
      have houter : ∀ s, Inv s → Returns fun fuel => walk fdt P fuel none p s := by
        intro s hs
        refine .step (fun fuel => walk.eq_3 fdt P p s fuel) ?_
        refine .ite (fun hbegin => ?_) fun _ => .ite (fun hprop => ?_) fun _ =>
          .ite (fun hend => ?_) fun _ => .ite (fun hnop => ?_) fun _ => .pure _
        · obtain ⟨len, hlen⟩ := exists_nameAt _ (hnames p hbegin)
          obtain ⟨s', k, henter, hs'⟩ := hP.enter s (p + 4).toNat len hs
          refine .bind hlen.nameLen_returns (.bind henter ?_)
          rw [add_align4_name]
          exact ih _ (.beginNode hbegin hlen) (some k) s' hs'
        · exact ih _ (.prop hprop) none s hs
        · exact ih _ (.endNode hend) none _ (hP.up s hs)
        · exact ih _ (.nop hnop) none s hs
      cases inner with
      | none => exact houter s hs
      | some k =>
          refine .step (fun fuel => walk.eq_2 fdt P p s fuel k) ?_
          refine .ite (fun _ => houter s hs) fun _ => .ite (fun hprop => ?_) fun _ =>
            .ite (fun hend => ?_) fun _ => .ite (fun hnop => ?_) fun _ => .pure _
          · dsimp only
            cases hstep : P.prop k s _ _ _ with
            | error r => exact .pure r
            | ok s' => exact ih _ (.prop hprop) (some k) s' (hP.prop hstep hs)
          · obtain ⟨s', hleave, hs'⟩ := hP.leave s hs
            exact .bind hleave (ih _ (.endNode hend) none s' hs')
          · exact ih _ (.nop hnop) (some k) s hs

theorem collect_total (fdt : Nat → Byte) : (collect fdt).Total fun _ => True where
  enter _ _ _ _ := ⟨_, _, .pure _, trivial⟩
  prop _ _ := trivial
  leave _ _ := ⟨_, .pure _, trivial⟩
  up _ _ := trivial

/-- The path of the second pass ends. -/
def Search.PathEnds (s : Search) : Prop := ∃ i, s.currentPath.bytes i = 0

theorem Buf.set_self (b : Buf) (i : Nat) (x : Byte) : (b.set i x).bytes i = x := if_pos rfl

/-- A path is spelled and cut as long as it ends, and then ends again. -/
theorem pushPath_returns {b : Buf} (hb : ∃ i, b.bytes i = 0) (fdt : Nat → Byte) (name len : Nat) :
    ∃ b', ReturnsAs (fun fuel => pushPath fdt fuel name len b) b' ∧ ∃ i, b'.bytes i = 0 := by
  obtain ⟨cur, hcur⟩ := exists_nameAt 0 (by simpa using hb)
  exact ⟨_, hcur.nameLen_returns.map _, _, Buf.set_self _ _ 0⟩

theorem popPath_returns {b : Buf} (hb : ∃ i, b.bytes i = 0) :
    ∃ b', ReturnsAs (fun fuel => popPath fuel b) b' ∧ ∃ i, b'.bytes i = 0 := by
  obtain ⟨cur, hcur⟩ := exists_nameAt 0 (by simpa using hb)
  refine ⟨_, hcur.nameLen_returns.map _, ?_⟩
  dsimp only
  split
  · exact ⟨_, Buf.set_self _ _ 0⟩
  · exact ⟨_, Buf.set_self _ _ 0⟩

theorem pathEquals_returns {a : Nat → Byte} (b : Nat → Byte) (ha : ∃ i, a i = 0) :
    Returns fun fuel => pathEquals a b fuel 0 := by
  obtain ⟨n, hn⟩ := ha
  suffices h : ∀ k, k ≤ n → Returns fun fuel => pathEquals a b fuel (n - k) by
    simpa using h n (Nat.le_refl n)
  -- going back from the end of `a`
  intro k
  induction k with
  | zero =>
      intro _
      refine .step (fun fuel => pathEquals.eq_2 a b n fuel) (.ite (fun h => absurd hn h.1) fun _ => .pure _)
  | succ k ih =>
      intro hk
      refine .step (fun fuel => pathEquals.eq_2 a b _ fuel) (.ite (fun _ => ?_) fun _ => .pure _)
      refine .ite (fun _ => .pure _) fun _ => ?_
      rw [show n - (k + 1) + 1 = n - k by omega]
      exact ih (by omega)

theorem locate_total (fdt : Nat → Byte) : (locate fdt).Total Search.PathEnds where
  enter s off len hs := by
    have hpath : ∃ path, ReturnsAs (fun fuel => if s.depth = 0 ∧ len = 0 then some s.currentPath
        else pushPath fdt fuel off len s.currentPath) path ∧ ∃ i, path.bytes i = 0 := by
      by_cases hroot : s.depth = 0 ∧ len = 0
      · exact ⟨s.currentPath, by simpa only [if_pos hroot] using .pure _, hs⟩
      · simpa only [if_neg hroot] using pushPath_returns hs fdt off len
    obtain ⟨path, hpath, hends⟩ := hpath
    obtain ⟨atTarget, heq⟩ := pathEquals_returns s.targetPath hends
    exact ⟨_, atTarget, hpath.bind (heq.map _), hends⟩
  prop hstep hs := by
    simp only [locate] at hstep
    split at hstep
    · cases hstep
    · cases hstep
      exact hs
  leave s hs := by
    obtain ⟨path, hpath, hends⟩ := popPath_returns hs
    exact ⟨_, hpath.map _, hends⟩
  up _ hs := hs

/-- `dtb_get_stdout_uart_base`. -/
theorem stdoutUartBase_returns (hnames : NamesEnd fdt)
    (hacc : Acc (fun q p => Next fdt p q) (offStruct fdt)) (frame : Frame) :
    Returns fun fuel => stdoutUartBase fdt frame fuel := by
  obtain ⟨s, hs⟩ := (collect_total fdt).walk_returns hnames hacc none ⟨0, none, [], [], []⟩ trivial
  refine .bind hs ?_
  cases resolvePath fdt s ⟨frame.resolvedPathBuf, []⟩ with
  | none => exact .pure _
  | some target =>
      obtain ⟨r, hr⟩ := (locate_total fdt).walk_returns hnames hacc none
        ⟨0, target.bytes, (Buf.set ⟨frame.currentPath, []⟩ 0 slash).set 1 0, 0⟩
        ⟨1, Buf.set_self _ _ 0⟩
      exact ⟨_, hr.map _⟩

/-! ## The loops without end -/

/-- A turn goes to the next token, unless a property ends the loop. -/
theorem turn_of_next {V : Visit σ ρ}
    (hprop : ∀ s pname pdata len, ∃ s', V.prop s pname pdata len = .ok s') (fuel : Nat)
    (s : BitVec 32 × σ) (q : BitVec 32) (hnext : Next fdt s.1 q) :
    turn fdt V fuel s = none ∨ ∃ s', turn fdt V fuel s = some (.ok s') ∧ s'.1 = q := by
  obtain ⟨p, s⟩ := s
  cases hnext with
  | @beginNode len htoken hname =>
      simp only [turn, if_pos htoken, hname.nameLen_eq, Nat.zero_add]
      by_cases hlen : len < fuel
      · rw [if_pos hlen]
        exact .inr ⟨_, rfl, rfl⟩
      · rw [if_neg hlen]
        exact .inl rfl
  | prop htoken =>
      obtain ⟨s', hs'⟩ := hprop s _ _ _
      exact .inr ⟨_, (turn_prop htoken).trans (congrArg (fun r => some (Except.map _ r)) hs'), rfl⟩
  | endNode htoken => exact .inr ⟨_, turn_endNode htoken, rfl⟩
  | nop htoken => exact .inr ⟨_, turn_nop htoken, rfl⟩

theorem reservedMemory_endless (fuel : Nat) (h : Endless (Next fdt) (offStruct fdt)) (pmm : Pmm) :
    reservedMemory fdt fuel pmm = none :=
  loop_endless (turn_of_next fun _ _ _ _ => ⟨_, rfl⟩) fuel h

theorem gicVersion_endless (fuel : Nat) (h : Endless (GicNext fdt) p) :
    gicVersion fdt fuel p = none := by
  induction fuel generalizing p with
  | zero => rfl
  | succ fuel ih =>
      obtain ⟨q, hnext, hq⟩ := h.exists_next
      rw [gicVersion]
      dsimp only
      cases hnext with
      | beginNode htoken hname =>
          rw [if_pos htoken]
          exact hname.bind_none (ih hq)
      | prop htoken hother =>
          rw [htoken, if_neg (by decide), if_pos rfl]
          exact (if_neg (ne_true_of_eq_false hother)).trans (ih hq)
      | endNode htoken =>
          rw [htoken, if_neg (by decide), if_neg (by decide), if_pos rfl]
          exact ih hq

/-! ## When the loops return -/

instance finiteBitVec : Finite (BitVec 32) :=
  Finite.of_injective BitVec.toFin fun _ _ => BitVec.eq_of_toFin_eq

/-- From `p` on, no token that does not fit is reached again from itself. -/
def NoWayBack (fdt : Nat → Byte) (next : BitVec 32 → BitVec 32 → Prop) (p : BitVec 32) : Prop :=
  ∀ q, ReflTransGen next p q → ¬ Fits fdt q → ¬ TransGen next q q

/-- Where every token that is reached fits, the cursor does not come back. -/
theorem noWayBack_of_fits {next : BitVec 32 → BitVec 32 → Prop}
    (h : ∀ q, ReflTransGen next p q → Fits fdt q) : NoWayBack fdt next p :=
  fun q hreach hfits => absurd (h q hreach) hfits

/-- Only tokens that do not fit can make a ring. -/
theorem noWayBack_iff {next : BitVec 32 → BitVec 32 → Prop}
    (hup : ∀ {p q}, next p q → Fits fdt p → p.toNat < q.toNat) (p : BitVec 32) :
    NoWayBack fdt next p ↔ ¬ Endless next p := by
  constructor
  · intro h hend
    obtain ⟨q, q', hreach, hring, hstep, hle⟩ := hend.exists_step_le BitVec.toNat
    exact h q hreach (fun hfits => absurd (hup hstep hfits) (Nat.not_lt.mpr hle)) hring
  · intro h q hreach _ hring
    exact h ⟨q, hreach, hring⟩

/-- One of the loops comes to the token at `p`. -/
def Reached (fdt : Nat → Byte) (p : BitVec 32) : Prop :=
  ReflTransGen (Next fdt) (offStruct fdt) p ∨ ReflTransGen (GicNext fdt) (offStruct fdt) p

end Fdt

namespace BootEnv

open Fdt Fuel

/-- The four token loops return, whatever the allocator and the arrays on the stack hold. -/
structure TokenLoopsReturn (env : BootEnv) : Prop where
  memory : Returns fun fuel => env.dtbFindMemoryRegion fuel
  reserved : ∀ pmm, Returns fun fuel => env.reserveReservedMemory fuel pmm
  stdout : ∀ frame, Returns fun fuel => env.dtbGetStdoutUartBase frame fuel
  gic : Returns fun fuel => env.gicDetectVersion fuel

theorem tokenLoopsReturn_iff {env : BootEnv} (hdtb : env.dtbPtr ≠ 0)
    (hmagic : be32 env.fdt 0 = magic) (hnames : NamesEnd env.fdt) :
    env.TokenLoopsReturn ↔ NoWayBack env.fdt (Next env.fdt) (offStruct env.fdt) ∧
      NoWayBack env.fdt (GicNext env.fdt) (offStruct env.fdt) := by
  have hguard : ¬ (env.dtbPtr = 0 ∨ be32 env.fdt 0 ≠ magic) := not_or.mpr ⟨hdtb, not_not.mpr hmagic⟩
  rw [noWayBack_iff Next.lt, noWayBack_iff GicNext.lt]
  constructor
  · intro h
    constructor
    · intro hend
      refine not_returns (fun fuel => ?_) (h.reserved (freshPmm 0 0))
      rw [reserveReservedMemory, if_neg hguard]
      exact reservedMemory_endless fuel hend _
    · intro hend
      refine not_returns (fun fuel => ?_) h.gic
      rw [gicDetectVersion, if_neg hdtb]
      exact gicVersion_endless fuel hend
  · rintro ⟨hnext, hgic⟩
    have hacc := acc_of_not_endless hnext
    refine ⟨?_, fun pmm => ?_, fun frame => ?_, ?_⟩
    · simp only [dtbFindMemoryRegion, if_neg hguard]
      exact loop_returns (turn_returns hnames (memoryVisit env.fdt)) hacc
    · simp only [reserveReservedMemory, if_neg hguard]
      exact loop_returns (turn_returns hnames (reservedVisit env.fdt)) hacc
    · simp only [dtbGetStdoutUartBase, if_neg hguard]
      exact stdoutUartBase_returns hnames hacc frame
    · simp only [gicDetectVersion, if_neg hdtb]
      exact gicVersion_returns hnames (acc_of_not_endless hgic)

/-- **The token loops return**, on a blob whose magic is right and whose names end, if every token they
reach ends below `2^32`; and they return just if no token they reach that ends at `2^32` or above sends the
cursor, modulo `2^32`, back to itself. -/
theorem token_loops_return_iff {env : BootEnv} (hdtb : env.dtbPtr ≠ 0)
    (hmagic : be32 env.fdt 0 = magic) (hnames : NamesEnd env.fdt) :
    ((∀ p, Reached env.fdt p → Fits env.fdt p) → env.TokenLoopsReturn) ∧
      (env.TokenLoopsReturn ↔ NoWayBack env.fdt (Next env.fdt) (offStruct env.fdt) ∧
        NoWayBack env.fdt (GicNext env.fdt) (offStruct env.fdt)) := by
  have hiff := tokenLoopsReturn_iff hdtb hmagic hnames
  refine ⟨fun hfits => hiff.mpr ⟨?_, ?_⟩, hiff⟩
  · exact noWayBack_of_fits fun q hreach => hfits q (.inl hreach)
  · exact noWayBack_of_fits fun q hreach => hfits q (.inr hreach)

end BootEnv

/-! ## Well-formed blobs -/

namespace Fdt

open Relation

variable {fdt : Nat → Byte} {p q : BitVec 32}

/-- Between two tokens of a well-formed blob. -/
def AtToken (fdt : Nat → Byte) (p : BitVec 32) : Prop := 4 ∣ p.toNat ∧ ∃ ts, Stream fdt p.toNat ts

/-- What stands before the next token, by the token itself. -/
theorem Stream.head {ts : List (Option Token)} {p : Nat} (h : Stream fdt p ts) :
    (be32 fdt p = beginNode → ∃ name ts', startsWith fdt (p + 4) (name ++ [0]) = true ∧
        0 ∉ name ∧ Stream fdt (p + 4 + 4 * ((name.length + 4) / 4)) ts') ∧
      (be32 fdt p = prop →
        ∃ ts', Stream fdt (p + 12 + 4 * (((be32 fdt (p + 4)).toNat + 3) / 4)) ts') ∧
      (be32 fdt p = endNode ∨ be32 fdt p = nop → ∃ ts', Stream fdt (p + 4) ts') := by
  match ts, h with
  | [], ⟨_, h⟩ => simp [h, tokenEnd, beginNode, prop, endNode, nop]
  | none :: ts, ⟨h, hrest⟩ => simpa [h, beginNode, prop, nop] using ⟨ts, hrest⟩
  | some (.beginNode name) :: ts, ⟨h, hname, hzero, hrest⟩ =>
      refine ⟨fun _ => ⟨name, ts, hname, hzero, hrest⟩, ?_⟩
      simp [h, beginNode, prop, endNode, nop]
  | some (.prop _ _) :: ts, ⟨h, hlen, _, _, _, hrest⟩ =>
      simpa [h, hlen, beginNode, prop, endNode, nop] using ⟨ts, hrest⟩
  | some .endNode :: ts, ⟨h, hrest⟩ => simpa [h, beginNode, prop, endNode] using ⟨ts, hrest⟩

namespace AtToken

/-- The name of the node at `p`. -/
theorem name (h : AtToken fdt p) (htoken : be32 fdt p.toNat = beginNode) {len : Nat}
    (hname : NameAt fdt (p + 4).toNat len) :
    ∃ ts, Stream fdt (p.toNat + 4 + 4 * ((len + 4) / 4)) ts := by
  obtain ⟨-, ts, h⟩ := h
  obtain ⟨name, ts', hstart, hzero, hrest⟩ := h.head.1 htoken
  have hle := hrest.le
  rw [toNat_add_four (by omega)] at hname
  rw [hname.unique (nameAt_of_startsWith hstart hzero)]
  exact ⟨ts', hrest⟩

theorem data (h : AtToken fdt p) (htoken : be32 fdt p.toNat = prop) :
    ∃ ts, Stream fdt (p.toNat + 12 + 4 * (((be32 fdt (p + 4).toNat).toNat + 3) / 4)) ts := by
  obtain ⟨-, ts, h⟩ := h
  obtain ⟨ts', hrest⟩ := h.head.2.1 htoken
  have hle := hrest.le
  rw [toNat_add_four (by omega)]
  exact ⟨ts', hrest⟩

theorem bare (h : AtToken fdt p) (htoken : be32 fdt p.toNat = endNode ∨ be32 fdt p.toNat = nop) :
    ∃ ts, Stream fdt (p.toNat + 4) ts := by
  obtain ⟨-, ts, h⟩ := h
  exact h.head.2.2 htoken

theorem fits (h : AtToken fdt p) : Fits fdt p where
  name len htoken hname := by
    obtain ⟨ts, hrest⟩ := h.name htoken hname
    have hle := hrest.le
    have hdvd := h.1
    omega
  data htoken := by
    obtain ⟨ts, hrest⟩ := h.data htoken
    have hle := hrest.le
    have hdvd := h.1
    omega
  bare htoken := by
    obtain ⟨ts, hrest⟩ := h.bare htoken
    have hle := hrest.le
    omega

theorem next (h : AtToken fdt p) (hnext : Next fdt p q) : AtToken fdt q := by
  have hdvd := h.1
  cases hnext with
  | @beginNode len htoken hname =>
      obtain ⟨ts, hrest⟩ := h.name htoken hname
      have hle := hrest.le
      have h4 := toNat_add_four (p := p) (by omega)
      rw [AtToken, skipName_toNat (by omega), h4]
      exact ⟨by omega, ts, hrest⟩
  | prop htoken =>
      obtain ⟨ts, hrest⟩ := h.data htoken
      have hle := hrest.le
      have h12 := toNat_add_twelve (p := p) (by omega)
      rw [AtToken, skipData_toNat (by omega), h12]
      exact ⟨by omega, ts, hrest⟩
  | endNode htoken =>
      rw [AtToken, toNat_add_four (h.fits.bare (.inl htoken))]
      exact ⟨by omega, h.bare (.inl htoken)⟩
  | nop htoken =>
      rw [AtToken, toNat_add_four (h.fits.bare (.inr htoken))]
      exact ⟨by omega, h.bare (.inr htoken)⟩

/-- On an aligned token the two ways of rounding are one. -/
theorem next_of_gic (h : AtToken fdt p) (hnext : GicNext fdt p q) : Next fdt p q := by
  have hdvd := h.1
  cases hnext with
  | @beginNode len htoken hname =>
      have hlt := h.fits.name len htoken hname
      have h4 := toNat_add_four (p := p) (by omega)
      have heq : (p + 4 + BitVec.ofNat 32 len + 4) &&& ~~~3 = skipName (p + 4) len := by
        apply BitVec.eq_of_toNat_eq
        rw [roundName_toNat (by omega) h4 (by omega), skipName_toNat (by omega), h4]
      rw [heq]
      exact .beginNode htoken hname
  | prop htoken _ =>
      have hlt := h.fits.data htoken
      have h12 := toNat_add_twelve (p := p) (by omega)
      have heq : (p + 4 + 8 + be32 fdt (p + 4).toNat + 3) &&& ~~~3 =
          skipData (p + 4 + 8) (be32 fdt (p + 4).toNat) := by
        apply BitVec.eq_of_toNat_eq
        rw [roundData_toNat (by omega) h12 rfl (by omega), skipData_toNat (by omega), h12]
      rw [heq]
      exact .prop htoken
  | endNode htoken => exact .endNode htoken

/-- A walk that goes on as `Next` does stays between tokens. -/
theorem of_reflTransGen {next : BitVec 32 → BitVec 32 → Prop} (h : AtToken fdt p)
    (hnext : ∀ {p q}, AtToken fdt p → next p q → Next fdt p q) (hreach : ReflTransGen next p q) :
    AtToken fdt q := by
  induction hreach with
  | refl => exact h
  | tail _ hstep ih => exact ih.next (hnext ih hstep)

theorem of_reached (h : AtToken fdt (offStruct fdt)) (hreach : Reached fdt p) : AtToken fdt p := by
  rcases hreach with hreach | hreach
  · exact h.of_reflTransGen (fun _ hnext => hnext) hreach
  · exact h.of_reflTransGen next_of_gic hreach

end AtToken

/-- The names of a blob with only zeros behind it end. -/
theorem namesEnd_of_zero {n : Nat} (h : ∀ i, n ≤ i → fdt i = 0) : NamesEnd fdt :=
  fun _ _ => ⟨n, h _ (Nat.le_add_left n _)⟩

end Fdt

open Fdt

theorem namesEnd_blobEnv (ts : List (Option Token)) : NamesEnd (blobEnv ts).fdt := by
  refine namesEnd_of_zero (n := (assemble ts).length) fun i hi => ?_
  show (assemble ts).getD i 0 = 0
  rw [List.getD_eq_getElem?_getD, List.getElem?_eq_none hi, Option.getD_none]

theorem token_loops_return_flat :
    NamesEnd (blobEnv flatTokens).fdt ∧ (blobEnv flatTokens).TokenLoopsReturn := by
  have hnames := namesEnd_blobEnv flatTokens
  have hflat := flattened_flatTokens
  have hat : AtToken (blobEnv flatTokens).fdt (offStruct (blobEnv flatTokens).fdt) :=
    ⟨hflat.aligned, _, hflat.stream⟩
  exact ⟨hnames, (BootEnv.token_loops_return_iff hflat.ptr hflat.magic hnames).1
    fun _ hreach => (hat.of_reached hreach).fits⟩

/-! ## A property with too large a length -/

/-- A root node with one property, at offset 48, said to have `0xFFFFFFF4` bytes. -/
def ringEnv : BootEnv := { oneBank 0 0 with
  fdt := blobByte [0xd00dfeed, 68, 40, 64, 40, 17, 16, 0, 4, 24, 1, 0, 3, 0xFFFFFFF4, 0, 9, 0] }

theorem ringEnv_rootName : NameAt ringEnv.fdt 44 0 :=
  ⟨by decide, fun _ hi => absurd hi (Nat.not_lt_zero _)⟩

theorem ringEnv_next : Next ringEnv.fdt 40 48 ∧ Next ringEnv.fdt 48 48 :=
  ⟨show Next ringEnv.fdt 40 (skipName (40 + 4) 0) from .beginNode (by decide) ringEnv_rootName,
    .prop (by decide)⟩

theorem ringEnv_gicNext : GicNext ringEnv.fdt 40 48 ∧ GicNext ringEnv.fdt 48 48 :=
  ⟨show GicNext ringEnv.fdt 40 ((40 + 4 + BitVec.ofNat 32 0 + 4) &&& ~~~3) from
      .beginNode (by decide) ringEnv_rootName,
    .prop (by decide) (by decide)⟩

theorem ringEnv_memory (fuel : Nat) :
    Fuel.loop (turn ringEnv.fdt (memoryVisit ringEnv.fdt)) fuel (48, ⟨1, false, 2, 2, 1⟩) = none := by
  induction fuel with
  | zero => rfl
  | succ fuel ih => exact ih

theorem ringEnv_collect (fuel : Nat) (k : InNode) (s : Collected) :
    walk ringEnv.fdt (collect ringEnv.fdt) fuel (some k) 48 s = none := by
  induction fuel generalizing s with
  | zero => rfl
  | succ fuel ih => exact ih _

/-- The property ends where it begins, and none of the loops returns. -/
theorem token_loops_ring :
    ringEnv.dtbPtr ≠ 0 ∧ be32 ringEnv.fdt 0 = magic ∧ NamesEnd ringEnv.fdt ∧
      (∀ fuel, ringEnv.dtbFindMemoryRegion fuel = none) ∧
      (∀ fuel pmm, ringEnv.reserveReservedMemory fuel pmm = none) ∧
      (∀ fuel frame, ringEnv.dtbGetStdoutUartBase frame fuel = none) ∧
      ∀ fuel, ringEnv.gicDetectVersion fuel = none := by
  refine ⟨by decide, by decide, ?_, fun fuel => ?_, fun fuel pmm => ?_, fun fuel frame => ?_,
    fun fuel => ?_⟩
  · refine namesEnd_of_zero (n := 68) fun i hi => ?_
    show BitVec.extractLsb' _ 8 (List.getD _ (i / 4) 0) = 0
    rw [List.getD_eq_getElem?_getD, List.getElem?_eq_none (show 17 ≤ i / 4 by omega), Option.getD_none]
    exact BitVec.extractLsb'_zero
  · show memoryRegion ringEnv.fdt fuel = none
    cases fuel with
    | zero => rfl
    | succ fuel => exact Option.bind_map.trans (ringEnv_rootName.bind_none (ringEnv_memory fuel))
  · exact reservedMemory_endless fuel ⟨48, .single ringEnv_next.1, .single ringEnv_next.2⟩ pmm
  · -- already the first pass has no end
    have hwalk : walk ringEnv.fdt (collect ringEnv.fdt) fuel none 40 ⟨0, none, [], [], []⟩ = none := by
      cases fuel with
      | zero => rfl
      | succ fuel => exact ringEnv_rootName.bind_none (ringEnv_collect fuel _ _)
    show (walk ringEnv.fdt (collect ringEnv.fdt) fuel none 40 ⟨0, none, [], [], []⟩).bind _ = none
    rw [hwalk, Option.bind_none]
  · exact gicVersion_endless fuel ⟨48, .single ringEnv_gicNext.1, .single ringEnv_gicNext.2⟩

end Arcline
