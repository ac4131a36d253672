import NctuUnix.Lib.Amd64
import NctuUnix.Lib.Listing

/-!
# More instructions

Shifts, divisions and 16-bit pushes, for programs that `NctuUnix.Lib.Amd64` does not have the
instructions for.  A program is a listing here, and stands nowhere in memory.

An instruction that cannot be executed stops the machine: one that accesses memory that is not
mapped, and a division whose result does not fit.  Flags that an instruction leaves undefined stay
as they are.

## Main results

* `idiv_eq` — a signed division of a number that has been extended by `cdq`, and when it faults.
* `div_eq` — an unsigned division behind a zero in `edx`.
-/

set_option autoImplicit false

namespace Emulator

open Bytes Amd64 Listing
open X86 (Reg Flags)

/-- The instructions. -/
inductive Ins (L : Type)
  | op (o : Op)
  /-- `shl dst, 1` on `w` bits. -/
  | shl (w : ℕ) (dst : Reg)
  /-- `lea dst, [base+index*scale]` on 32 bits. -/
  | lea (dst base index : Reg) (scale : ℕ)
  | cdq
  /-- The divisions and the signed multiplication are those on 32 bits. -/
  | div (src : Reg)
  | imul (src : Reg)
  | idiv (src : Reg)
  | push16 (src : Reg)
  | pop16 (dst : Reg)
  | jmp (l : L)
  | jc (l : L)
  | loop (l : L)
  deriving DecidableEq, Repr

/-- The flags of `x << 1`. -/
def flagsShl {w : ℕ} (x : BitVec w) : Flags :=
  ⟨x <<< 1 = 0, (x <<< 1).msb, x.msb, (x <<< 1).msb != x.msb⟩

variable {L : Type} {M : Mapped} {c c' : Core} {w : ℕ}

/-- What an instruction accesses. -/
def Ins.accesses (c : Core) : Ins L → List (Addr × ℕ)
  | .op o => o.accesses c
  | .push16 _ => [(c.gpr .rsp - 2, 2)]
  | .pop16 _ => [(c.gpr .rsp, 2)]
  | _ => []

/-- What `edx:eax` stands for, as a number without a sign. -/
def wide (c : Core) : ℕ := (c.get 32 .rdx).toNat * 2 ^ 32 + (c.get 32 .rax).toNat

/-- What `edx:eax` stands for, as a number with a sign. -/
def swide (c : Core) : ℤ := (c.get 32 .rdx).toInt * 2 ^ 32 + (c.get 32 .rax).toNat

/-- What an instruction does; `none` is a division error. -/
def Ins.run (c : Core) : Ins L → Option (Core × Go L)
  | .op o => some (o.exec c, .next)
  | .shl w dst =>
    let x := c.get w dst
    some ((c.setFlags (flagsShl x)).set dst (x <<< 1), .next)
  | .lea dst base index scale =>
    some (c.set dst (c.get 32 base + c.get 32 index * BitVec.ofNat 32 scale), .next)
  | .cdq => some (c.set .rdx (if (c.get 32 .rax).msb then BitVec.allOnes 32 else 0), .next)
  | .div src =>
    let d := (c.get 32 src).toNat
    if d = 0 ∨ 2 ^ 32 ≤ wide c / d then none
    else some ((c.set .rax (BitVec.ofNat 32 (wide c / d))).set .rdx
      (BitVec.ofNat 32 (wide c % d)), .next)
  | .imul src =>
    let p := (c.get 32 .rax).toInt * (c.get 32 src).toInt
    let exceeds := (BitVec.ofInt 32 p).toInt ≠ p
    some (((c.setFlags { c.flags with cf := exceeds, ov := exceeds }).set .rax
      (BitVec.ofInt 32 p)).set .rdx (BitVec.ofInt 32 (p / 2 ^ 32)), .next)
  | .idiv src =>
    let d := (c.get 32 src).toInt
    if d = 0 ∨ ¬ (-2 ^ 31 ≤ (swide c).tdiv d ∧ (swide c).tdiv d < 2 ^ 31) then none
    else some ((c.set .rax (BitVec.ofInt 32 ((swide c).tdiv d))).set .rdx
      (BitVec.ofInt 32 ((swide c).tmod d)), .next)
  | .push16 src =>
    some ((c.set .rsp (c.gpr .rsp - 2)).poke (c.gpr .rsp - 2) (c.get 16 src), .next)
  | .pop16 dst =>
    some ((c.set .rsp (c.gpr .rsp + 2)).set dst (load 16 c.mem (c.gpr .rsp)), .next)
  | .jmp l => some (c, .to l)
  | .jc l => some (c, if c.flags.cf then .to l else .next)
  -- the counter is the whole of `rcx`
  | .loop l =>
    some (c.set .rcx (c.gpr .rcx - 1), if c.gpr .rcx - 1 = 0 then .next else .to l)

/-- What an instruction does where some memory is mapped. -/
def exec (M : Mapped) (i : Ins L) (c : Core) : Option (Core × Go L) :=
  if M.allows (i.accesses c) then i.run c else none

theorem exec_eq {i : Ins L} (h : M.allows (i.accesses c) = true) : exec M i c = i.run c := if_pos h

theorem run_of_exec {i : Ins L} {r : Core × Go L} (h : exec M i c = some r) : i.run c = some r := by
  rw [exec] at h
  split at h
  · exact h
  · exact absurd h (by simp)

/-- An operation of the smaller instruction set. -/
theorem exec_op {o : Op} (h : M.allows (o.accesses c) = true) :
    exec M (.op o : Ins L) c = some (o.exec c, .next) := if_pos h

/-- Operations of the smaller instruction set in a row. -/
theorem block_ops [DecidableEq L] {ops : List Op} (h : Fits M c ops) :
    block (exec M) (ops.map fun o ↦ (.op o : Ins L)) c = some (Amd64.run ops c) := by
  induction ops generalizing c with
  | nil => rfl
  | cons o ops ih =>
    rw [List.map_cons, block, exec_op h.1, Option.bind_some, if_pos rfl, ih h.2, run_cons]

theorem reaches_ops [DecidableEq L] {p : List (Line (Ins L) L)} {k : ℕ} {ops : List Op}
    (h : ((code p).drop k).take ops.length = ops.map fun o ↦ .op o) (hfits : Fits M c ops) :
    Reaches (exec M) p ⟨c, k⟩ ⟨Amd64.run ops c, k + ops.length⟩ := by
  have hlen : (ops.map fun o ↦ (.op o : Ins L)).length = ops.length := List.length_map _
  rw [← hlen] at h ⊢
  exact reaches_block h (block_ops hfits)

/-- The instructions that are no jumps. -/
def Ins.straight : Ins L → Bool
  | .jmp _ | .jc _ | .loop _ => false
  | _ => true

theorem straight_of {is : List (Ins L)} (h : is.all Ins.straight = true) :
    Straight (exec M) is := by
  intro i hi c r he
  have hrun := run_of_exec he
  have hs := List.all_eq_true.1 h i hi
  cases i <;> simp only [Ins.straight, Bool.false_eq_true] at hs <;> simp only [Ins.run] at hrun
  all_goals first
    | exact (Option.some.inj hrun) ▸ rfl
    | (split at hrun
       · exact absurd hrun (by simp)
       · exact (Option.some.inj hrun) ▸ rfl)

/-! ## Divisions -/

/-- `cdq` extends `eax`. -/
theorem swide_cdq {x : BitVec 32} (ha : c.get 32 .rax = x)
    (hd : c.get 32 .rdx = if x.msb then BitVec.allOnes 32 else 0) : swide c = x.toInt := by
  have hsign : x.toInt = if x.msb then (x.toNat : ℤ) - (2 ^ 32 : ℕ) else x.toNat :=
    BitVec.toInt_eq_msb_cond x
  rw [swide, ha, hd, hsign]
  split
  · rw [show (BitVec.allOnes 32).toInt = -1 by decide]
    omega
  · rw [show (0 : BitVec 32).toInt = 0 by decide]
    omega

/-- The one quotient that does not fit. -/
theorem tdiv_fits_iff (x y : BitVec 32) :
    (-2 ^ 31 ≤ x.toInt.tdiv y.toInt ∧ x.toInt.tdiv y.toInt < 2 ^ 31) ↔
      ¬ (x = BitVec.intMin 32 ∧ y = -1#32) := by
  constructor
  · rintro ⟨-, hlt⟩ ⟨rfl, rfl⟩
    exact absurd hlt (by decide)
  · intro h
    rw [← BitVec.toInt_sdiv_of_ne_or_ne x y (not_and_or.1 h)]
    have hle := @BitVec.le_toInt 32 (x.sdiv y)
    have hlt := @BitVec.toInt_lt 32 (x.sdiv y)
    omega

/-- **A signed division** of a number that has been extended by `cdq`: the quotient is rounded
towards zero, and the division fails for zero and where the quotient does not fit. -/
theorem idiv_eq {src : Reg} {x y : BitVec 32} (ha : c.get 32 .rax = x)
    (hd : c.get 32 .rdx = if x.msb then BitVec.allOnes 32 else 0) (hy : c.get 32 src = y) :
    (Ins.idiv src : Ins L).run c = if y = 0 ∨ (x = BitVec.intMin 32 ∧ y = -1#32) then none
      else some ((c.set .rax (x.sdiv y)).set .rdx (x.srem y), .next) := by
  have hzero : y.toInt = 0 ↔ y = 0 := by
    rw [← BitVec.toInt_inj]
    rfl
  have hquot : BitVec.ofInt 32 (x.toInt.tdiv y.toInt) = x.sdiv y :=
    BitVec.eq_of_toInt_eq (by rw [BitVec.toInt_ofInt, BitVec.toInt_sdiv])
  have hrem : BitVec.ofInt 32 (x.toInt.tmod y.toInt) = x.srem y := by
    rw [← BitVec.toInt_srem, BitVec.ofInt_toInt]
  simp only [Ins.run, swide_cdq ha hd, hy, hzero, tdiv_fits_iff, not_not, hquot, hrem]

/-- **An unsigned division** behind a zero in `edx` fails for zero only. -/
theorem div_eq {src : Reg} {x y : BitVec 32} (ha : c.get 32 .rax = x) (hd : c.get 32 .rdx = 0)
    (hy : c.get 32 src = y) : (Ins.div src : Ins L).run c = if y = 0 then none
      else some ((c.set .rax (x / y)).set .rdx (x % y), .next) := by
  have hwide : wide c = x.toNat := by
    rw [wide, ha, hd]
    exact (congrArg (· + x.toNat) (Nat.zero_mul _)).trans (Nat.zero_add _)
  have hzero : y.toNat = 0 ↔ y = 0 := by
    rw [← BitVec.toNat_inj]
    rfl
  have hfits : ¬ 2 ^ 32 ≤ x.toNat / y.toNat :=
    Nat.not_le.2 (Nat.lt_of_le_of_lt (Nat.div_le_self _ _) x.isLt)
  have hquot : BitVec.ofNat 32 (x.toNat / y.toNat) = x / y := by
    rw [← BitVec.toNat_udiv, BitVec.ofNat_toNat, BitVec.setWidth_eq]
  have hrem : BitVec.ofNat 32 (x.toNat % y.toNat) = x % y := by
    rw [← BitVec.toNat_umod, BitVec.ofNat_toNat, BitVec.setWidth_eq]
  simp only [Ins.run, hwide, hy, hzero, hfits, or_false, hquot, hrem]

/-- What the signed multiplication leaves in `eax`. -/
theorem imul_low (x y : BitVec 32) : BitVec.ofInt 32 (x.toInt * y.toInt) = x * y :=
  BitVec.eq_of_toInt_eq (by rw [BitVec.toInt_ofInt, BitVec.toInt_mul])

/-! ## Stretches without jumps -/

variable [DecidableEq L] {is : List (Ins L)} {ops : List Op} {r src : Reg}

/-- The state behind the signed multiplication. -/
def mulled (c : Core) (src : Reg) : Core :=
  let p := (c.get 32 .rax).toInt * (c.get 32 src).toInt
  let exceeds := (BitVec.ofInt 32 p).toInt ≠ p
  ((c.setFlags { c.flags with cf := exceeds, ov := exceeds }).set .rax
    (BitVec.ofInt 32 p)).set .rdx (BitVec.ofInt 32 (p / 2 ^ 32))

/-- The state behind `cdq`. -/
def extended (c : Core) : Core :=
  c.set .rdx (if (c.get 32 .rax).msb then BitVec.allOnes 32 else 0)

@[simp] theorem mem_mulled : (mulled c src).mem = c.mem := rfl

@[simp] theorem mem_extended : (extended c).mem = c.mem := rfl

@[simp] theorem get_mulled : (mulled c src).get 32 r =
    if r = .rdx then BitVec.ofInt 32 ((c.get 32 .rax).toInt * (c.get 32 src).toInt / 2 ^ 32)
    else if r = .rax then c.get 32 .rax * c.get 32 src else c.get 32 r := by
  rw [mulled, Core.get_set _ (by decide), Core.get_set _ (by decide), imul_low, Core.get_setFlags]

@[simp] theorem get_extended : (extended c).get 32 r =
    if r = .rdx then (if (c.get 32 .rax).msb then BitVec.allOnes 32 else 0) else c.get 32 r := by
  rw [extended, Core.get_set _ (by decide)]

theorem block_imul : block (exec M) (.imul src :: is) c = block (exec M) is (mulled c src) := rfl

theorem block_cdq : block (exec M) (.cdq :: is) c = block (exec M) is (extended c) := rfl

theorem block_cons_ops (h : Fits M c ops) : block (exec M) (ops.map (fun o ↦ .op o) ++ is) c =
    block (exec M) is (Amd64.run ops c) := by
  rw [block_append, block_ops h, Option.bind_some]

/-- A signed division behind `cdq`. -/
theorem block_idiv {x y : BitVec 32} (ha : c.get 32 .rax = x)
    (hd : c.get 32 .rdx = if x.msb then BitVec.allOnes 32 else 0) (hy : c.get 32 src = y) :
    block (exec M) (.idiv src :: is) c =
      if y = 0 ∨ (x = BitVec.intMin 32 ∧ y = -1#32) then none
      else block (exec M) is ((c.set .rax (x.sdiv y)).set .rdx (x.srem y)) := by
  rw [block, exec_eq rfl, idiv_eq ha hd hy]
  split <;> rfl

/-- An unsigned division behind a zero in `edx`. -/
theorem block_div {x y : BitVec 32} (ha : c.get 32 .rax = x) (hd : c.get 32 .rdx = 0)
    (hy : c.get 32 src = y) : block (exec M) (.div src :: is) c = if y = 0 then none
      else block (exec M) is ((c.set .rax (x / y)).set .rdx (x % y)) := by
  rw [block, exec_eq rfl, div_eq ha hd hy]
  split <;> rfl

end Emulator
