import NctuUnix.Hw3.Setjmp

/-!
# What a jump hands over

The second argument of `longjmp` is an `int`, and so is what `setjmp` returns after the jump.  The
routine keeps the whole of `rsi` on the stack of `setjmp` while it makes its system call, and
compares all 64 bits with zero.

## Main results

* `longjmp_returns` — the value in `rax`, for every state in which `longjmp` is called.
* `longjmp_value_iff` — the caller of `setjmp` sees the argument, or 1 for 0, exactly if the
  argument is not 0 or the whole of `rsi` is.
* `longjmp_value_fails` — a caller that leaves something in the upper half.
-/

set_option autoImplicit false

namespace Mini

open Bytes X86 Reg

variable {ε : Type} {C : Code Label} {K : Kernel ε} {c : Core ε} {mask : ε → SigMask}
  {B : Addr} {m : Mem} {w : Word}

/-! ## Up to the comparison -/

/-- The first block, whatever the buffer contains; `B + 72` is the stack pointer in it. -/
theorem longjmpLoad_stack (hB : loadWord c.mem (c.gpr rdi + 8) = B + 72) :
    let c' := run K longjmpLoad c
    c'.gpr rsp = B + 40 ∧ c'.gpr rdi = 2 ∧ c'.gpr rdx = 0 ∧ c'.gpr rcx = 8 ∧
      c'.mem = storeWord (storeWord (storeWord (storeWord c.mem (B + 64) (c.gpr rdi))
        (B + 56) (c.gpr rsi)) (B + 48) (c.gpr rdx)) (B + 40) (c.gpr rcx) := by
  rw [BitVec.ofNat_eq_ofNat, BitVec.ofNat_eq_ofNat] at hB
  simp -implicitDefEqProofs [longjmpLoad, qword, off_sub, hB, -BitVec.add_zero]

/-- The stub reads nothing but the set and writes nothing but its own word. -/
theorem sigprocmask_avoids (hC : Installed C) (hK : Sigprocmask K mask) (hrcx : c.gpr rcx = 8)
    (hhow : (c.gpr rdi).toNat ≤ 2) (hold : c.gpr rdx = 0) {l : Label} {b : Addr}
    (hl : C.Loaded (C.addr l) [.instr .ret]) (hsp : c.gpr rsp ≠ b) :
    ∃ c', Avoids C K (AtRet C l b) ⟨c, C.addr (.sys .rtSigprocmask)⟩ ⟨c', c.top⟩ ∧
      c'.mem = storeWord c.mem (c.gpr rsp - 8) (c.gpr r10) ∧ c'.gpr rsp = c.gpr rsp + 8 := by
  have hmem : (K.syscall (sysArgs 14 c)).mem = storeWord c.mem (c.gpr rsp - 8) (c.gpr r10) :=
    (hK.stores (sysArgs 14 c) rfl hrcx hhow).trans (if_pos hold)
  have hself : Apart (c.gpr rsp - 8) 8 (c.gpr rsp) 8 := by
    constructor <;> bv_omega
  obtain ⟨c', hr, hm, -, hsp'⟩ := stub_avoids hC
    (show (14, Sys.rtSigprocmask) ∈ stubs by decide) (rfl : K.syscall (sysArgs 14 c) = _)
    (by rw [hmem, loadWord_storeWord_same])
    (by
      rw [hmem, loadWord_storeWord_apart hself.1 hself.2]
      rfl)
    hl hsp
  exact ⟨c', hr, hm.trans hmem, hsp'⟩

/-- The last block puts what was pushed for `rsi` into `rax` and compares it with zero. -/
theorem longjmpValue_rax (hsp : c.gpr rsp = B + 40) :
    let c' := run K longjmpValue c
    c'.gpr rsp = B + 64 ∧ c'.gpr rax = loadWord c.mem (B + 56) ∧
      c'.flags = .ofSub (loadWord c.mem (B + 56)) 0 ∧
      c'.top = loadWord c.mem (loadWord c.mem (B + 64) + 56) := by
  simp -implicitDefEqProofs [longjmpValue, qword, hsp, off_sub, BitVec.add_assoc]

/-- `cmp w, 0` and `jne` -/
theorem ne_ofSub_zero (w : Word) : Cond.ne.holds (Flags.ofSub w 0) = !decide (w = 0) := by
  have hsub : w - 0 = w := BitVec.sub_zero w
  rw [Cond.holds, Flags.ofSub, Flags.ofResult, hsub]

/-! ## The jump -/

/-- **The value that is handed over**: `rsi`, or 1 if all of it is zero.  `B + 64` is the stack
pointer at the `ret`; the return address is the one in the buffer if the routine does not overwrite
it. -/
theorem longjmp_returns (hC : Installed C) (hK : Sigprocmask K mask)
    (hB : loadWord c.mem (c.gpr rdi + 8) = B + 72) :
    ∃ s, Returns C K .longjmpret (B + 64) ⟨c, C.addr .longjmp⟩ s ∧
      s.gpr rax = (if c.gpr rsi = 0 then 1 else c.gpr rsi) ∧
      (Apart (c.gpr rdi) 72 (B + 8) 64 → s.rip = loadWord c.mem (c.gpr rdi + 56)) := by
  have hl : C.Loaded (C.addr .longjmpret) [.instr .ret] :=
    Code.Loaded.at_label longjmp.tail.dropLast.dropLast hC.longjmp
  obtain ⟨a₁, h₁, r₁⟩ := Avoids.ops (K := K) (b := B + 64) hl hC.longjmp
  obtain ⟨a₂, h₂, r₂⟩ := Avoids.call (K := K) (b := B + 64) hl h₁
  -- up to the call
  obtain ⟨hsp₁, hdi₁, hdx₁, hcx₁, hmem₁⟩ := longjmpLoad_stack (K := K) hB
  have hpath := (r₁ c).trans (r₂ _)
  generalize run K longjmpLoad c = c₁ at *
  have hlow : c₁.gpr rsp - 8 = B + 32 := by rw [hsp₁, off_sub]; rfl
  -- the system call
  obtain ⟨c₂, hcall, hmem₂, hsp₂⟩ := sigprocmask_avoids (c := c₁.push a₂) hC hK
    (by rwa [Core.gpr_push_of_ne _ (by decide)])
    (by rw [Core.gpr_push_of_ne _ (by decide), hdi₁]; decide)
    (by rwa [Core.gpr_push_of_ne _ (by decide)]) hl
    (b := B + 64) (by rw [Core.rsp_push, hlow]; bv_omega)
  rw [Core.top_push] at hcall
  rw [Core.mem_push, Core.rsp_push, hlow, off_sub] at hmem₂
  rw [Core.rsp_push, hlow, BitVec.add_assoc] at hsp₂
  -- to the comparison
  obtain ⟨a₃, h₃, r₃⟩ := Avoids.ops (K := K) (b := B + 64) hl h₂
  obtain ⟨a₄, h₄, r₄⟩ := Avoids.jcc (K := K) (b := B + 64) hl h₃
  obtain ⟨a₅, ⟨rfl, -⟩, r₅⟩ := Avoids.ops (K := K) (b := B + 64) hl h₄
  obtain ⟨hsp₃, hax₃, hflags₃, htop₃⟩ := longjmpValue_rax (K := K) hsp₂
  have hsi : loadWord c₂.mem (B + 56) = c.gpr rsi := by
    rw [hmem₂, hmem₁]
    simp (disch := decide) only [loadWord_storeWord_off, loadWord_storeWord_same]
  rw [hsi] at hax₃ hflags₃
  have hcmp := ((hpath.trans hcall).trans (r₃ c₂)).trans (r₄ _)
  have htop : Apart (c.gpr rdi) 72 (B + 8) 64 →
      (run K longjmpValue c₂).top = loadWord c.mem (c.gpr rdi + 56) := fun hap ↦ by
    have hdi : loadWord c₂.mem (B + 64) = c.gpr rdi := by
      rw [hmem₂, hmem₁]
      simp (disch := decide) only [loadWord_storeWord_off, loadWord_storeWord_same]
    rw [htop₃, hdi, hmem₂, hmem₁]
    simp (disch := decide) only [load_env hap]
  generalize run K longjmpValue c₂ = c₃ at *
  rw [hflags₃, ne_ofSub_zero] at hcmp
  by_cases hzero : c.gpr rsi = 0
  · -- `inc`
    rw [if_neg (by simp [hzero])] at hcmp
    refine ⟨_, (hcmp.trans (r₅ c₃)).returns hl ?_, ?_, htop⟩
    · simpa -implicitDefEqProofs using hsp₃
    · simp -implicitDefEqProofs [hax₃, hzero]
  · rw [if_pos (by simpa using hzero)] at hcmp
    refine ⟨_, hcmp.returns hl hsp₃, ?_, htop⟩
    rw [if_neg hzero, ← hax₃]
    simp -implicitDefEqProofs

/-- After the jump from state `c` the caller of `setjmp` finds `v` in `eax`. -/
def JumpsWith (C : Code Label) (K : Kernel ε) (c : Core ε) (v : BitVec 32) : Prop :=
  ∃ s, Returns C K .longjmpret (loadWord c.mem (c.gpr rdi + 8) - 8) ⟨c, C.addr .longjmp⟩ s ∧
    (s.gpr rax).setWidth 32 = v

/-- **The value of `setjmp` after a jump.**  For every state in which `longjmp` is called with `val`
in `esi`: it is `val`, or 1 for 0, exactly if `val` is not 0 or the whole of `rsi` is 0. -/
theorem longjmp_value_iff (hC : Installed C) (hK : Sigprocmask K mask) {val : BitVec 32}
    (hesi : (c.gpr rsi).setWidth 32 = val) :
    JumpsWith C K c (if val = 0 then 1 else val) ↔ val ≠ 0 ∨ c.gpr rsi = 0 := by
  obtain ⟨B, hB⟩ : ∃ B, loadWord c.mem (c.gpr rdi + 8) = B + 72 :=
    ⟨loadWord c.mem (c.gpr rdi + 8) - 72, (BitVec.sub_add_cancel _ _).symm⟩
  obtain ⟨s, hs, hax, -⟩ := longjmp_returns hC hK hB
  have hvalue : JumpsWith C K c (if val = 0 then 1 else val) ↔
      (s.gpr rax).setWidth 32 = if val = 0 then 1 else val := by
    rw [JumpsWith, hB, off_sub]
    constructor
    · rintro ⟨s', hs', hv⟩
      rwa [hs.unique hs']
    · exact fun hv ↦ ⟨s, hs, hv⟩
  rw [hvalue, hax]
  by_cases hzero : c.gpr rsi = 0
  · have hval : val = 0 := by rw [← hesi, hzero]; rfl
    rw [if_pos hzero, if_pos hval]
    exact iff_of_true rfl (.inr hzero)
  · rw [if_neg hzero, hesi]
    by_cases hval : val = 0
    · rw [if_pos hval, hval]
      exact iff_of_false (by decide) fun hor ↦ hor.elim (absurd rfl) hzero
    · rw [if_neg hval]
      exact iff_of_true rfl (.inl hval)

/-! ### A caller -/

/-- A caller with `v` in `rsi`. -/
def jumper (v : Word) : Core SigMask :=
  ⟨fun r ↦ if r = rsi then v else 0x5000, ⟨false, false, false, false⟩, fun _ ↦ 0, .of 0⟩

/-- A jump with -1. -/
theorem longjmp_value_iff_minus : JumpsWith placed maskKernel (jumper (-1)) (-1) := by
  have hesi : ((jumper (-1)).gpr rsi).setWidth 32 = (-1 : BitVec 32) := by decide
  exact (longjmp_value_iff placed_installed maskKernel_sigprocmask hesi).2 (.inl (by decide))

/-- **A second return with 0.**  A caller passes 0 in `esi`, with 1 in the upper half of `rsi`:
after the jump `setjmp` returns 0. -/
theorem longjmp_value_fails : ((jumper 0x100000000).gpr rsi).setWidth 32 = (0 : BitVec 32) ∧
    JumpsWith placed maskKernel (jumper 0x100000000) 0 ∧
    ¬ JumpsWith placed maskKernel (jumper 0x100000000) 1 := by
  obtain ⟨s, hs, hax, -⟩ := longjmp_returns (c := jumper 0x100000000) (B := -72)
    placed_installed maskKernel_sigprocmask (by decide)
  have hzero : (s.gpr rax).setWidth 32 = (0 : BitVec 32) := by
    rw [hax]
    decide
  refine ⟨by decide, ⟨s, hs, hzero⟩, ?_⟩
  rintro ⟨s', hs', hone⟩
  rw [← hs.unique hs', hzero] at hone
  exact absurd hone (by decide)

end Mini
