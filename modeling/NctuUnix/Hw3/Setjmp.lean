import NctuUnix.Hw3.Asm

/-!
# `setjmp` and `longjmp`

`setjmp` fills the nine quadwords of a `jmp_buf` with the registers a function has to preserve, the
stack pointer its caller will have, the return address and the signal mask; `longjmp` restores
them.  Both push a few words below the stack pointer that is saved and call `rt_sigprocmask` there,
so the buffer must not lie in that area (`Clear`).

## Main results

* `setjmp_spec` — `setjmp` returns 0, with the preserved registers as they were, and the buffer
  holds `slots`.
* `longjmp_spec` — from a buffer that holds them, `longjmp` restores them, and changes no memory but
  six words below the restored stack pointer.
* `setjmp_longjmp` — the round trip.
-/

set_option autoImplicit false

namespace Mini

open Bytes X86 Reg

/-! ## Signal masks -/

/-- `SIGKILL` and `SIGSTOP`, which no mask contains. -/
def unblockable : Word := 1 <<< 8 ||| 1 <<< 18

/-- A set of blocked signals, bit `i - 1` for signal `i`. -/
abbrev SigMask := { w : Word // w &&& unblockable = 0 }

/-- What the kernel makes of a set of signals that are to be blocked. -/
def SigMask.of (w : Word) : SigMask :=
  ⟨w &&& ~~~unblockable, by rw [BitVec.and_assoc, BitVec.and_comm (~~~unblockable)]; simp⟩

@[simp] theorem SigMask.of_val (s : SigMask) : SigMask.of s.1 = s := by
  obtain ⟨w, hw⟩ := s
  refine Subtype.ext (BitVec.eq_of_getLsbD_eq fun i hi ↦ ?_)
  have hbit := congrArg (·.getLsbD i) hw
  simp only [BitVec.getLsbD_and] at hbit
  simp only [of, BitVec.getLsbD_and, BitVec.getLsbD_not, hi, decide_true, Bool.true_and]
  revert hbit
  cases w.getLsbD i <;> cases unblockable.getLsbD i <;> simp

/-- The mask after `SIG_BLOCK`, `SIG_UNBLOCK` or `SIG_SETMASK`. -/
def SigMask.update (how set : Word) (old : SigMask) : SigMask :=
  if how = 0 then .of (old.1 ||| set)
  else if how = 1 then .of (old.1 &&& ~~~set)
  else .of set

theorem SigMask.update_setmask (set : Word) (old : SigMask) : update 2 set old = .of set := by
  rw [update, if_neg (by decide), if_neg (by decide)]

variable {ε : Type} {C : Code Label} {K : Kernel ε} {c : Core ε} {mask : ε → SigMask}

/-- `rt_sigprocmask(how, set, oldset, sizeof(sigset_t))`, as the kernel documents it; `mask` is the
mask of the process. -/
structure Sigprocmask (K : Kernel ε) (mask : ε → SigMask) : Prop where
  result : ∀ c, c.gpr rax = 14 → c.gpr r10 = 8 → (c.gpr rdi).toNat ≤ 2 →
    (K.syscall c).gpr rax = 0
  blocks : ∀ c, c.gpr rax = 14 → c.gpr r10 = 8 → (c.gpr rdi).toNat ≤ 2 →
    mask (K.syscall c).env =
      if c.gpr rsi = 0 then mask c.env
      else (mask c.env).update (c.gpr rdi) (loadWord c.mem (c.gpr rsi))
  stores : ∀ c, c.gpr rax = 14 → c.gpr r10 = 8 → (c.gpr rdi).toNat ≤ 2 →
    (K.syscall c).mem =
      if c.gpr rdx = 0 then c.mem else storeWord c.mem (c.gpr rdx) (mask c.env).1

/-- **`sys_rt_sigprocmask`**, called with a return address on the stack, and with buffers that are
apart from the two words it uses there. -/
theorem sigprocmask_spec (hC : Installed C) (hK : Sigprocmask K mask) (hrcx : c.gpr rcx = 8)
    (hhow : (c.gpr rdi).toNat ≤ 2) (hset : c.gpr rsi ≠ 0 → Apart (c.gpr rsp - 8) 8 (c.gpr rsi) 8)
    (hold : c.gpr rdx ≠ 0 → Apart (c.gpr rdx) 8 (c.gpr rsp - 8) 8 ∧
      Apart (c.gpr rdx) 8 (c.gpr rsp) 8) :
    ∃ c', Reaches C K ⟨c, C.addr (.sys .rtSigprocmask)⟩ ⟨c', c.top⟩ ∧
      mask c'.env = (if c.gpr rsi = 0 then mask c.env
        else (mask c.env).update (c.gpr rdi) (loadWord c.mem (c.gpr rsi))) ∧
      c'.mem = (if c.gpr rdx = 0 then storeWord c.mem (c.gpr rsp - 8) (c.gpr r10)
        else storeWord (storeWord c.mem (c.gpr rsp - 8) (c.gpr r10)) (c.gpr rdx)
          (mask c.env).1) ∧
      c'.gpr rax = 0 ∧ c'.gpr rsp = c.gpr rsp + 8 ∧
      ∀ r, r ≠ rax → r ≠ rcx → r ≠ r11 → r ≠ rsp → c'.gpr r = c.gpr r := by
  have hr10 : (sysArgs 14 c).gpr r10 = 8 := hrcx
  have hmem : (K.syscall (sysArgs 14 c)).mem = (if c.gpr rdx = 0
      then storeWord c.mem (c.gpr rsp - 8) (c.gpr r10)
      else storeWord (storeWord c.mem (c.gpr rsp - 8) (c.gpr r10)) (c.gpr rdx) (mask c.env).1) :=
    hK.stores (sysArgs 14 c) rfl hr10 hhow
  have hmask := hK.blocks (sysArgs 14 c) rfl hr10 hhow
  have hself : Apart (c.gpr rsp - 8) 8 (c.gpr rsp) 8 := by
    constructor <;> bv_omega
  obtain ⟨c', hr, hm, he, hax, hsp, hkept⟩ := stub_spec hC
    (show (14, Sys.rtSigprocmask) ∈ stubs by decide) (rfl : K.syscall (sysArgs 14 c) = _)
    (by
      rw [hmem]
      split
      · exact loadWord_storeWord_same _ _ _
      · rename_i hne
        rw [loadWord_storeWord_apart (hold hne).1.1 (hold hne).1.2, loadWord_storeWord_same])
    (by
      rw [hmem]
      split
      · exact loadWord_storeWord_apart hself.1 hself.2
      · rename_i hne
        rw [loadWord_storeWord_apart (hold hne).2.1 (hold hne).2.2,
          loadWord_storeWord_apart hself.1 hself.2]
        rfl)
  refine ⟨c', hr, ?_, hm.trans hmem, hax.trans (hK.result _ rfl hr10 hhow), hsp, hkept⟩
  rw [he, hmask]
  refine if_congr Iff.rfl rfl rfl |>.trans ?_
  by_cases hsi : c.gpr rsi = 0
  · exact (if_pos hsi).trans (if_pos hsi).symm
  · have hread : loadWord (sysArgs 14 c).mem (c.gpr rsi) = loadWord c.mem (c.gpr rsi) :=
      loadWord_storeWord_apart (hset hsi).1 (hset hsi).2
    refine (if_neg hsi).trans ((if_neg hsi).trans ?_).symm
    rw [← hread]
    rfl

/-- **A call of `sys_rt_sigprocmask`** with buffers that are apart from the two words it pushes. -/
theorem sigprocmask_call {a : Addr} {is : List (Item Label)} (hC : Installed C)
    (hK : Sigprocmask K mask) (h : C.Loaded a (.instr (.call (.sys .rtSigprocmask)) :: is))
    (hrcx : c.gpr rcx = 8) (hhow : (c.gpr rdi).toNat ≤ 2)
    (hset : c.gpr rsi ≠ 0 → Apart (c.gpr rsp - 16) 16 (c.gpr rsi) 8)
    (hold : c.gpr rdx ≠ 0 → Apart (c.gpr rdx) 8 (c.gpr rsp - 16) 16) :
    ∃ a' c' w w', C.Loaded a' is ∧ Reaches C K ⟨c, a⟩ ⟨c', a'⟩ ∧
      mask c'.env = (if c.gpr rsi = 0 then mask c.env
        else (mask c.env).update (c.gpr rdi) (loadWord c.mem (c.gpr rsi))) ∧
      c'.mem = (if c.gpr rdx = 0 then storeWord (storeWord c.mem (c.gpr rsp - 8) w)
          (c.gpr rsp - 16) w'
        else storeWord (storeWord (storeWord c.mem (c.gpr rsp - 8) w) (c.gpr rsp - 16) w')
          (c.gpr rdx) (mask c.env).1) ∧
      c'.gpr rsp = c.gpr rsp ∧ ∀ r, r ≠ rax → r ≠ rcx → r ≠ r11 → r ≠ rsp → c'.gpr r = c.gpr r := by
  obtain ⟨a', h', hcall⟩ := Reaches.call (K := K) h
  have hlow : c.gpr rsp - 8 - 8 = c.gpr rsp - 16 := by bv_omega
  have hparts : ∀ {b : Addr}, Apart (c.gpr rsp - 16) 16 b 8 →
      Apart (c.gpr rsp - 16) 8 b 8 ∧ Apart (c.gpr rsp - 8) 8 b 8 := by
    rintro b ⟨h₁, h₂⟩
    refine ⟨⟨?_, ?_⟩, ?_, ?_⟩ <;> bv_omega
  obtain ⟨c', hr, hmask, hmem, -, hsp, hkept⟩ := sigprocmask_spec (c := c.push a') hC hK
    (by rw [Core.gpr_push_of_ne _ (by decide), hrcx])
    (by rwa [Core.gpr_push_of_ne _ (by decide)])
    (by
      rw [Core.gpr_push_of_ne _ (by decide), Core.rsp_push, hlow]
      exact fun hne ↦ (hparts (hset hne)).1)
    (by
      rw [Core.gpr_push_of_ne _ (by decide), Core.rsp_push, hlow]
      exact fun hne ↦ ⟨(hparts (hold hne).symm).1.symm, (hparts (hold hne).symm).2.symm⟩)
  rw [Core.top_push] at hr
  rw [Core.gpr_push_of_ne _ (by decide), Core.gpr_push_of_ne _ (by decide), Core.env_push,
    Core.mem_push] at hmask
  rw [Core.gpr_push_of_ne _ (by decide), Core.rsp_push, hlow, Core.env_push, Core.mem_push,
    Core.gpr_push_of_ne _ (by decide)] at hmem
  refine ⟨a', c', a', c.gpr r10, h', (hcall c).trans hr, hmask.trans ?_, hmem, ?_,
    fun r h1 h2 h3 h4 ↦ (hkept r h1 h2 h3 h4).trans (Core.gpr_push_of_ne _ h4 _)⟩
  · by_cases hsi : c.gpr rsi = 0
    · rw [if_pos hsi, if_pos hsi]
    · rw [if_neg hsi, if_neg hsi, loadWord_storeWord_apart (hparts (hset hsi)).2.1
        (hparts (hset hsi)).2.2]
  · rw [hsp, Core.rsp_push, BitVec.sub_add_cancel]

/-! ## The buffer -/

/-- What `setjmp` stores in the quadwords of `reg`. -/
def slots (c : Core ε) : List Word :=
  [c.gpr rbx, c.gpr rsp + 8, c.gpr rbp, c.gpr r12, c.gpr r13, c.gpr r14, c.gpr r15, c.top]

/-- The buffer at `env` does not meet the eight words from `sp - 56` on, where the routines push
when `setjmp` is entered with stack pointer `sp`; and neither of the addresses the kernel gets is
`NULL`. -/
structure Clear (env sp : Addr) : Prop where
  apart : Apart env 72 (sp - 56) 64
  mask : env + 64 ≠ 0
  old : sp - 40 ≠ 0

/-- Registers that a function has to preserve. -/
def preserved : List Reg := [rbx, rbp, r12, r13, r14, r15]

theorem ne_of_preserved {r : Reg} (hr : r ∈ preserved) :
    r ≠ rax ∧ r ≠ rcx ∧ r ≠ r11 ∧ r ≠ rsp := by
  revert r
  decide

theorem off_sub (a x y : Word) : a + x - y = a + (x - y) := by
  rw [BitVec.sub_eq_add_neg, BitVec.sub_eq_add_neg, BitVec.add_assoc]

/-! ### Words of the buffer and words of the stack

The stack is seen from `B`, sixty-four bytes below the stack pointer `setjmp` is entered with. -/

variable {E B : Addr} {m : Mem} {w x y : Word}

theorem load_apart (hcl : Apart E 72 (B + 8) 64) (hx : 8 ≤ x.toNat ∧ x.toNat ≤ 64)
    (hy : y.toNat ≤ 64) : Apart (E + y) 8 (B + x) 8 := by
  obtain ⟨h₁, h₂⟩ := hcl
  constructor <;> bv_omega

theorem load_stack (hcl : Apart E 72 (B + 8) 64) (hx : 8 ≤ x.toNat ∧ x.toNat ≤ 64)
    (hy : y.toNat ≤ 64) : loadWord (storeWord m (E + y) w) (B + x) = loadWord m (B + x) :=
  loadWord_storeWord_apart (load_apart hcl hx hy).1 (load_apart hcl hx hy).2

theorem load_env (hcl : Apart E 72 (B + 8) 64) (hx : 8 ≤ x.toNat ∧ x.toNat ≤ 64)
    (hy : y.toNat ≤ 64) : loadWord (storeWord m (B + x) w) (E + y) = loadWord m (E + y) :=
  loadWord_storeWord_apart (load_apart hcl hx hy).2 (load_apart hcl hx hy).1

/-! ## `setjmp` -/

/-- The first block of `setjmp`: the buffer is filled but for the mask, and what is pushed stands
below the return address. -/
theorem setjmpSave_spec (hB : c.gpr rsp = B + 64) (hcl : Apart (c.gpr rdi) 72 (B + 8) 64) :
    let c' := run K setjmpSave c
    c'.gpr rsp = B + 24 ∧ c'.gpr rdi = 0 ∧ c'.gpr rsi = 0 ∧ c'.gpr rdx = B + 24 ∧ c'.gpr rcx = 8 ∧
      (∀ r ∈ preserved, c'.gpr r = c.gpr r) ∧ c'.env = c.env ∧
      Words c'.mem (c.gpr rdi) 0 (slots c) ∧
      loadWord c'.mem (B + 56) = c.gpr rdi ∧ loadWord c'.mem (B + 64) = c.top := by
  simp -implicitDefEqProofs [setjmpSave, qword, hB, off_sub, BitVec.add_assoc, preserved, slots,
    Words, -BitVec.add_zero]
  simp (disch := decide) only [load_stack hcl, load_env hcl, loadWord_storeWord_off,
    loadWord_storeWord_same, and_self]

/-- The last block of `setjmp`. -/
theorem setjmpMask_spec (hsp : c.gpr rsp = B + 24) :
    let c' := run K setjmpMask c
    c'.gpr rsp = B + 64 ∧ c'.gpr rax = 0 ∧ (∀ r ∈ preserved, c'.gpr r = c.gpr r) ∧
      c'.env = c.env ∧
      c'.mem = storeWord c.mem (loadWord c.mem (B + 56) + 64) (loadWord c.mem (B + 24)) := by
  simp -implicitDefEqProofs [setjmpMask, qword, hsp, BitVec.add_assoc, preserved]

/-- **`setjmp`** -/
theorem setjmp_spec (hC : Installed C) (hK : Sigprocmask K mask)
    (hcl : Clear (c.gpr rdi) (c.gpr rsp)) :
    ∃ c', Reaches C K ⟨c, C.addr .setjmp⟩ ⟨c', c.top⟩ ∧ c'.gpr rax = 0 ∧
      (∀ r ∈ preserved, c'.gpr r = c.gpr r) ∧ c'.gpr rsp = c.gpr rsp + 8 ∧
      mask c'.env = mask c.env ∧
      Words c'.mem (c.gpr rdi) 0 (slots c ++ [(mask c.env).1]) := by
  obtain ⟨B, hB⟩ : ∃ B, c.gpr rsp = B + 64 := ⟨c.gpr rsp - 64, (BitVec.sub_add_cancel _ _).symm⟩
  obtain ⟨hap, -, hold⟩ := hcl
  rw [hB, off_sub] at hap hold
  have hap : Apart (c.gpr rdi) 72 (B + 8) 64 := hap
  have hold : B + 24 ≠ 0 := hold
  obtain ⟨a₁, h₁, r₁⟩ := Reaches.ops (K := K) hC.setjmp
  -- up to the call
  obtain ⟨hsp, hdi, hsi, hdx, hcx, hpr, henv, hw, hbuf, hra⟩ := setjmpSave_spec (K := K) hB hap
  have hsave := r₁ c
  generalize run K setjmpSave c = c₁ at *
  -- the mask is stored at `B + 24`
  obtain ⟨a₂, c₂, w, w', h₂, hcall, hmask, hmem, hsp₂, hkept⟩ := sigprocmask_call hC hK h₁ hcx
    (by simp [hdi]) (fun hne ↦ absurd hsi hne)
    (fun _ ↦ by
      rw [hdx, hsp, off_sub]
      exact apart_add B (by decide))
  obtain ⟨a₃, h₃, r₃⟩ := Reaches.ops (K := K) h₂
  have r₄ := Reaches.ret (K := K) h₃
  have hmem₂ : c₂.mem = storeWord (storeWord (storeWord c₁.mem (B + 16) w) (B + 8) w')
      (B + 24) (mask c.env).1 := by
    rw [hmem, hdx, if_neg hold, hsp, off_sub, off_sub, henv]
    rfl
  have hmask₂ : mask c₂.env = mask c.env := by rw [hmask, if_pos hsi, henv]
  have hpr₂ : ∀ r ∈ preserved, c₂.gpr r = c₁.gpr r := fun r hr ↦ by
    obtain ⟨h1, h2, h3, h4⟩ := ne_of_preserved hr
    exact hkept r h1 h2 h3 h4
  have hbuf₂ : loadWord c₂.mem (B + 56) = c.gpr rdi := by
    rw [hmem₂]
    simp (disch := decide) only [loadWord_storeWord_off, hbuf]
  have hold₂ : loadWord c₂.mem (B + 24) = (mask c.env).1 := by
    rw [hmem₂, loadWord_storeWord_same]
  -- to the end
  obtain ⟨hsp₃, hax₃, hpr₃, henv₃, hmem₃⟩ := setjmpMask_spec (K := K) (hsp₂.trans hsp)
  have hend := ((hsave.trans hcall).trans (r₃ c₂)).trans (r₄ _)
  generalize run K setjmpMask c₂ = c₃ at *
  rw [hbuf₂, hold₂, hmem₂] at hmem₃
  have htop₃ : c₃.top = c.top := by
    rw [Core.top, hsp₃, hmem₃]
    simp (disch := decide) only [load_stack hap, loadWord_storeWord_off, hra]
  refine ⟨c₃.drop, htop₃ ▸ hend, ?_, ?_, ?_, ?_, ?_⟩
  · simpa using hax₃
  · intro r hr
    rw [Core.drop, Core.gpr_set, if_neg (ne_of_preserved hr).2.2.2, hpr₃ r hr, hpr₂ r hr, hpr r hr]
  · simp [hsp₃, hB]
  · rw [show c₃.drop.env = c₃.env from rfl, henv₃, hmask₂]
  · rw [show c₃.drop.mem = c₃.mem from rfl, hmem₃]
    simp only [Words, slots, List.cons_append, List.nil_append, BitVec.reduceAdd,
      BitVec.ofNat_eq_ofNat, and_true] at hw ⊢
    simp (disch := decide) only [load_env hap, loadWord_storeWord_off, loadWord_storeWord_same, hw,
      and_self]

/-! ## `longjmp` -/

variable {c₀ : Core ε} {v : Word}

/-- The first block of `longjmp`: the registers are back, but for the stack pointer, which stands
below what has been pushed. -/
theorem longjmpLoad_spec (hB : c₀.gpr rsp = B + 64)
    (hw : Words c.mem (c.gpr rdi) 0 (slots c₀ ++ [v])) :
    let c' := run K longjmpLoad c
    c'.gpr rsp = B + 40 ∧ c'.gpr rdi = 2 ∧ c'.gpr rsi = c.gpr rdi + 64 ∧ c'.gpr rdx = 0 ∧
      c'.gpr rcx = 8 ∧ (∀ r ∈ preserved, c'.gpr r = c₀.gpr r) ∧ c'.env = c.env ∧
      c'.mem = storeWord (storeWord (storeWord (storeWord c.mem (B + 64) (c.gpr rdi))
        (B + 56) (c.gpr rsi)) (B + 48) (c.gpr rdx)) (B + 40) (c.gpr rcx) := by
  simp only [Words, slots, List.cons_append, List.nil_append, BitVec.reduceAdd,
    BitVec.ofNat_eq_ofNat, and_true, hB, BitVec.add_assoc] at hw
  simp -implicitDefEqProofs [longjmpLoad, qword, off_sub, preserved, hw, -BitVec.add_zero]

/-- The block behind the call. -/
theorem longjmpValue_spec (hsp : c.gpr rsp = B + 40) :
    let c' := run K longjmpValue c
    c'.gpr rsp = B + 64 ∧ (∀ r ∈ preserved, c'.gpr r = c.gpr r) ∧ c'.env = c.env ∧
      c'.mem = storeWord c.mem (B + 64) (loadWord c.mem (loadWord c.mem (B + 64) + 56)) := by
  simp -implicitDefEqProofs [longjmpValue, qword, hsp, off_sub, BitVec.add_assoc, preserved]

/-- Outside the six words from `B + 24` on nothing is changed. -/
theorem storeWord_frame {a : Addr} (ha : 48 ≤ (a - (B + 24)).toNat)
    (hx : 24 ≤ x.toNat ∧ x.toNat ≤ 64) : storeWord m (B + x) w a = m a :=
  storeWord_of_apart (by bv_omega)

/-- **`longjmp`**, from a buffer that `setjmp` has filled in state `c₀`. -/
theorem longjmp_spec (hC : Installed C) (hK : Sigprocmask K mask)
    (hcl : Clear (c.gpr rdi) (c₀.gpr rsp)) (hw : Words c.mem (c.gpr rdi) 0 (slots c₀ ++ [v])) :
    ∃ c', Reaches C K ⟨c, C.addr .longjmp⟩ ⟨c', c₀.top⟩ ∧
      (∀ r ∈ preserved, c'.gpr r = c₀.gpr r) ∧ c'.gpr rsp = c₀.gpr rsp + 8 ∧
      mask c'.env = .of v ∧
      ∀ a, 48 ≤ (a - (c'.gpr rsp - 48)).toNat → c'.mem a = c.mem a := by
  obtain ⟨B, hB⟩ : ∃ B, c₀.gpr rsp = B + 64 := ⟨c₀.gpr rsp - 64, (BitVec.sub_add_cancel _ _).symm⟩
  obtain ⟨hap, hset, -⟩ := hcl
  rw [hB, off_sub] at hap
  have hap : Apart (c.gpr rdi) 72 (B + 8) 64 := hap
  obtain ⟨a₁, h₁, r₁⟩ := Reaches.ops (K := K) hC.longjmp
  -- up to the call
  obtain ⟨hsp, hdi, hsi, hdx, hcx, hpr, -, hmem₁⟩ := longjmpLoad_spec (K := K) hB hw
  have hload := r₁ c
  generalize run K longjmpLoad c = c₁ at *
  have hwords : loadWord c.mem (c.gpr rdi + 56) = c₀.top ∧ loadWord c.mem (c.gpr rdi + 64) = v := by
    simp only [Words, slots, List.cons_append, List.nil_append, BitVec.reduceAdd] at hw
    exact ⟨hw.2.2.2.2.2.2.2.1, hw.2.2.2.2.2.2.2.2.1⟩
  -- the mask is read from the buffer
  obtain ⟨a₂, c₂, w, w', h₂, hcall, hmask, hmem, hsp₂, hkept⟩ := sigprocmask_call hC hK h₁ hcx
    (by simp [hdi])
    (fun _ ↦ by
      obtain ⟨hl, hr⟩ := hap
      rw [hsi, hsp, off_sub]
      constructor <;> bv_omega)
    (fun hne ↦ absurd hdx hne)
  obtain ⟨a₃, h₃, r₃⟩ := Reaches.ops (K := K) h₂
  obtain ⟨a₄, h₄, r₄⟩ := Reaches.jcc (K := K) h₃
  obtain ⟨a₅, ⟨haddr, h₅⟩, r₅⟩ := Reaches.ops (K := K) h₄
  have r₆ := Reaches.ret (K := K) h₅
  have hmem₂ : c₂.mem = storeWord (storeWord c₁.mem (B + 32) w) (B + 24) w' := by
    rw [hmem, if_pos hdx, hsp, off_sub, off_sub]
    rfl
  have hmask₂ : mask c₂.env = .of v := by
    have hread : loadWord c₁.mem (c.gpr rdi + 64) = v := by
      rw [hmem₁]
      simp (disch := decide) only [load_env hap, hwords.2]
    rw [hmask, hsi, hdi, hread, if_neg hset, SigMask.update_setmask]
  have hpr₂ : ∀ r ∈ preserved, c₂.gpr r = c₁.gpr r := fun r hr ↦ by
    obtain ⟨h1, h2, h3, h4⟩ := ne_of_preserved hr
    exact hkept r h1 h2 h3 h4
  have hbuf₂ : loadWord c₂.mem (B + 64) = c.gpr rdi := by
    rw [hmem₂, hmem₁]
    simp (disch := decide) only [loadWord_storeWord_off, loadWord_storeWord_same]
  have hip₂ : loadWord c₂.mem (c.gpr rdi + 56) = c₀.top := by
    rw [hmem₂, hmem₁]
    simp (disch := decide) only [load_env hap, hwords.1]
  -- to the comparison
  obtain ⟨hsp₃, hpr₃, henv₃, hmem₃⟩ := longjmpValue_spec (K := K) (hsp₂.trans hsp)
  have hend := (hload.trans hcall).trans (r₃ c₂)
  generalize run K longjmpValue c₂ = c₃ at *
  rw [hbuf₂, hip₂, hmem₂, hmem₁] at hmem₃
  -- one of the two ways to the return
  obtain ⟨c₄, hlast, hsp₄, hpr₄, henv₄, hmem₄⟩ : ∃ c₄, Reaches C K ⟨c₃, a₃⟩ ⟨c₄, a₅⟩ ∧
      c₄.gpr rsp = c₃.gpr rsp ∧ (∀ r ∈ preserved, c₄.gpr r = c₃.gpr r) ∧ c₄.env = c₃.env ∧
      c₄.mem = c₃.mem := by
    by_cases hne : Cond.ne.holds c₃.flags
    · have hjump := r₄ c₃
      rw [if_pos hne, haddr] at hjump
      exact ⟨c₃, hjump, rfl, fun _ _ ↦ rfl, rfl, rfl⟩
    · have hstay := r₄ c₃
      rw [if_neg hne] at hstay
      refine ⟨_, hstay.trans (r₅ c₃), ?_, fun r hr ↦ ?_, ?_, ?_⟩
      · simp -implicitDefEqProofs
      · simp -implicitDefEqProofs [(ne_of_preserved hr).1]
      · simp -implicitDefEqProofs
      · simp -implicitDefEqProofs
  have htop₄ : c₄.top = c₀.top := by
    rw [Core.top, hsp₄, hsp₃, hmem₄, hmem₃, loadWord_storeWord_same]
  refine ⟨c₄.drop, htop₄ ▸ (hend.trans hlast).trans (r₆ c₄), fun r hr ↦ ?_, ?_, ?_, fun a ha ↦ ?_⟩
  · rw [Core.drop, Core.gpr_set, if_neg (ne_of_preserved hr).2.2.2, hpr₄ r hr, hpr₃ r hr, hpr₂ r hr,
      hpr r hr]
  · simp [hsp₄, hsp₃, hB]
  · rw [show c₄.drop.env = c₄.env from rfl, henv₄, henv₃, hmask₂]
  · have hlow : c₄.drop.gpr rsp - 48 = B + 24 := by
      simp [hsp₄, hsp₃, off_sub, BitVec.add_assoc]
    rw [hlow] at ha
    rw [show c₄.drop.mem = c₄.mem from rfl, hmem₄, hmem₃]
    simp (disch := decide) only [storeWord_frame ha]

/-! ## The round trip -/

/-- **`setjmp` and `longjmp`.**  From any state in which `setjmp` is called it returns 0, with the
preserved registers and the mask as they were; and from any state in which `longjmp` is called with
the buffer as `setjmp` left it, control is back behind the call of `setjmp`, with the registers, the
stack pointer and the mask it had there, and with the memory as it is at `longjmp` except for six
words below the stack pointer. -/
theorem setjmp_longjmp (hC : Installed C) (hK : Sigprocmask K mask) (s : State ε)
    (hs : s.rip = C.addr .setjmp) (hcl : Clear (s.gpr rdi) (s.gpr rsp)) :
    ∃ s₁, Reaches C K s s₁ ∧ s₁.rip = loadWord s.mem (s.gpr rsp) ∧ s₁.gpr rax = 0 ∧
      (∀ r ∈ preserved, s₁.gpr r = s.gpr r) ∧ s₁.gpr rsp = s.gpr rsp + 8 ∧
      mask s₁.env = mask s.env ∧
      ∀ t : State ε, t.rip = C.addr .longjmp → t.gpr rdi = s.gpr rdi →
        (∀ k, k < 72 → t.mem (s.gpr rdi + BitVec.ofNat 64 k)
          = s₁.mem (s.gpr rdi + BitVec.ofNat 64 k)) →
        ∃ t', Reaches C K t t' ∧ t'.rip = loadWord s.mem (s.gpr rsp) ∧
          (∀ r ∈ preserved, t'.gpr r = s.gpr r) ∧ t'.gpr rsp = s.gpr rsp + 8 ∧
          mask t'.env = mask s.env ∧
          ∀ a, 48 ≤ (a - (t'.gpr rsp - 48)).toNat → t'.mem a = t.mem a := by
  obtain ⟨c, rip⟩ := s
  obtain rfl : rip = C.addr .setjmp := hs
  obtain ⟨c₁, hr, hax, hpr, hsp, hmask, hw⟩ := setjmp_spec hC hK hcl
  refine ⟨⟨c₁, c.top⟩, hr, rfl, hax, hpr, hsp, hmask, ?_⟩
  rintro ⟨d, rip⟩ rfl hdi hsame
  have hw' : Words d.mem (c.gpr rdi) 0 (slots c ++ [(mask c.env).1]) := by
    refine hw.congr fun j hj ↦ ?_
    rw [show (0 : Word) + BitVec.ofNat 64 j = BitVec.ofNat 64 j from BitVec.zero_add _]
    exact hsame j hj
  obtain ⟨d', hr', hpr', hsp', hmask', hframe⟩ :=
    longjmp_spec (c := d) hC hK (hdi ▸ hcl) (hdi ▸ hw')
  exact ⟨⟨d', c.top⟩, hr', rfl, hpr', hsp', by rw [hmask', SigMask.of_val], hframe⟩

/-! ### A kernel, and a program that jumps -/

/-- What `rt_sigprocmask` does where the mask is all that the kernel keeps. -/
def sigprocmask (c : Core SigMask) : Core SigMask where
  gpr r := if r = rax then 0 else c.gpr r
  flags := c.flags
  mem := if c.gpr rdx = 0 then c.mem else storeWord c.mem (c.gpr rdx) c.env.1
  env := if c.gpr rsi = 0 then c.env else c.env.update (c.gpr rdi) (loadWord c.mem (c.gpr rsi))

/-- A kernel that has no other system call. -/
def maskKernel : Kernel SigMask where
  syscall c :=
    if c.gpr rax = 14 ∧ c.gpr r10 = 8 ∧ (c.gpr rdi).toNat ≤ 2 then sigprocmask c
    else c.set rax (-38)
  kept c r h _ _ := by
    split
    · exact if_neg h
    · exact if_neg h

theorem maskKernel_sigprocmask : Sigprocmask maskKernel id := by
  have hcall : ∀ c : Core SigMask, c.gpr rax = 14 → c.gpr r10 = 8 → (c.gpr rdi).toNat ≤ 2 →
      maskKernel.syscall c = sigprocmask c := fun c h₁ h₂ h₃ ↦ if_pos ⟨h₁, h₂, h₃⟩
  constructor
  · intro c h₁ h₂ h₃
    rw [hcall c h₁ h₂ h₃]
    rfl
  · intro c h₁ h₂ h₃
    rw [hcall c h₁ h₂ h₃]
    rfl
  · intro c h₁ h₂ h₃
    rw [hcall c h₁ h₂ h₃]
    rfl

/-- The routines, one behind the other. -/
def placed : Code Label := .ofItems routines.flatten 0x400000

theorem placed_installed : Installed placed := fun is hi ↦
  Code.loaded_of_infix 0x400000 (List.infix_of_mem_flatten hi) (by decide +kernel)
    (by decide +kernel)

/-- `setjmp` is called with 1 in every register that is to be preserved and `SIGHUP` blocked, and
`longjmp` with 2 in them and nothing blocked. -/
theorem setjmp_longjmp_restores : ∃ t t' : State SigMask, Reaches placed maskKernel t t' ∧
    (∀ r ∈ preserved, t.gpr r = 2) ∧ (∀ r ∈ preserved, t'.gpr r = 1) ∧ t.env = .of 0 ∧
    t'.env = .of 1 ∧ t'.gpr rsp = 0x7008 := by
  let g (v : Word) (r : Reg) : Word := if r = rdi then 0x5000 else if r = rsp then 0x7000 else v
  obtain ⟨s₁, -, -, -, -, -, -, hjump⟩ := setjmp_longjmp placed_installed maskKernel_sigprocmask
    ⟨⟨g 1, ⟨false, false, false, false⟩, fun _ ↦ 0, .of 1⟩, placed.addr .setjmp⟩ rfl
    ⟨by decide, by decide, by decide⟩
  obtain ⟨t', hr, -, hpr, hsp, hmask, -⟩ := hjump
    ⟨⟨g 2, ⟨false, false, false, false⟩, s₁.mem, .of 0⟩, placed.addr .longjmp⟩ rfl rfl
    fun _ _ ↦ rfl
  have hg : ∀ v, ∀ r ∈ preserved, g v r = v := by
    intro v r hp
    have hne : r ≠ rdi ∧ r ≠ rsp := by
      revert r
      decide
    exact (if_neg hne.1).trans (if_neg hne.2)
  exact ⟨_, t', hr, hg 2, fun r hp ↦ (hpr r hp).trans (hg 1 r hp), rfl, hmask, hsp⟩

end Mini
