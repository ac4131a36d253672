import NctuUnix.Hw3.Setjmp

/-!
# `sleep`

`libmini.c` contains a `sleep` that is disabled in favour of the one in `libmini64.asm`.  The C
function gets 32 bits of seconds and widens them; the assembly stores the whole of `rdi`, whose
upper half a caller may leave as it likes.

## Main results

* `sleep_call` — the request that the assembly passes.
* `sleep_spec` — what it returns for each outcome of the call.
* `sleep_iff` — it agrees with the C function exactly if the upper half of `rdi` is zero.
* `sleep_fails` — a caller that leaves something there.
-/

set_option autoImplicit false

namespace Mini

open Bytes X86 Reg

variable {ε : Type} {C : Code Label} {K : Kernel ε} {c : Core ε}

/-! ## The system call -/

/-- `struct timespec` -/
structure Timespec where
  tvSec : Word
  tvNsec : Word
  deriving DecidableEq, Repr

/-- The `timespec` at an address. -/
def timespecAt (m : Mem) (a : Addr) : Timespec := ⟨loadWord m a, loadWord m (a + 8)⟩

/-- The memory with a `timespec` stored at an address. -/
def storeTimespec (m : Mem) (a : Addr) (t : Timespec) : Mem :=
  storeWord (storeWord m a t.tvSec) (a + 8) t.tvNsec

/-- How `nanosleep` can end: its result, the remaining time, and what the kernel keeps. -/
structure Outcome (ε : Type) where
  ret : Word
  rem : Timespec
  env : ε

/-- `-EINTR` -/
def eintr : Word := -4

/-- `nanosleep(req, rem)`, as the kernel documents it: the remaining time is stored if the call has
been interrupted and `rem` is not `NULL`, and nothing is stored otherwise. -/
structure Nanosleep (K : Kernel ε) (nanosleep : Timespec → ε → Outcome ε) : Prop where
  result : ∀ c, c.gpr rax = 35 →
    (K.syscall c).gpr rax = (nanosleep (timespecAt c.mem (c.gpr rdi)) c.env).ret
  env : ∀ c, c.gpr rax = 35 →
    (K.syscall c).env = (nanosleep (timespecAt c.mem (c.gpr rdi)) c.env).env
  stores : ∀ c, c.gpr rax = 35 → (K.syscall c).mem =
    let o := nanosleep (timespecAt c.mem (c.gpr rdi)) c.env
    if o.ret = eintr ∧ c.gpr rsi ≠ 0 then storeTimespec c.mem (c.gpr rsi) o.rem else c.mem

/-! ## The C function -/

/-- The request of `sleep`. -/
def sleepReq (seconds : BitVec 32) : Timespec := ⟨seconds.setWidth 64, 0⟩

/-- `unsigned int sleep(unsigned int seconds)` of `libmini.c`, with what the kernel keeps. -/
def sleepC (nanosleep : Timespec → ε → Outcome ε) (seconds : BitVec 32) (env : ε) :
    BitVec 32 × ε :=
  let o := nanosleep (sleepReq seconds) env
  if BitVec.sle 0 o.ret then (o.ret.setWidth 32, o.env)
  else if o.ret = eintr then (o.rem.tvSec.setWidth 32, o.env)
  else (0, o.env)

/-- The assembly, called in state `c`, does what the C function does with `seconds`: it passes the
same request to `sys_nanosleep`, and returns the same number with the stack pointer of its
caller. -/
structure SleepsLike (C : Code Label) (K : Kernel ε) (nanosleep : Timespec → ε → Outcome ε)
    (c : Core ε) (seconds : BitVec 32) : Prop where
  request : ∃ s, Arrives C K (C.addr (.sys .nanosleep)) ⟨c, C.addr .sleep⟩ s ∧
    timespecAt s.mem (s.gpr rdi) = sleepReq seconds
  returns : ∃ c', Reaches C K ⟨c, C.addr .sleep⟩ ⟨c', c.top⟩ ∧ c'.gpr rsp = c.gpr rsp + 8 ∧
    ((c'.gpr rax).setWidth 32, c'.env) = sleepC nanosleep seconds c.env

/-! ## Up to the call -/

variable {B : Addr} {m : Mem} {w x y : Word}

theorem timespecAt_frame : timespecAt m (B + 24) = ⟨loadWord m (B + 24), loadWord m (B + 32)⟩ := by
  rw [timespecAt, BitVec.add_assoc]
  rfl

theorem storeTimespec_frame (t : Timespec) : storeTimespec m (B + 40) t =
    storeWord (storeWord m (B + 40) t.tvSec) (B + 48) t.tvNsec := by
  rw [storeTimespec, BitVec.add_assoc]
  rfl

/-- The frame, seen from `B`, fifty-six bytes below the stack pointer at entry. -/
theorem sleepEnter_spec (hB : c.gpr rsp = B + 56) :
    let c' := run K sleepEnter c
    c'.gpr rsp = B + 24 ∧ c'.gpr rdi = B + 24 ∧ c'.gpr rsi = B + 40 ∧ c'.env = c.env ∧
      loadWord c'.mem (B + 24) = c.gpr rdi ∧ loadWord c'.mem (B + 32) = 0 ∧
      loadWord c'.mem (B + 56) = c.top := by
  simp -implicitDefEqProofs [sleepEnter, qword, hB, off_sub, BitVec.add_assoc]
  simp (disch := decide) only [loadWord_storeWord_off, loadWord_storeWord_same, and_self]

/-- **The call.**  The first state at `sys_nanosleep`: the request is the whole of `rdi`. -/
theorem sleep_call (hC : Installed C) (hB : c.gpr rsp = B + 56) :
    ∃ c₁, C.Loaded c₁.top sleepLeave ∧
      Arrives C K (C.addr (.sys .nanosleep)) ⟨c, C.addr .sleep⟩
        ⟨c₁, C.addr (.sys .nanosleep)⟩ ∧
      c₁.gpr rsp = B + 16 ∧ c₁.gpr rdi = B + 24 ∧ c₁.gpr rsi = B + 40 ∧ c₁.env = c.env ∧
      timespecAt c₁.mem (B + 24) = ⟨c.gpr rdi, 0⟩ ∧ loadWord c₁.mem (B + 56) = c.top := by
  have hstub : ((35 : Word), Sys.nanosleep) ∈ stubs := by decide
  obtain ⟨b, hfetch, -⟩ := hC.stub hstub
  obtain ⟨a₁, h₁, r₁⟩ := Arrives.ops (K := K) hfetch (l := sleepEnter) (by decide) hC.sleep
  obtain ⟨a₂, h₂, r₂⟩ := Arrives.call (K := K) hfetch (by decide) h₁
  obtain ⟨hsp, hdi, hsi, henv, hsec, hnsec, htop⟩ := sleepEnter_spec (K := K) hB
  have harr := r₁ c _ (r₂ (run K sleepEnter c))
  generalize run K sleepEnter c = c₁ at *
  have hlow : c₁.gpr rsp - 8 = B + 16 := by rw [hsp, off_sub]; rfl
  refine ⟨c₁.push a₂, ?_, harr, ?_, ?_, ?_, ?_, ?_, ?_⟩
  · rwa [Core.top_push]
  · rw [Core.rsp_push, hlow]
  · rwa [Core.gpr_push_of_ne _ (by decide)]
  · rwa [Core.gpr_push_of_ne _ (by decide)]
  · rwa [Core.env_push]
  · rw [timespecAt_frame, Core.mem_push, hlow]
    simp (disch := decide) only [loadWord_storeWord_off, hsec, hnsec]
  · rw [Core.mem_push, hlow]
    simp (disch := decide) only [loadWord_storeWord_off, htop]

/-! ## The call itself -/

variable {nanosleep : Timespec → ε → Outcome ε}

/-- **`sys_nanosleep`**, called with this frame: the result is in `rax`, and the remaining time in
the second `timespec` if there is one. -/
theorem nanosleep_spec (hC : Installed C) (hK : Nanosleep K nanosleep) (hsp : c.gpr rsp = B + 16)
    (hdi : c.gpr rdi = B + 24) (hsi : c.gpr rsi = B + 40) (hrem : B + 40 ≠ 0) :
    let o := nanosleep (timespecAt c.mem (B + 24)) c.env
    ∃ c', Reaches C K ⟨c, C.addr (.sys .nanosleep)⟩ ⟨c', c.top⟩ ∧ c'.gpr rsp = B + 24 ∧
      c'.gpr rax = o.ret ∧ c'.env = o.env ∧
      (o.ret = eintr → loadWord c'.mem (B + 40) = o.rem.tvSec) ∧
      loadWord c'.mem (B + 56) = loadWord c.mem (B + 56) := by
  have hstub : ((35 : Word), Sys.nanosleep) ∈ stubs := by decide
  have hlow : c.gpr rsp - 8 = B + 8 := by rw [hsp, off_sub]; rfl
  have hmem : (sysArgs 35 c).mem = storeWord c.mem (B + 8) (c.gpr r10) := by
    rw [← hlow]
    rfl
  have hreq : timespecAt (sysArgs 35 c).mem ((sysArgs 35 c).gpr rdi) =
      timespecAt c.mem (B + 24) := by
    rw [hmem, show (sysArgs 35 c).gpr rdi = B + 24 from hdi, timespecAt_frame, timespecAt_frame]
    simp (disch := decide) only [loadWord_storeWord_off]
  have hret := hK.result (sysArgs 35 c) rfl
  have henv := hK.env (sysArgs 35 c) rfl
  have hstores := hK.stores (sysArgs 35 c) rfl
  have hsi' : (sysArgs 35 c).gpr rsi = B + 40 := hsi
  have henv' : (sysArgs 35 c).env = c.env := rfl
  rw [hreq, henv'] at hret henv hstores
  simp only [hsi', hrem, ne_eq, not_false_eq_true, and_true] at hstores
  -- what is stored lies between the request and the return address of `sleep`
  have hframe : ∀ {x : Word}, Apart (40 : Word) 8 x 8 → Apart (48 : Word) 8 x 8 →
      loadWord (K.syscall (sysArgs 35 c)).mem (B + x) =
        loadWord (storeWord c.mem (B + 8) (c.gpr r10)) (B + x) := by
    intro x h₁ h₂
    rw [hstores, hmem]
    split
    · rw [storeTimespec_frame, loadWord_storeWord_off h₂, loadWord_storeWord_off h₁]
    · rfl
  obtain ⟨c', hr, hmem', henv'', hax, hsp', -⟩ := stub_spec hC hstub rfl
    (by
      rw [hlow, hframe (by decide) (by decide), loadWord_storeWord_same])
    (by
      rw [hsp, hframe (by decide) (by decide), loadWord_storeWord_off (by decide), Core.top, hsp])
  refine ⟨c', hr, ?_, hax.trans hret, henv''.trans henv, fun hint ↦ ?_, ?_⟩
  · rw [hsp', hsp, BitVec.add_assoc]
    rfl
  · rw [hmem', hstores, if_pos hint, storeTimespec_frame, loadWord_storeWord_off (by decide),
      loadWord_storeWord_same]
  · rw [hmem', hframe (by decide) (by decide), loadWord_storeWord_off (by decide)]

/-! ## Behind the call -/

/-- `cmp w, 0` and `jge`: the jump is made for results that are not negative. -/
theorem ge_ofSub_zero (w : Word) : Cond.ge.holds (Flags.ofSub w 0) = BitVec.sle 0 w := by
  have hsub : w - 0 = w := BitVec.sub_zero w
  have hzero : (0 : Word).toInt = 0 := BitVec.toInt_zero
  have hov : BitVec.ssubOverflow w 0 = false := by
    have hlow := BitVec.le_toInt w
    have hhigh := BitVec.toInt_lt (x := w)
    rw [BitVec.ssubOverflow, hzero, Bool.or_eq_false_iff, decide_eq_false_iff_not,
      decide_eq_false_iff_not]
    omega
  have hge : BitVec.sle 0 w = !w.msb := BitVec.zero_sle_eq_not_msb
  rw [hge, Cond.holds, Flags.ofSub, Flags.ofResult, hsub, hov]
  exact beq_false _

/-- `neg` and `cmp` with 4, and `jne`: the jump is made for errors that are not an interruption. -/
theorem ne_ofSub_neg (w : Word) : Cond.ne.holds (Flags.ofSub (-w) 4) = !decide (w = eintr) := by
  have hiff : -w - 4 = 0 ↔ w = eintr := by
    rw [eintr]
    constructor <;> intro h <;> bv_omega
  rw [Cond.holds, Flags.ofSub, Flags.ofResult, decide_eq_decide.2 hiff]

/-- The value that `sleep` returns, for a result of the call and the remaining seconds. -/
def sleepValue (ret rem : Word) : Word :=
  if BitVec.sle 0 ret then ret else if ret = eintr then rem else 0

/-- The end of `sleep`. -/
theorem sleepQuit_spec {a : Addr} (h : C.Loaded a (ops [.add rsp (.imm 32)] ++ [.instr .ret]))
    (hsp : c.gpr rsp = B + 24) :
    ∃ c', Reaches C K ⟨c, a⟩ ⟨c', loadWord c.mem (B + 56)⟩ ∧ c'.gpr rsp = B + 64 ∧
      c'.env = c.env ∧ c'.gpr rax = c.gpr rax := by
  obtain ⟨a₁, h₁, r₁⟩ := Reaches.ops (K := K) h
  have r₂ := Reaches.ret (K := K) h₁
  have hsp₁ : (run K [.add rsp (.imm 32)] c).gpr rsp = B + 56 := by
    simp -implicitDefEqProofs [hsp, BitVec.add_assoc]
  have hend := (r₁ c).trans (r₂ _)
  rw [Core.top, hsp₁] at hend
  refine ⟨_, hend, ?_, rfl, ?_⟩
  · rw [Core.drop, Core.gpr_set, if_pos rfl, hsp₁, BitVec.add_assoc]
    rfl
  · simp -implicitDefEqProofs

/-- **Behind the call**, with a result in `rax`. -/
theorem sleepLeave_spec {a : Addr} (h : C.Loaded a sleepLeave) (hsp : c.gpr rsp = B + 24) :
    ∃ c', Reaches C K ⟨c, a⟩ ⟨c', loadWord c.mem (B + 56)⟩ ∧ c'.gpr rsp = B + 64 ∧
      c'.env = c.env ∧ c'.gpr rax = sleepValue (c.gpr rax) (loadWord c.mem (B + 40)) := by
  obtain ⟨a₁, h₁, r₁⟩ := Reaches.ops (K := K) h
  obtain ⟨a₂, ⟨-, h₂⟩, r₂⟩ := Reaches.jcc (K := K) h₁
  obtain ⟨a₃, h₃, r₃⟩ := Reaches.ops (K := K) h₂
  obtain ⟨a₄, ⟨-, h₄⟩, r₄⟩ := Reaches.jcc (K := K) h₃
  obtain ⟨a₅, h₅, r₅⟩ := Reaches.ops (K := K) h₄
  obtain ⟨a₆, ⟨hfailed, h₆⟩, r₆⟩ := Reaches.jmp (K := K) h₅
  obtain ⟨a₇, ⟨hquit, h₇⟩, r₇⟩ := Reaches.ops (K := K) h₆
  have hend {d : Core ε} (hd : d.gpr rsp = B + 24) (hm : d.mem = c.mem) (he : d.env = c.env) :
      ∃ c', Reaches C K ⟨d, a₇⟩ ⟨c', loadWord c.mem (B + 56)⟩ ∧ c'.gpr rsp = B + 64 ∧
        c'.env = c.env ∧ c'.gpr rax = d.gpr rax := by
    rw [← hm, ← he]
    exact sleepQuit_spec h₇ hd
  -- the result is tested
  have hge := (r₁ c).trans (r₂ _)
  have hflags : (run K [.cmp rax (.imm 0)] c).flags = Flags.ofSub (c.gpr rax) 0 := rfl
  rw [hflags, ge_ofSub_zero] at hge
  rw [sleepValue]
  by_cases hpos : BitVec.sle 0 (c.gpr rax) = true
  · rw [if_pos hpos, hquit] at hge
    obtain ⟨c', hr, hsp', henv, hax⟩ := hend (d := run K [.cmp rax (.imm 0)] c) hsp rfl rfl
    rw [if_pos hpos]
    exact ⟨c', hge.trans hr, hsp', henv, hax⟩
  rw [if_neg hpos] at hge ⊢
  -- the error is tested
  generalize hc₁ : run K [.cmp rax (.imm 0)] c = c₁ at hge
  have hsp₁ : c₁.gpr rsp = B + 24 := by rw [← hc₁]; exact hsp
  have hax₁ : c₁.gpr rax = c.gpr rax := by rw [← hc₁]; rfl
  have hmem₁ : c₁.mem = c.mem := by rw [← hc₁]; rfl
  have henv₁ : c₁.env = c.env := by rw [← hc₁]; rfl
  have hne := (hge.trans (r₃ c₁)).trans (r₄ _)
  generalize hc₂ : run K [.neg rax, .cmp rax (.imm 4)] c₁ = c₂ at hne
  have hsp₂ : c₂.gpr rsp = B + 24 := by rw [← hc₂]; exact hsp₁
  have hmem₂ : c₂.mem = c.mem := by rw [← hc₂]; exact hmem₁
  have henv₂ : c₂.env = c.env := by rw [← hc₂]; exact henv₁
  have hflags₂ : c₂.flags = Flags.ofSub (-c.gpr rax) 4 := by
    rw [← hc₂, ← hax₁]
    rfl
  rw [hflags₂, ne_ofSub_neg] at hne
  by_cases hint : c.gpr rax = eintr
  · -- interrupted
    rw [if_neg (by simp [hint])] at hne
    have hlast := (hne.trans (r₅ c₂)).trans (r₆ _)
    rw [hquit] at hlast
    rw [if_pos hint]
    have hax₃ : (run K [.lea rsi rsp 16, .mov rax (qword rsi 0)] c₂).gpr rax =
        loadWord c.mem (B + 40) := by
      simp -implicitDefEqProofs [qword, hsp₂, hmem₂, BitVec.add_assoc]
    obtain ⟨c', hr, hsp', henv, hax⟩ :=
      hend (d := run K [.lea rsi rsp 16, .mov rax (qword rsi 0)] c₂) hsp₂ hmem₂ henv₂
    exact ⟨c', hlast.trans hr, hsp', henv, hax.trans hax₃⟩
  · rw [if_pos (by simp [hint]), hfailed] at hne
    rw [if_neg hint]
    obtain ⟨c', hr, hsp', henv, hax⟩ := hend (d := run K [.mov rax (.imm 0)] c₂) hsp₂ hmem₂ henv₂
    exact ⟨c', (hne.trans (r₇ c₂)).trans hr, hsp', henv, hax⟩

/-! ## The two functions -/

/-- **What the assembly does**: it passes the whole of `rdi`, and returns what the C function would
make of the outcome. -/
theorem sleep_spec (hC : Installed C) (hK : Nanosleep K nanosleep) (hrem : c.gpr rsp ≠ 16) :
    (∃ s, Arrives C K (C.addr (.sys .nanosleep)) ⟨c, C.addr .sleep⟩ s ∧
      timespecAt s.mem (s.gpr rdi) = ⟨c.gpr rdi, 0⟩) ∧
    let o := nanosleep ⟨c.gpr rdi, 0⟩ c.env
    ∃ c', Reaches C K ⟨c, C.addr .sleep⟩ ⟨c', c.top⟩ ∧ c'.gpr rsp = c.gpr rsp + 8 ∧
      c'.env = o.env ∧ c'.gpr rax = sleepValue o.ret o.rem.tvSec := by
  obtain ⟨B, hB⟩ : ∃ B, c.gpr rsp = B + 56 := ⟨c.gpr rsp - 56, (BitVec.sub_add_cancel _ _).symm⟩
  have hnull : B + 40 ≠ 0 := by
    rintro h
    exact hrem (by rw [hB]; bv_omega)
  obtain ⟨c₁, hload, harr, hsp, hdi, hsi, henv, hreq, htop⟩ := sleep_call (K := K) hC hB
  refine ⟨⟨_, harr, by rw [← hreq, ← hdi]⟩, ?_⟩
  obtain ⟨c₂, hcall, hsp₂, hax₂, henv₂, hrem₂, htop₂⟩ := nanosleep_spec hC hK hsp hdi hsi hnull
  rw [hreq, henv] at hax₂ henv₂ hrem₂
  obtain ⟨c₃, hleave, hsp₃, henv₃, hax₃⟩ := sleepLeave_spec (K := K) hload hsp₂
  rw [htop₂, htop] at hleave
  refine ⟨c₃, (harr.reaches.trans hcall).trans hleave, ?_, henv₃.trans henv₂, ?_⟩
  · rw [hsp₃, hB, BitVec.add_assoc]
    rfl
  · rw [hax₃, hax₂, sleepValue, sleepValue]
    by_cases hint : (nanosleep ⟨c.gpr rdi, 0⟩ c.env).ret = eintr
    · rw [hrem₂ hint]
    · rw [if_neg hint, if_neg hint]

/-- The C function returns the same value, cut to 32 bits. -/
theorem sleepC_eq (nanosleep : Timespec → ε → Outcome ε) (seconds : BitVec 32) (env : ε) :
    sleepC nanosleep seconds env =
      let o := nanosleep (sleepReq seconds) env
      ((sleepValue o.ret o.rem.tvSec).setWidth 32, o.env) := by
  rw [sleepC]
  simp only [sleepValue]
  split_ifs <;> rfl

/-- **`sleep`.**  For every state in which it is called with `seconds` in `edi`: the assembly agrees
with the C function, for every outcome of the call, exactly if the upper half of `rdi` is zero. -/
theorem sleep_iff (hC : Installed C) (hK : Nanosleep K nanosleep) (hrem : c.gpr rsp ≠ 16)
    {seconds : BitVec 32} (hedi : (c.gpr rdi).setWidth 32 = seconds) :
    SleepsLike C K nanosleep c seconds ↔ (c.gpr rdi).toNat < 2 ^ 32 := by
  obtain ⟨⟨s, harr, hreq⟩, c', hr, hsp, henv, hax⟩ := sleep_spec hC hK hrem
  have hwide : (⟨c.gpr rdi, 0⟩ : Timespec) = sleepReq seconds ↔ (c.gpr rdi).toNat < 2 ^ 32 := by
    have hlow : ((c.gpr rdi).setWidth 32).setWidth 64 = c.gpr rdi ↔
        (c.gpr rdi).toNat < 2 ^ 32 := by
      rw [← BitVec.toNat_inj, BitVec.toNat_setWidth, BitVec.toNat_setWidth]
      have hlt := (c.gpr rdi).isLt
      omega
    rw [sleepReq, Timespec.mk.injEq, ← hedi, ← hlow, and_iff_left rfl]
    exact eq_comm
  rw [← hwide]
  constructor
  · rintro ⟨⟨s', harr', hreq'⟩, -⟩
    obtain rfl := harr.unique harr'
    exact hreq.symm.trans hreq'
  · intro heq
    rw [heq] at hreq henv hax
    refine ⟨⟨s, harr, hreq⟩, c', hr, hsp, ?_⟩
    rw [sleepC_eq, hax, henv]

/-! ### A kernel, and a caller -/

/-- What `nanosleep` does. -/
def sleepCall (nanosleep : Timespec → ε → Outcome ε) (c : Core ε) : Core ε :=
  let o := nanosleep (timespecAt c.mem (c.gpr rdi)) c.env
  { gpr := fun r ↦ if r = rax then o.ret else c.gpr r
    flags := c.flags
    mem := if o.ret = eintr ∧ c.gpr rsi ≠ 0 then storeTimespec c.mem (c.gpr rsi) o.rem else c.mem
    env := o.env }

/-- A kernel that has no other system call. -/
def sleepKernel (nanosleep : Timespec → ε → Outcome ε) : Kernel ε where
  syscall c := if c.gpr rax = 35 then sleepCall nanosleep c else c.set rax (-38)
  kept c r h _ _ := by
    split
    · exact if_neg h
    · exact if_neg h

theorem sleepKernel_nanosleep (nanosleep : Timespec → ε → Outcome ε) :
    Nanosleep (sleepKernel nanosleep) nanosleep := by
  have hcall : ∀ c : Core ε, c.gpr rax = 35 →
      (sleepKernel nanosleep).syscall c = sleepCall nanosleep c := fun c h ↦ if_pos h
  constructor
  · intro c h
    rw [hcall c h]
    rfl
  · intro c h
    rw [hcall c h]
    rfl
  · intro c h
    rw [hcall c h]
    rfl

/-- A call that is interrupted at once. -/
def interrupted : Timespec → Unit → Outcome Unit := fun req _ ↦ ⟨eintr, req, ()⟩

/-- A caller with `v` in `rdi`. -/
def sleeper (v : Word) : Core Unit :=
  ⟨fun r ↦ if r = rdi then v else 0x7000, ⟨false, false, false, false⟩, fun _ ↦ 0, ()⟩

/-- Five seconds. -/
theorem sleep_iff_five : SleepsLike placed (sleepKernel interrupted) interrupted (sleeper 5) 5 :=
  (sleep_iff placed_installed (sleepKernel_nanosleep interrupted) (by decide) rfl).2 (by decide)

/-- **A longer sleep.**  A caller passes one second in `edi`, with 1 in the upper half of `rdi`: the
request is for `2 ^ 32 + 1` seconds. -/
theorem sleep_fails : (∃ s, Arrives placed (sleepKernel interrupted)
      (placed.addr (.sys .nanosleep)) ⟨sleeper 0x100000001, placed.addr .sleep⟩ s ∧
      timespecAt s.mem (s.gpr rdi) = ⟨0x100000001, 0⟩) ∧
    (((sleeper 0x100000001).gpr rdi).setWidth 32 : BitVec 32) = 1 ∧
    ¬ SleepsLike placed (sleepKernel interrupted) interrupted (sleeper 0x100000001) 1 := by
  obtain ⟨⟨s, harr, hreq⟩, -⟩ := sleep_spec (c := sleeper 0x100000001) placed_installed
    (sleepKernel_nanosleep interrupted) (by decide)
  refine ⟨⟨s, harr, hreq⟩, by decide, ?_⟩
  rintro ⟨⟨s', harr', hreq'⟩, -⟩
  obtain rfl := harr.unique harr'
  exact absurd (hreq.symm.trans hreq') (by decide)

end Mini
