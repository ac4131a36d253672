import NctuUnix.Hw3.Longjmp
import NctuUnix.Hw3.Perror
import NctuUnix.Hw3.Sleep

/-!
# The wrappers of the system calls

The functions of `libmini.c` that are built on `WRAPPER_RETval` and `WRAPPER_RETptr` make a system
call, put the error in `errno` and convert the result to their own type.  `sigaction` writes to the
structure of its caller before, and `open` is written in assembly.

## Main results

* `open_returns` — `open` does what `WRAPPER_RETval(int)` would do.
* `wrappers_iff` — which results each of them hands over rightly.
* `wrappers_fails` — `getcwd`, which takes the length that the kernel returns for a pointer.
-/

set_option autoImplicit false

namespace Mini

open Bytes X86 Reg

/-! ## The two macros -/

/-- The types that results are converted to. -/
inductive CType
  | ssize
  | int
  | unsigned
  | pointer
  deriving DecidableEq, Repr

/-- The conversion of a `long`. -/
def CType.value (w : Word) : CType → Int
  | .ssize => w.toInt
  | .int => (w.setWidth 32).toInt
  | .unsigned => (w.setWidth 32).toNat
  | .pointer => w.toNat

/-- What tells that a call has failed: `NULL`, or -1. -/
def CType.failure : CType → Int
  | .pointer => 0
  | type => type.value (-1)

/-- `WRAPPER_RETptr`, up to the conversion to its type. -/
def wrapperRetptr (ret : Word) : Word × Word := if ret.slt 0 then (-ret, 0) else (0, ret)

/-- A wrapper: its system call, its type, and what it passes behind its own arguments. -/
structure Wrapper where
  sys : Sys
  type : CType
  more : List Word
  deriving DecidableEq, Repr

/-- A wrapper, called with `args`: `errno` and the value that is returned. -/
def Wrapper.call (w : Wrapper) (kernel : Sys → List Word → Word) (args : List Word) : Word × Int :=
  let ret := kernel w.sys (args ++ w.more)
  let (errno, value) := if w.type = .pointer then wrapperRetptr ret else wrapperRetval ret
  (errno, w.type.value value)

namespace Wrapper

def read : Wrapper := ⟨.read, .ssize, []⟩
def write : Wrapper := ⟨.write, .ssize, []⟩
def close : Wrapper := ⟨.close, .int, []⟩
def mmap : Wrapper := ⟨.mmap, .pointer, []⟩
def mprotect : Wrapper := ⟨.mprotect, .int, []⟩
def munmap : Wrapper := ⟨.munmap, .int, []⟩
def pipe : Wrapper := ⟨.pipe, .int, []⟩
def dup : Wrapper := ⟨.dup, .int, []⟩
def dup2 : Wrapper := ⟨.dup2, .int, []⟩
def pause : Wrapper := ⟨.pause, .int, []⟩
def nanosleep : Wrapper := ⟨.nanosleep, .int, []⟩
def fork : Wrapper := ⟨.fork, .int, []⟩
def getcwd : Wrapper := ⟨.getcwd, .pointer, []⟩
def chdir : Wrapper := ⟨.chdir, .int, []⟩
def rename : Wrapper := ⟨.rename, .int, []⟩
def mkdir : Wrapper := ⟨.mkdir, .int, []⟩
def rmdir : Wrapper := ⟨.rmdir, .int, []⟩
def creat : Wrapper := ⟨.creat, .int, []⟩
def link : Wrapper := ⟨.link, .int, []⟩
def unlink : Wrapper := ⟨.unlink, .int, []⟩
def readlink : Wrapper := ⟨.readlink, .ssize, []⟩
def chmod : Wrapper := ⟨.chmod, .int, []⟩
def chown : Wrapper := ⟨.chown, .int, []⟩
def umask : Wrapper := ⟨.umask, .int, []⟩
def gettimeofday : Wrapper := ⟨.gettimeofday, .int, []⟩
def getuid : Wrapper := ⟨.getuid, .int, []⟩
def getgid : Wrapper := ⟨.getgid, .int, []⟩
def setuid : Wrapper := ⟨.setuid, .int, []⟩
def setgid : Wrapper := ⟨.setgid, .int, []⟩
def geteuid : Wrapper := ⟨.geteuid, .int, []⟩
def getegid : Wrapper := ⟨.getegid, .int, []⟩
def sigprocmask : Wrapper := ⟨.rtSigprocmask, .int, [65 / 8]⟩
def sigpending : Wrapper := ⟨.rtSigpending, .int, [65 / 8]⟩
def alarm : Wrapper := ⟨.alarm, .unsigned, []⟩

/-- The wrappers that do nothing else, in the order of the file. -/
def all : List Wrapper :=
  [read, write, close, mmap, mprotect, munmap, pipe, dup, dup2, pause, nanosleep, fork, getcwd,
    chdir, rename, mkdir, rmdir, creat, link, unlink, readlink, chmod, chown, umask, gettimeofday,
    getuid, getgid, setuid, setgid, geteuid, getegid, sigprocmask, sigpending, alarm]

end Wrapper

/-! ### `sigaction` -/

/-- The process can access `n` bytes from `a` on, of the addresses that it has mapped. -/
def Accessible (mapped : Addr → Bool) (a : Addr) (n : Nat) : Prop :=
  ∀ k, k < n → mapped (a + BitVec.ofNat 64 k) = true

instance (mapped : Addr → Bool) (a : Addr) (n : Nat) : Decidable (Accessible mapped a n) :=
  Nat.decidableBallLT n fun k _ ↦ mapped (a + BitVec.ofNat 64 k) = true

def saRestorer : Word := 0x04000000

/-- The system call `rt_sigaction(sig, act, oact, sigsetsize)`, on the memory of the process and on
what the kernel keeps of it. -/
abbrev SysSigaction (κ : Type) := Int → Addr → Addr → Word → Mem → κ → Word × Mem × κ

/-- The memory when `sigaction` has completed the structure of its caller. -/
def completed (myrt : Word) (m : Mem) (act : Addr) : Mem :=
  storeWord (storeWord m (act + 8) (loadWord m (act + 8) ||| saRestorer)) (act + 16) myrt

/-- `int sigaction(int sig, struct sigaction *act, struct sigaction *oact)`: `errno` and the value,
and what has become of the process; `none`: a fault. -/
def sigaction {κ : Type} (mapped : Addr → Bool) (sys : SysSigaction κ) (myrt : Word) (sig : Int)
    (act oact : Addr) (m : Mem) (k : κ) : Option ((Word × Int) × Mem × κ) :=
  -- `act->sa_flags |= SA_RESTORER; act->sa_restorer = myrt;`
  if Accessible mapped (act + 8) 16 then
    let (ret, m, k) := sys sig act oact (65 / 8) (completed myrt m act) k
    let (errno, value) := wrapperRetval ret
    some ((errno, CType.int.value value), m, k)
  else none

/-! ## What they should return -/

/-- Where the kernel has returned `ret` a caller gets `r`, `errno` and a value: an error is put in
`errno`, and otherwise `errno` is cleared and the value is the one that is promised. -/
def Kept (type : CType) (ret : Word) (promised : Int) (r : Word × Int) : Prop :=
  if -4095 ≤ ret.toInt ∧ ret.toInt < 0 then r = (-ret, type.failure) else r = (0, promised)

/-- What the interface promises for a call that has not failed: the buffer, an address, or a
number. -/
def Wrapper.promised (w : Wrapper) (args : List Word) (ret : Word) : Int :=
  if w = getcwd then (args.headD 0).toNat else if w = mmap then ret.toNat else ret.toInt

/-- The type has this number. -/
def CType.Fits (ret : Word) : CType → Prop
  | .int => ret.toInt < 2 ^ 31
  | .unsigned => ret.toInt < 2 ^ 32
  | .ssize | .pointer => True

/-- `w`, called with `args`, keeps to the protocol. -/
def Wrapper.Keeps (w : Wrapper) (kernel : Sys → List Word → Word) (args : List Word) : Prop :=
  let ret := kernel w.sys (args ++ w.more)
  Kept w.type ret (w.promised args ret) (w.call kernel args)

/-- `sigaction` returns, and keeps to the protocol. -/
def SigactionKeeps {κ : Type} (mapped : Addr → Bool) (sys : SysSigaction κ) (myrt : Word)
    (sig : Int) (act oact : Addr) (m : Mem) (k : κ) : Prop :=
  let ret := (sys sig act oact 8 (completed myrt m act) k).1
  ∃ r m' k', sigaction mapped sys myrt sig act oact m k = some (r, m', k') ∧
    Kept .int ret ret.toInt r

/-! ## When they do -/

variable {ret : Word} {type : CType}

/-- A number that is not negative is kept by the conversion exactly if the type has it. -/
theorem value_eq_iff (hpos : 0 ≤ ret.toInt) (hptr : type ≠ .pointer) :
    type.value ret = ret.toInt ↔ type.Fits ret := by
  have hnat : (ret.toNat : Int) = ret.toInt := by
    have hcond := BitVec.toInt_eq_toNat_cond ret
    have hlt := ret.isLt
    split at hcond <;> omega
  have hlow : (ret.setWidth 32).toNat = ret.toNat % 2 ^ 32 := BitVec.toNat_setWidth _ _
  cases type with
  | pointer => exact absurd rfl hptr
  | ssize => exact iff_of_true rfl trivial
  | int =>
    rw [CType.value, CType.Fits, BitVec.toInt_eq_toNat_cond, hlow]
    split <;> omega
  | unsigned =>
    rw [CType.value, CType.Fits, hlow]
    omega

/-- `errno` and the value, as the macro of a type leaves them. -/
def CType.wrapperRet (type : CType) (ret : Word) : Word × Word :=
  if type = .pointer then wrapperRetptr ret else wrapperRetval ret

theorem wrapperRet_eq (type : CType) (ret : Word) :
    ((type.wrapperRet ret).1, type.value (type.wrapperRet ret).2) =
      if ret.toInt < 0 then (-ret, type.failure) else (0, type.value ret) := by
  have hslt : ret.slt 0 = true ↔ ret.toInt < 0 := BitVec.slt_iff_toInt_lt
  rw [CType.wrapperRet, wrapperRetptr, wrapperRetval]
  by_cases hneg : ret.toInt < 0
  · rw [if_pos (hslt.2 hneg), if_pos (hslt.2 hneg), if_pos hneg]
    cases type <;> rfl
  · rw [if_neg (mt hslt.1 hneg), if_neg (mt hslt.1 hneg), if_neg hneg, ite_self]

/-- What a wrapper returns, where its macro takes the result for an error and where it does not. -/
theorem Wrapper.call_eq (w : Wrapper) {kernel : Sys → List Word → Word} {args : List Word}
    (hret : kernel w.sys (args ++ w.more) = ret) : w.call kernel args =
      if ret.toInt < 0 then (-ret, w.type.failure) else (0, w.type.value ret) := by
  rw [call, hret]
  exact wrapperRet_eq w.type ret

/-- **The protocol**, for what such a macro makes of a result: the error range is its lower bound,
and from 0 on the value is the promised one. -/
theorem kept_iff {promised : Int} : Kept type ret promised
      (if ret.toInt < 0 then (-ret, type.failure) else (0, type.value ret)) ↔
    -4095 ≤ ret.toInt ∧ (0 ≤ ret.toInt → type.value ret = promised) := by
  rw [Kept]
  by_cases hneg : ret.toInt < 0
  · rw [if_pos hneg]
    by_cases hlow : -4095 ≤ ret.toInt
    · rw [if_pos ⟨hlow, hneg⟩]
      exact iff_of_true rfl ⟨hlow, fun hpos ↦ by omega⟩
    · rw [if_neg fun h ↦ hlow h.1]
      refine iff_of_false (fun h ↦ ?_) fun h ↦ hlow h.1
      have hzero : ret = 0 := by
        have := (Prod.mk.inj h).1
        bv_omega
      rw [hzero] at hneg
      exact absurd hneg (by decide)
  · rw [if_neg hneg, if_neg fun h ↦ hneg h.2]
    constructor
    · exact fun h ↦ ⟨by omega, fun _ ↦ (Prod.mk.inj h).2⟩
    · rintro ⟨-, hvalue⟩
      rw [hvalue (by omega)]

/-- The wrappers of a type that is no pointer return a number. -/
theorem Wrapper.type_ne {w : Wrapper} (hw : w ∈ all) (hcwd : w ≠ getcwd) (hmap : w ≠ mmap) :
    w.type ≠ .pointer := by
  revert hcwd hmap
  revert w
  decide

/-- **The wrappers in C**, for any kernel. -/
theorem Wrapper.keeps_iff {w : Wrapper} (hw : w ∈ all) {kernel : Sys → List Word → Word}
    {args : List Word} (hret : kernel w.sys (args ++ w.more) = ret) :
    w.Keeps kernel args ↔ -4095 ≤ ret.toInt ∧
      (0 ≤ ret.toInt → w.type.Fits ret ∧ (w = getcwd → args.headD 0 = ret)) := by
  simp only [Keeps, hret]
  rw [w.call_eq hret, kept_iff]
  refine and_congr_right fun _ ↦ forall_congr' fun hpos ↦ ?_
  rw [promised]
  by_cases hcwd : w = getcwd
  · subst hcwd
    rw [if_pos rfl]
    have hvalue : getcwd.type.value ret = ret.toNat := rfl
    rw [hvalue, Nat.cast_inj, BitVec.toNat_inj]
    exact ⟨fun h ↦ ⟨trivial, fun _ ↦ h.symm⟩, fun h ↦ (h.2 rfl).symm⟩
  rw [if_neg hcwd, and_iff_left fun h ↦ absurd h hcwd]
  by_cases hmap : w = mmap
  · subst hmap
    rw [if_pos rfl]
    exact iff_of_true rfl trivial
  · rw [if_neg hmap]
    exact value_eq_iff hpos (type_ne hw hcwd hmap)

/-- **`sigaction`**: it can also fault. -/
theorem sigactionKeeps_iff {κ : Type} {mapped : Addr → Bool} {sys : SysSigaction κ} {myrt : Word}
    {sig : Int} {act oact : Addr} {m : Mem} {k : κ}
    (hret : (sys sig act oact 8 (completed myrt m act) k).1 = ret) :
    SigactionKeeps mapped sys myrt sig act oact m k ↔ Accessible mapped (act + 8) 16 ∧
      -4095 ≤ ret.toInt ∧ (0 ≤ ret.toInt → CType.int.Fits ret) := by
  have hmacro : ((wrapperRetval ret).1, CType.int.value (wrapperRetval ret).2) =
      if ret.toInt < 0 then (-ret, CType.int.failure) else (0, CType.int.value ret) :=
    wrapperRet_eq .int ret
  simp only [SigactionKeeps, hret]
  by_cases hacc : Accessible mapped (act + 8) 16
  · have hcall : sigaction mapped sys myrt sig act oact m k =
        some (((wrapperRetval ret).1, CType.int.value (wrapperRetval ret).2),
          (sys sig act oact 8 (completed myrt m act) k).2) := by
      rw [sigaction, if_pos hacc, ← hret]
      rfl
    rw [hcall, hmacro, and_iff_right hacc]
    have hfits : (0 ≤ ret.toInt → CType.int.value ret = ret.toInt) ↔
        (0 ≤ ret.toInt → CType.int.Fits ret) :=
      forall_congr' fun hpos ↦ value_eq_iff hpos (by decide)
    rw [← hfits, ← kept_iff]
    constructor
    · rintro ⟨r, m', k', heq, hk⟩
      rwa [(Prod.mk.inj (Option.some.inj heq)).1]
    · exact fun hk ↦ ⟨_, _, _, rfl, hk⟩
  · rw [sigaction, if_neg hacc]
    exact iff_of_false (by rintro ⟨r, m', k', heq, -⟩; cases heq) fun h ↦ hacc h.1

/-! ## `open` -/

variable {ε : Type} {C : Code Label} {K : Kernel ε} {c : Core ε} {errno : Addr}

/-- The kernel answers `open` with `ret`, and does not write to the memory of the process. -/
structure Opens (K : Kernel ε) (ret : Word) : Prop where
  result : ∀ c, c.gpr rax = 2 → (K.syscall c).gpr rax = ret
  stores : ∀ c, c.gpr rax = 2 → (K.syscall c).mem = c.mem

/-- **`sys_open`**, called with a return address on the stack. -/
theorem sysOpen_avoids (hC : Installed C) (hK : Opens K ret) {l : Label} {b : Addr}
    (hl : C.Loaded (C.addr l) [.instr .ret]) (hsp : c.gpr rsp ≠ b) :
    ∃ c', Avoids C K (AtRet C l b) ⟨c, C.addr (.sys .open)⟩ ⟨c', c.top⟩ ∧
      c'.mem = storeWord c.mem (c.gpr rsp - 8) (c.gpr r10) ∧ c'.gpr rax = ret ∧
      c'.gpr rsp = c.gpr rsp + 8 := by
  have hmem : (K.syscall (sysArgs 2 c)).mem = storeWord c.mem (c.gpr rsp - 8) (c.gpr r10) :=
    hK.stores (sysArgs 2 c) rfl
  have hself : Apart (c.gpr rsp - 8) 8 (c.gpr rsp) 8 := by
    constructor <;> bv_omega
  obtain ⟨c', hr, hm, hax, hsp'⟩ := stub_avoids hC
    (show (2, Sys.open) ∈ stubs by decide) (rfl : K.syscall (sysArgs 2 c) = _)
    (by rw [hmem, loadWord_storeWord_same])
    (by
      rw [hmem, loadWord_storeWord_apart hself.1 hself.2]
      rfl)
    hl hsp
  exact ⟨c', hr, hm.trans hmem, hax.trans (hK.result _ rfl), hsp'⟩

/-- **`open`**, called where `errno` does not lie in the return address: it returns there, with what
`WRAPPER_RETval` makes of the result. -/
theorem open_returns (hC : InstalledOpen C errno) (hK : Opens K ret)
    (hap : Apart errno 8 (c.gpr rsp) 8) :
    ∃ s, Returns C K .openQuit (c.gpr rsp) ⟨c, C.addr .open⟩ s ∧ s.rip = c.top ∧
      s.gpr rsp = c.gpr rsp + 8 ∧ (loadWord s.mem errno, s.gpr rax) = wrapperRetval ret := by
  have hl : C.Loaded (C.addr .openQuit) [.instr .ret] :=
    Code.Loaded.at_label (openAsm errno).tail.dropLast.dropLast hC.loaded
  obtain ⟨a₁, h₁, r₁⟩ := Avoids.call (K := K) (b := c.gpr rsp) hl hC.loaded
  obtain ⟨c₁, hcall, hmem₁, hax₁, hsp₁⟩ := sysOpen_avoids (c := c.push a₁) hC.routines hK hl
    (b := c.gpr rsp) (by rw [Core.rsp_push]; bv_omega)
  rw [Core.top_push] at hcall
  rw [Core.mem_push, Core.rsp_push] at hmem₁
  rw [Core.rsp_push, BitVec.sub_add_cancel] at hsp₁
  -- the return address is below nothing that is pushed
  have htop₁ : loadWord c₁.mem (c.gpr rsp) = c.top := by
    have hlow : Apart (c.gpr rsp - 8) 8 (c.gpr rsp) 8 := by
      constructor <;> bv_omega
    have hlow' : Apart (c.gpr rsp - 8 - 8) 8 (c.gpr rsp) 8 := by
      constructor <;> bv_omega
    rw [hmem₁, loadWord_storeWord_apart hlow'.1 hlow'.2, loadWord_storeWord_apart hlow.1 hlow.2]
    rfl
  obtain ⟨a₂, h₂, r₂⟩ := Avoids.ops (K := K) (b := c.gpr rsp) hl h₁
  obtain ⟨a₃, ⟨-, h₃⟩, r₃⟩ := Avoids.jcc (K := K) (b := c.gpr rsp) hl h₂
  obtain ⟨a₄, h₄, r₄⟩ := Avoids.ops (K := K) (b := c.gpr rsp) hl h₃
  obtain ⟨a₅, ⟨hsuccess, h₅⟩, r₅⟩ := Avoids.jmp (K := K) (b := c.gpr rsp) hl h₄
  obtain ⟨a₆, ⟨hquit, -⟩, r₆⟩ := Avoids.ops (K := K) (b := c.gpr rsp) hl h₅
  -- the result is tested
  have hcmp := (((r₁ c).trans hcall).trans (r₂ c₁)).trans (r₃ _)
  have hflags : (run K [.cmp rax (.imm 0)] c₁).flags = Flags.ofSub ret 0 := by
    rw [← hax₁]
    rfl
  rw [hflags, ge_ofSub_zero] at hcmp
  generalize hc₂ : run K [.cmp rax (.imm 0)] c₁ = c₂ at hcmp
  have hsp₂ : c₂.gpr rsp = c.gpr rsp := by rw [← hc₂]; exact hsp₁
  have hax₂ : c₂.gpr rax = ret := by rw [← hc₂]; exact hax₁
  have hmem₂ : c₂.mem = c₁.mem := by rw [← hc₂]; rfl
  -- what both ways have in common: `errno` is written, and the routine returns
  have hend {d : Core ε} {v : Word} (hd : Avoids C K (AtRet C .openQuit (c.gpr rsp))
        ⟨c, C.addr .open⟩ ⟨d, C.addr .openQuit⟩) (hsp : d.gpr rsp = c.gpr rsp)
      (hm : d.mem = storeWord c₁.mem errno v) :
      ∃ s, Returns C K .openQuit (c.gpr rsp) ⟨c, C.addr .open⟩ s ∧ s.rip = c.top ∧
        s.gpr rsp = c.gpr rsp + 8 ∧ (loadWord s.mem errno, s.gpr rax) = (v, d.gpr rax) := by
    refine ⟨_, hd.returns hl hsp, ?_, ?_, ?_⟩
    · show loadWord d.mem (d.gpr rsp) = c.top
      rw [hsp, hm, loadWord_storeWord_apart hap.1 hap.2, htop₁]
    · show d.gpr rsp + 8 = c.gpr rsp + 8
      rw [hsp]
    · show (loadWord d.mem errno, d.gpr rax) = (v, d.gpr rax)
      rw [hm, loadWord_storeWord_same]
  have hsle : BitVec.sle 0 ret = !ret.slt 0 := by
    rw [BitVec.sle_eq_not_slt]
  rw [wrapperRetval]
  by_cases hneg : ret.slt 0 = true
  · rw [if_pos hneg]
    rw [hsle, hneg, if_neg (by decide)] at hcmp
    have hlast := (hcmp.trans (r₄ c₂)).trans (r₅ _)
    obtain ⟨s, hs, hrip, hsp, hpair⟩ := hend hlast hsp₂ (v := -ret) (by
      simp -implicitDefEqProofs [qword, hax₂, hmem₂])
    refine ⟨s, hs, hrip, hsp, hpair.trans (Prod.ext rfl ?_)⟩
    simp -implicitDefEqProofs
  · rw [if_neg hneg]
    rw [hsle, Bool.eq_false_iff.2 hneg, if_pos (by decide), hsuccess] at hcmp
    have hlast := hcmp.trans (r₆ c₂)
    rw [← hquit] at hlast
    obtain ⟨s, hs, hrip, hsp, hpair⟩ := hend hlast hsp₂ (v := 0) (by
      simp -implicitDefEqProofs [qword, hmem₂])
    refine ⟨s, hs, hrip, hsp, hpair.trans (Prod.ext rfl ?_)⟩
    simp -implicitDefEqProofs [qword, hax₂]

/-- `open`, called in state `c`, keeps to the protocol. -/
def OpenKeeps (C : Code Label) (K : Kernel ε) (errno : Addr) (c : Core ε) (ret : Word) : Prop :=
  ∃ s, Returns C K .openQuit (c.gpr rsp) ⟨c, C.addr .open⟩ s ∧ s.rip = c.top ∧
    Kept .int ret ret.toInt (loadWord s.mem errno, CType.int.value (s.gpr rax))

/-- `open`, called in state `c`, returns what a wrapper with `WRAPPER_RETval(int)` would return. -/
def OpenAgrees (C : Code Label) (K : Kernel ε) (errno : Addr) (c : Core ε) (ret : Word) : Prop :=
  ∃ s, Returns C K .openQuit (c.gpr rsp) ⟨c, C.addr .open⟩ s ∧ s.rip = c.top ∧
    (loadWord s.mem errno, CType.int.value (s.gpr rax)) =
      (⟨.open, .int, []⟩ : Wrapper).call (fun _ _ ↦ ret) []

/-- **The error protocol.**  For every result of the kernel: a wrapper keeps to it exactly if the
result is not below the range of the errors, its type has the number, and for `getcwd` the number is
the address of the buffer; `sigaction` exactly if the process can access the two fields that it
writes as well; and so does `open`, which agrees with `WRAPPER_RETval(int)`. -/
theorem wrappers_iff (hC : InstalledOpen C errno) (hK : Opens K ret)
    (hap : Apart errno 8 (c.gpr rsp) 8) :
    (∀ w ∈ Wrapper.all, ∀ (kernel : Sys → List Word → Word) (args : List Word),
      kernel w.sys (args ++ w.more) = ret → (w.Keeps kernel args ↔ -4095 ≤ ret.toInt ∧
        (0 ≤ ret.toInt → w.type.Fits ret ∧ (w = .getcwd → args.headD 0 = ret)))) ∧
    (∀ (κ : Type) (mapped : Addr → Bool) (sys : SysSigaction κ) (myrt : Word) (sig : Int)
        (act oact : Addr) (m : Mem) (k : κ), (sys sig act oact 8 (completed myrt m act) k).1 = ret →
      (SigactionKeeps mapped sys myrt sig act oact m k ↔ Accessible mapped (act + 8) 16 ∧
        -4095 ≤ ret.toInt ∧ (0 ≤ ret.toInt → CType.int.Fits ret))) ∧
    (OpenKeeps C K errno c ret ↔
      -4095 ≤ ret.toInt ∧ (0 ≤ ret.toInt → CType.int.Fits ret)) ∧
    OpenAgrees C K errno c ret := by
  refine ⟨fun w hw kernel args hret ↦ w.keeps_iff hw hret,
    fun κ mapped sys myrt sig act oact m k hret ↦ sigactionKeeps_iff hret, ?_⟩
  obtain ⟨s, hs, hrip, -, hpair⟩ := open_returns hC hK hap
  have hagree : (loadWord s.mem errno, CType.int.value (s.gpr rax)) =
      (⟨.open, .int, []⟩ : Wrapper).call (fun _ _ ↦ ret) [] := by
    rw [Wrapper.call, if_neg (by decide), ← hpair]
  refine ⟨?_, s, hs, hrip, hagree⟩
  have hkeeps : OpenKeeps C K errno c ret ↔
      Kept .int ret ret.toInt (loadWord s.mem errno, CType.int.value (s.gpr rax)) := by
    constructor
    · rintro ⟨s', hs', -, hk⟩
      rwa [hs.unique hs']
    · exact fun hk ↦ ⟨s, hs, hrip, hk⟩
  rw [hkeeps, hagree, Wrapper.call_eq _ rfl, kept_iff]
  exact and_congr_right fun _ ↦ forall_congr' fun hpos ↦ value_eq_iff hpos (by decide)

/-! ### A kernel, and a working directory -/

/-- A kernel with `open` as its only system call. -/
def openKernel (ret : Word) : Kernel Unit where
  syscall c := c.set rax (if c.gpr rax = 2 then ret else -38)
  kept _ _ h _ _ := if_neg h

theorem openKernel_opens (ret : Word) : Opens (openKernel ret) ret :=
  ⟨fun _ h ↦ if_pos h, fun _ _ ↦ rfl⟩

/-- The routines and `open`, one behind the other; `errno` lies at `0x600000`. -/
def placedOpen : Code Label := .ofItems (routines.flatten ++ openAsm 0x600000) 0x400000

theorem placedOpen_installed : InstalledOpen placedOpen 0x600000 where
  routines is hi :=
    Code.loaded_of_infix 0x400000
      ((List.infix_of_mem_flatten hi).trans (List.prefix_append _ _).isInfix) (by decide +kernel)
        (by decide +kernel)
  opens := Code.loaded_of_infix 0x400000 (List.suffix_append _ _).isInfix (by decide +kernel)
    (by decide +kernel)

/-- No such file: for every kernel that says so, and for a `sigaction` whose structure is mapped. -/
theorem wrappers_iff_enoent :
    (∀ w ∈ Wrapper.all, ∀ (kernel : Sys → List Word → Word) (args : List Word),
      kernel w.sys (args ++ w.more) = -2 → w.Keeps kernel args) ∧
    (SigactionKeeps (fun a ↦ 0x7000 ≤ a && a < 0x8000) (fun _ _ _ _ m (k : Unit) ↦ (-2, m, k))
      0x401000 2 0x7000 0 (fun _ ↦ 0) ()) ∧
    (¬ SigactionKeeps (fun a ↦ 0x7000 ≤ a && a < 0x8000) (fun _ _ _ _ m (k : Unit) ↦ (-2, m, k))
      0x401000 2 0 0x7000 (fun _ ↦ 0) ()) ∧
      OpenKeeps placedOpen (openKernel (-2)) 0x600000 (sleeper 0x5000) (-2) := by
  obtain ⟨hw, hsig, ho, -⟩ := wrappers_iff (c := sleeper 0x5000) placedOpen_installed
    (openKernel_opens (-2)) (by decide)
  have hlow : -4095 ≤ (-2 : Word).toInt := by decide
  have hneg : ¬ 0 ≤ (-2 : Word).toInt := by decide
  refine ⟨fun w hmem kernel args hret ↦
    (hw w hmem kernel args hret).2 ⟨hlow, fun h ↦ absurd h hneg⟩, ?_, ?_,
    ho.2 ⟨hlow, fun h ↦ absurd h hneg⟩⟩
  · exact (hsig _ _ _ _ _ _ _ _ _ rfl).2 ⟨by decide, hlow, fun h ↦ absurd h hneg⟩
  · rw [hsig _ _ _ _ _ _ _ _ _ rfl]
    exact fun h ↦ absurd h.1 (by decide)

/-- **A length for a pointer.**  The working directory is `/root`, and the kernel returns that it
has written six bytes; `getcwd` returns 6 and not the buffer. -/
theorem wrappers_fails : Wrapper.getcwd ∈ Wrapper.all ∧
    Wrapper.getcwd.call (fun _ _ ↦ 6) [0x7ffe00001000, 4096] = (0, 6) ∧
    ¬ Wrapper.getcwd.Keeps (fun _ _ ↦ 6) [0x7ffe00001000, 4096] := by
  refine ⟨by decide, by decide, fun h ↦ ?_⟩
  have hsame := ((Wrapper.keeps_iff (by decide) rfl).1 h).2 (by decide)
  exact absurd (hsame.2 rfl) (by decide)

end Mini
