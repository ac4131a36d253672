import NctuUnix.Lib.X86

/-!
# The assembly of libmini

The routines of `libmini64.asm` that make system calls, that save and restore a machine state, that
sleep, and that open a file.  They are placed by an arbitrary code segment (`Installed`).
-/

set_option autoImplicit false

namespace Mini

open Bytes X86

/-- The system calls with a stub. -/
inductive Sys
  | read | write | open | close | mmap | mprotect | munmap | rtSigaction | rtSigprocmask | pipe
  | dup
  | dup2 | pause | nanosleep | alarm | fork | exit | getcwd | chdir | rename | mkdir | rmdir | creat
  | link | unlink | readlink | chmod | chown | umask | gettimeofday | getuid | getgid | setuid
  | setgid | geteuid | getegid | rtSigpending
  deriving DecidableEq, Repr

/-- The labels. -/
inductive Label
  | sys (name : Sys)
  | setjmp
  | longjmp
  | longjmpret
  | sleep
  | sleepError
  | sleepInterrupted
  | sleepFailed
  | sleepQuit
  | open
  | openError
  | openSuccess
  | openQuit
  deriving DecidableEq, Repr

/-- The quadword at `[base + disp]`. -/
def qword (base : Reg) (disp : Word) : Loc := .mem base disp

open Reg

/-- `%macro gensys 2` -/
def gensys (n : Word) (name : Sys) : List (Item Label) :=
  .label (.sys name) ::
    (ops [.push r10, .mov r10 rcx, .mov rax (.imm n), .syscall, .pop r10] ++ [.instr .ret])

/-- The stubs, in the order of the file. -/
def stubs : List (Word × Sys) :=
  [(0, .read), (1, .write), (2, .open), (3, .close), (9, .mmap), (10, .mprotect), (11, .munmap),
    (13, .rtSigaction), (14, .rtSigprocmask), (22, .pipe), (32, .dup), (33, .dup2), (34, .pause),
    (35, .nanosleep), (37, .alarm), (57, .fork), (60, .exit), (79, .getcwd), (80, .chdir),
    (82, .rename), (83, .mkdir), (84, .rmdir), (85, .creat), (86, .link), (88, .unlink),
    (89, .readlink), (90, .chmod), (92, .chown), (95, .umask), (96, .gettimeofday), (102, .getuid),
    (104, .getgid), (105, .setuid), (106, .setgid), (107, .geteuid), (108, .getegid),
    (127, .rtSigpending)]

/-- `setjmp` up to its system call: the registers, the stack pointer of the caller and the return
address are stored, and the arguments are set up for asking for the mask. -/
def setjmpSave : List Op :=
  [.lea r8 rsp 8,
    .mov (qword rdi (0 * 8)) rbx,
    .mov (qword rdi (1 * 8)) r8,
    .mov (qword rdi (2 * 8)) rbp,
    .mov (qword rdi (3 * 8)) r12,
    .mov (qword rdi (4 * 8)) r13,
    .mov (qword rdi (5 * 8)) r14,
    .mov (qword rdi (6 * 8)) r15,
    .push (qword rsp 0),
    .pop (qword rdi (7 * 8)),
    .push rdi,
    .push rsi,
    .push rdx,
    .push rcx,
    .sub rsp (.imm 8),
    .mov rdi (.imm 0),
    .mov rsi (.imm 0),
    .mov rdx rsp,
    .mov rcx (.imm 8)]

/-- The rest of it. -/
def setjmpMask : List Op :=
  [.pop r8, .pop rcx, .pop rdx, .pop rsi, .pop rdi, .mov (qword rdi (8 * 8)) r8, .mov rax (.imm 0)]

/-- `setjmp` -/
def setjmp : List (Item Label) :=
  .label .setjmp ::
    (ops setjmpSave ++ .instr (.call (.sys .rtSigprocmask)) :: (ops setjmpMask ++ [.instr .ret]))

/-- `longjmp` up to its system call: it switches to the stack of `setjmp` and pushes there. -/
def longjmpLoad : List Op :=
  [.mov rbx (qword rdi (0 * 8)),
    .mov rsp (qword rdi (1 * 8)),
    .mov rbp (qword rdi (2 * 8)),
    .mov r12 (qword rdi (3 * 8)),
    .mov r13 (qword rdi (4 * 8)),
    .mov r14 (qword rdi (5 * 8)),
    .mov r15 (qword rdi (6 * 8)),
    .push rdi,
    .push rsi,
    .push rdx,
    .push rcx,
    .add rdi (.imm (8 * 8)),
    .mov rsi rdi,
    .mov rdi (.imm 2),
    .mov rdx (.imm 0),
    .mov rcx (.imm 8)]

/-- From there to the comparison. -/
def longjmpValue : List Op :=
  [.pop rcx, .pop rdx, .pop rsi, .pop rdi, .push (qword rdi (7 * 8)), .mov rax rsi,
    .cmp rax (.imm 0)]

/-- `longjmp` -/
def longjmp : List (Item Label) :=
  .label .longjmp ::
    (ops longjmpLoad ++ .instr (.call (.sys .rtSigprocmask)) ::
      (ops longjmpValue ++ .instr (.jcc .ne .longjmpret) ::
        (ops [.inc rax] ++ [.label .longjmpret, .instr .ret])))

/-- `sleep` up to its system call: the two `timespec` are put on the stack, the request below the
remaining time. -/
def sleepEnter : List Op :=
  [.sub rsp (.imm 32),
    .mov (qword rsp 0) rdi,
    .mov (qword rsp 8) (.imm 0),
    .mov rdi rsp,
    .lea rsi rsp 16]

/-- The rest of it: the result is returned, the remaining seconds after an interruption, and 0 after
any other error. -/
def sleepLeave : List (Item Label) :=
  ops [.cmp rax (.imm 0)] ++ .instr (.jcc .ge .sleepQuit) ::
    .label .sleepError ::
    (ops [.neg rax, .cmp rax (.imm 4)] ++ .instr (.jcc .ne .sleepFailed) ::
      .label .sleepInterrupted ::
      (ops [.lea rsi rsp 16, .mov rax (qword rsi 0)] ++ .instr (.jmp .sleepQuit) ::
        .label .sleepFailed ::
        (ops [.mov rax (.imm 0)] ++
          .label .sleepQuit :: (ops [.add rsp (.imm 32)] ++ [.instr .ret]))))

/-- `sleep` -/
def sleep : List (Item Label) :=
  .label .sleep :: (ops sleepEnter ++ .instr (.call (.sys .nanosleep)) :: sleepLeave)

/-- `open`; what the two loads of the address of `errno` find is `errno`. -/
def openAsm (errno : Addr) : List (Item Label) :=
  .label .open :: .instr (.call (.sys .open)) :: (ops [.cmp rax (.imm 0)] ++
    .instr (.jcc .ge .openSuccess) :: .label .openError ::
      (ops [.neg rax, .mov rdi (.imm errno), .mov (qword rdi 0) rax, .mov rax (.imm (-1))] ++
        .instr (.jmp .openQuit) :: .label .openSuccess ::
          (ops [.mov rdi (.imm errno), .mov (qword rdi 0) (.imm 0)] ++
            [.label .openQuit, .instr .ret])))

/-- The routines that do not refer to `errno`. -/
def routines : List (List (Item Label)) :=
  (stubs.map fun p ↦ gensys p.1 p.2) ++ [setjmp, longjmp, sleep]

/-- A code segment that has the routines somewhere. -/
def Installed (C : Code Label) : Prop := ∀ is ∈ routines, ∃ a, C.Loaded a is

/-- A code segment that has `open` as well. -/
structure InstalledOpen (C : Code Label) (errno : Addr) : Prop where
  routines : Installed C
  opens : ∃ a, C.Loaded a (openAsm errno)

variable {ε : Type} {C : Code Label} {K : Kernel ε} {c : Core ε}

theorem Installed.stub (hC : Installed C) {n : Word} {name : Sys} (h : (n, name) ∈ stubs) :
    C.Loaded (C.addr (.sys name)) (gensys n name).tail := by
  obtain ⟨a, rfl, ha⟩ := hC (gensys n name)
    (List.mem_append_left _ (List.mem_map.2 ⟨(n, name), h, rfl⟩))
  exact ha

theorem Installed.setjmp (hC : Installed C) : C.Loaded (C.addr .setjmp) setjmp.tail := by
  obtain ⟨a, rfl, ha⟩ := hC Mini.setjmp (by simp [routines])
  exact ha

theorem Installed.longjmp (hC : Installed C) : C.Loaded (C.addr .longjmp) longjmp.tail := by
  obtain ⟨a, rfl, ha⟩ := hC Mini.longjmp (by simp [routines])
  exact ha

theorem Installed.sleep (hC : Installed C) : C.Loaded (C.addr .sleep) sleep.tail := by
  obtain ⟨a, rfl, ha⟩ := hC Mini.sleep (by simp [routines])
  exact ha

theorem InstalledOpen.loaded {errno : Addr} (hC : InstalledOpen C errno) :
    C.Loaded (C.addr .open) (Mini.openAsm errno).tail := by
  obtain ⟨a, rfl, ha⟩ := hC.opens
  exact ha

/-! ## System calls -/

/-- What the kernel is called with by a stub. -/
def sysArgs (n : Word) (c : Core ε) : Core ε :=
  ((c.push (c.gpr r10)).set r10 (c.gpr rcx)).set rax n

/-- The stub up to its `ret`.  The kernel is entered with the number of the call and the fourth
argument in `r10`; if it leaves the two words on top of the stack alone, the stub ends with what the
kernel left, and with `r10` and the stack as they were. -/
theorem stub_run {n : Word} {c' : Core ε} (hk : K.syscall (sysArgs n c) = c')
    (hr10 : loadWord c'.mem (c.gpr rsp - 8) = c.gpr r10)
    (hret : loadWord c'.mem (c.gpr rsp) = c.top) :
    let d := run K [.push r10, .mov r10 rcx, .mov rax (.imm n), .syscall, .pop r10] c
    d.top = c.top ∧ d.mem = c'.mem ∧ d.env = c'.env ∧ d.gpr rax = c'.gpr rax ∧
      ∀ r, r ≠ rax → r ≠ rcx → r ≠ r11 → d.gpr r = c.gpr r := by
  have hrun : run K [.push r10, .mov r10 rcx, .mov rax (.imm n), .syscall, .pop r10] c
      = c'.drop.set r10 c'.top := by
    rw [← hk]
    rfl
  have hrsp : c'.gpr rsp = c.gpr rsp - 8 := by
    rw [← hk, K.kept _ _ (by decide) (by decide) (by decide)]
    rfl
  have htop : c'.top = c.gpr r10 := by rw [Core.top, hrsp, hr10]
  have hdrop : (c'.drop.set r10 c'.top).gpr rsp = c.gpr rsp := by
    show c'.gpr rsp + 8 = c.gpr rsp
    rw [hrsp, BitVec.sub_add_cancel]
  intro d
  rw [show d = c'.drop.set r10 c'.top from hrun]
  refine ⟨?_, rfl, rfl, rfl, fun r h1 h2 h3 ↦ ?_⟩
  · rw [Core.top, hdrop]
    exact hret
  · by_cases hsp : r = rsp
    · rw [hsp, hdrop]
    · rw [Core.gpr_set]
      split
      · rename_i hr
        rw [htop, hr]
      · rename_i hr
        rw [Core.drop, Core.gpr_set, if_neg hsp, ← hk, K.kept _ _ h1 h2 h3]
        simp [sysArgs, Core.push, h1, hr, hsp]

/-- **A stub**, called with a return address on the stack. -/
theorem stub_spec (hC : Installed C) {n : Word} {name : Sys} (h : (n, name) ∈ stubs) {c' : Core ε}
    (hk : K.syscall (sysArgs n c) = c')
    (hr10 : loadWord c'.mem (c.gpr rsp - 8) = c.gpr r10)
    (hret : loadWord c'.mem (c.gpr rsp) = c.top) :
    ∃ c₁, Reaches C K ⟨c, C.addr (.sys name)⟩ ⟨c₁, c.top⟩ ∧ c₁.mem = c'.mem ∧ c₁.env = c'.env ∧
      c₁.gpr rax = c'.gpr rax ∧ c₁.gpr rsp = c.gpr rsp + 8 ∧
      ∀ r, r ≠ rax → r ≠ rcx → r ≠ r11 → r ≠ rsp → c₁.gpr r = c.gpr r := by
  obtain ⟨a', hend, hops⟩ := Reaches.ops (K := K) (hC.stub h)
  obtain ⟨htop, hmem, henv, hax, hkept⟩ := stub_run hk hr10 hret
  have hlast := (hops c).trans (Reaches.ret hend _)
  rw [htop] at hlast
  refine ⟨_, hlast, hmem, henv, hax, ?_, fun r h1 h2 h3 h4 ↦ ?_⟩
  · rw [Core.drop, Core.gpr_set, if_pos rfl, hkept _ (by decide) (by decide) (by decide)]
  · rw [Core.drop, Core.gpr_set, if_neg h4, hkept r h1 h2 h3]

/-- The stub does not pass through a `ret` with another stack pointer. -/
theorem stub_avoids (hC : Installed C) {n : Word} {name : Sys} (h : (n, name) ∈ stubs)
    {c' : Core ε} (hk : K.syscall (sysArgs n c) = c')
    (hr10 : loadWord c'.mem (c.gpr rsp - 8) = c.gpr r10)
    (hret : loadWord c'.mem (c.gpr rsp) = c.top) {l : Label} {b : Addr}
    (hl : C.Loaded (C.addr l) [.instr .ret]) (hsp : c.gpr rsp ≠ b) :
    ∃ c₁, Avoids C K (AtRet C l b) ⟨c, C.addr (.sys name)⟩ ⟨c₁, c.top⟩ ∧ c₁.mem = c'.mem ∧
      c₁.gpr rax = c'.gpr rax ∧ c₁.gpr rsp = c.gpr rsp + 8 := by
  obtain ⟨a', hend, hops⟩ := Avoids.ops (K := K) (b := b) hl (hC.stub h)
  obtain ⟨htop, hmem, -, hax, hkept⟩ := stub_run hk hr10 hret
  have hrsp := hkept rsp (by decide) (by decide) (by decide)
  have hlast := (hops c).trans (Avoids.ret hend (hrsp ▸ hsp))
  rw [htop] at hlast
  refine ⟨_, hlast, hmem, hax, ?_⟩
  rw [Core.drop, Core.gpr_set, if_pos rfl, hrsp]

end Mini
