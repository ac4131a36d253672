import NctuUnix.Hw4.Wait

/-!
# The debugger's state

The globals of `hw4.cpp` and the types of `hw4.h`, with the process under the debugger (`tracee`)
as the kernel sees it.  Everything that is not in the source is a parameter, the `Host`: the
processor and the program it runs, `fork` and `execvp`, the file system, the disassembler and the
memory that `malloc` hands out.

A command is a function `Sdb ε → Except Exit (Sdb ε)`; it fails when the debugger process ends in
the middle of it.  What it prints is appended to `Sdb.log`.
-/

set_option autoImplicit false

namespace Sdb

open Bytes Trap

/-- The registers of `struct user_regs_struct` that the commands can name. -/
structure Regs where
  rax : Word
  rbx : Word
  rcx : Word
  rdx : Word
  r8 : Word
  r9 : Word
  r10 : Word
  r11 : Word
  r12 : Word
  r13 : Word
  r14 : Word
  r15 : Word
  rdi : Word
  rsi : Word
  rbp : Word
  rsp : Word
  rip : Word
  eflags : Word
  deriving DecidableEq, Repr

instance : ProgramCounter Regs where
  pc r := r.rip
  setPc r a := { r with rip := a }
  pc_setPc _ _ := rfl
  setPc_setPc _ _ _ := rfl
  setPc_pc _ := rfl

/-- The tracee between two instructions. -/
abbrev Tracee (ε : Type) := Cpu Regs ε

/-- `NONLOAD`, `LOADED` and `RUNNING`. -/
inductive RunState
  | nonload
  | loaded
  | running
  deriving DecidableEq, Repr

/-- A break point, `bp_t`. -/
structure Bp where
  id : Int
  addr : Addr
  /-- The eight bytes found at `addr` when the break point was set. -/
  origCode : Word
  deriving DecidableEq, Repr

/-- The fields of a section header that the debugger uses. -/
structure Shdr where
  shAddr : Addr
  shOffset : Word
  shSize : Word
  deriving DecidableEq, Repr

/-- `elf_t`.  The file header is kept as the bytes it is read into: a short read leaves the rest
of them as they were. -/
structure Elf where
  ehdr : Nat → Byte
  textShdr : Shdr

/-- One decoded instruction, `cs_insn`. -/
structure Insn where
  address : Addr
  bytes : List Byte
  mnemonic : String
  opStr : String
  deriving DecidableEq, Repr

/-- What the commands print. -/
inductive Msg
  /-- `** state must be RUNNING` -/
  | mustBeRunning
  /-- `** state must be LOADED` -/
  | mustBeLoaded
  /-- `** state must be NOT LOADED` -/
  | mustBeNotLoaded
  /-- `** state must be RUNNING or LOADED` -/
  | mustBeRunningOrLoaded
  /-- `** program … is already running` -/
  | alreadyRunning (path : String)
  /-- `** pid …` -/
  | started (pid : Nat)
  /-- `** no program path is given` -/
  | noProgramPath
  /-- `** Not ELF file` -/
  | notElf
  /-- `** Not 64-bits program` -/
  | not64
  /-- `** program '…' loaded. entry point 0x…` -/
  | programLoaded (path : String) (entry : Addr)
  /-- `** child process … terminiated by signal (code…)` -/
  | terminiatedBySignal (pid sig : Nat)
  /-- `** child process … terminiated normally (code …)` -/
  | terminiatedNormally (pid status : Nat)
  /-- `** breakpoint @ ` -/
  | breakpoint
  /-- `** the address is out of the range of the text segment` -/
  | outOfText
  /-- `** breakpoint … deleted.` -/
  | deleted (id : Int)
  /-- `** breakpoint … does not exist` -/
  | noBreakpoint (id : Int)
  /-- A row of `list`; `hex` is the base `cerr` is left in when the id is printed. -/
  | entry (hex : Bool) (id : Int) (addr : Addr)
  /-- `** no register is given` -/
  | noRegister
  /-- `… = … (0x…)` -/
  | register (name : String) (val : Word)
  /-- The table of `getregs`. -/
  | registers (regs : Regs)
  /-- `** no addr is given` -/
  | noAddr
  /-- A row of `dump`. -/
  | dumpRow (addr : Addr) (code1 code2 : Word)
  /-- A row of `disasm`. -/
  | insn (i : Insn)
  /-- `** can not disassemble code` -/
  | cannotDisassemble
  /-- What `vmmap` prints for one line. -/
  | mapRow (text : List Char)
  /-- The list of commands. -/
  | help
  /-- `** no address is given` -/
  | noAddress
  /-- `** no break-point-id is given` -/
  | noBreakpointId
  /-- `** Not enough input arguments` -/
  | notEnoughArguments
  deriving DecidableEq, Repr

/-- Says that the child process terminated. -/
def Msg.terminiated : Msg → Bool
  | .terminiatedBySignal _ _ => true
  | .terminiatedNormally _ _ => true
  | _ => false

/-- How the debugger process can end. -/
inductive Exit
  /-- `error(func, errno)`, that is `exit(-1)`. -/
  | error (func : String)
  /-- `quit()`, that is `exit(0)`. -/
  | quit
  /-- An access outside an object. -/
  | crash
  deriving DecidableEq, Repr

/-- A process id as `fork` returns it to the parent. -/
abbrev Pid := { n : Nat // n ≠ 0 }

/-- What `hw4.cpp` runs on. -/
structure Host (ε : Type) extends Machine Regs ε where
  /-- The id the `n`-th `fork` returns, if it succeeds. -/
  fork : Nat → Option Pid
  /-- The process image the `n`-th child starts from, if `execvp` finds one. -/
  execvp : String → Nat → Option (Tracee ε)
  /-- The contents of the files. -/
  files : String → Option (List Byte)
  /-- The lines that `getline` delivers of `/proc/<pid>/maps`; `none`: it cannot use the pointer and
  the length that `vmmap` hands to it without having set them. -/
  maps : ε → Option (List (List Char))
  /-- Whether `malloc` can provide that many bytes. -/
  malloc : Nat → Bool
  /-- What fresh memory holds, counted from the start of the block and on beyond its end. -/
  heap : Nat → Byte
  /-- What an uninitialised local holds. -/
  stack : Nat → Byte
  /-- Whether `cs_open` succeeds. -/
  csOpen : Bool
  /-- `cs_disasm`: buffer, offset of the first byte in it, length, address and count. -/
  csDisasm : List Byte → Int → Nat → Addr → Nat → List Insn

end Sdb

/-- The debugger: the globals of `hw4.cpp`, and the process behind `pid`. -/
structure Sdb (ε : Type) where
  state : Sdb.RunState
  filePath : String
  pid : Nat
  /-- The file image `getcode` read, `NULL` before the first `disasm`. -/
  code : Option (List Bytes.Byte)
  bpList : List Sdb.Bp
  elf : Sdb.Elf
  /-- The process with id `pid`, unless it has terminated. -/
  tracee : Option (Sdb.Tracee ε)
  /-- How often `fork` has been called. -/
  forks : Nat
  /-- Whether `cerr` is left in base sixteen. -/
  cerrHex : Bool
  /-- What has been printed, in order. -/
  log : List Sdb.Msg

namespace Sdb

open Bytes Trap

variable {ε : Type}

/-- The globals as the program starts with them. -/
def init : Sdb ε where
  state := .nonload
  filePath := ""
  pid := 0
  code := none
  bpList := []
  elf := { ehdr := fun _ ↦ 0, textShdr := ⟨0, 0, 0⟩ }
  tracee := none
  forks := 0
  cerrHex := false
  log := []

def print (s : Sdb ε) (m : Msg) : Sdb ε := { s with log := s.log ++ [m] }

/-- `bool intext(const unsigned long addr)`, in 64-bit arithmetic. -/
def intext (e : Elf) (addr : Addr) : Bool :=
  e.textShdr.shAddr ≤ addr && addr < e.textShdr.shAddr + e.textShdr.shSize

/-! ## The `ptrace` requests

They fail when the process is gone; the memory requests also fail when one of the eight bytes is
not mapped. -/

/-- The eight bytes at `a` are mapped. -/
def Host.wordMapped (h : Host ε) (e : ε) (a : Addr) : Bool :=
  (List.range 8).all fun k ↦ h.mapped e (a + BitVec.ofNat 64 k)

/-- `PTRACE_GETREGS`, with the whole process instead of the registers alone. -/
def getRegs (s : Sdb ε) : Except Exit (Tracee ε) :=
  match s.tracee with
  | none => .error (.error "ptrace(PTRACE_GETREGS)")
  | some c => .ok c

/-- The bits of `eflags` that `PTRACE_SETREGS` can change: `CF`, `PF`, `AF`, `ZF`, `SF`, `TF`, `DF`,
`OF`, `NT`, `RF` and `AC`. -/
def flagMask : Word := 0x54dd5

/-- What the registers `old` become when `new` is asked for. -/
def Regs.updated (old new : Regs) : Regs :=
  -- the interrupt flag, the privilege level and the reserved bits stay as they are
  { new with eflags := (old.eflags &&& ~~~flagMask) ||| (new.eflags &&& flagMask) }

/-- `PTRACE_SETREGS`. -/
def setRegs (s : Sdb ε) (r : Regs) : Except Exit (Sdb ε) :=
  match s.tracee with
  | none => .error (.error "ptrace(PTRACE_SETREGS)")
  | some c => .ok { s with tracee := some { c with regs := c.regs.updated r } }

/-- A request that leaves `eflags` alone is granted as it is. -/
theorem Regs.updated_of_eflags {old new : Regs} (he : new.eflags = old.eflags) :
    old.updated new = new := by
  have hw : old.eflags &&& ~~~flagMask ||| old.eflags &&& flagMask = old.eflags := by
    ext i
    simp only [BitVec.getElem_or, BitVec.getElem_and, BitVec.getElem_not]
    cases old.eflags[i] <;> cases flagMask[i] <;> rfl
  rw [updated, he, hw, ← he]

/-- `PTRACE_PEEKTEXT`; its result is `-1` when the request fails, and nobody looks. -/
def peekText (h : Host ε) (s : Sdb ε) (a : Addr) : Word :=
  match s.tracee with
  | none => BitVec.allOnes 64
  | some c => if h.wordMapped c.env a then loadWord c.mem a else BitVec.allOnes 64

/-- `PTRACE_POKETEXT`; `func` is the name `error` reports. -/
def pokeText (h : Host ε) (func : String) (s : Sdb ε) (a : Addr) (w : Word) :
    Except Exit (Sdb ε) :=
  match s.tracee with
  | none => .error (.error func)
  | some c =>
    if h.wordMapped c.env a then .ok { s with tracee := some { c with mem := storeWord c.mem a w } }
    else .error (.error func)

end Sdb
