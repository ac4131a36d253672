import NctuUnix.Lib.Run
import NctuUnix.Hw4.Load

/-!
# The commands

One definition for each function of `hw4.cpp`, in the order the source needs them.  The two that
let the tracee run take fuel, since nothing says that it will ever stop: `none` is a `waitpid` that
has not returned yet.  `cont` and `si` share a copied block in the source; it is `afterWait` here,
and the two search loops that differ are `contLoop` and `siLoop`.
-/

set_option autoImplicit false

namespace Sdb

open Bytes Trap

variable {ε : Type}

/-! ## Disassembly -/

/-- `int getcode()`: the file image and its size as an `int`.  A size that is negative as an `int`
makes the allocation fail. -/
def getcode (h : Host ε) (path : String) : Except Exit (List Byte) :=
  match h.files path with
  | none => .error .crash
  | some data =>
    let size := (BitVec.ofNat 32 data.length).toInt
    if size < 0 then .error .crash else .ok (data.take size.toNat)

/-- The cached file image, read at its first use. -/
def cachedCode (h : Host ε) (s : Sdb ε) : Except Exit (List Byte) :=
  match s.code with
  | some code => .ok code
  | none => getcode h s.filePath

/-- The rows of one disassembly, up to the first address outside the text. -/
def insnRows (e : Elf) : List Insn → List Msg
  | [] => []
  | i :: is => if intext e i.address then .insn i :: insnRows e is else [.outOfText]

/-- `void disasm(unsigned long dis_addr, int size)` -/
def disasm (h : Host ε) (disAddr : Addr) (size : Nat) (s : Sdb ε) : Except Exit (Sdb ε) :=
  if disAddr = 0 then .ok (s.print .noAddr)
  else if s.state ≠ .running then .ok (s.print .mustBeRunning)
  else if !intext s.elf disAddr then .ok (s.print .outOfText)
  else
    match cachedCode h s with
    | .error e => .error e
    | .ok code =>
      let offset := (s.elf.textShdr.shOffset + (disAddr - s.elf.textShdr.shAddr)).toInt
      if h.csOpen then
        let insns := h.csDisasm code offset code.length disAddr size
        let rows := if insns = [] then [Msg.cannotDisassemble] else insnRows s.elf insns
        .ok { s with code := some code, log := s.log ++ rows,
                     cerrHex := s.cerrHex || rows.any fun m ↦ m matches .insn _ }
      else .error (.error "cs_open")

/-! ## Break points -/

/-- `void bp(unsigned long bp_addr)` -/
def bp (h : Host ε) (bpAddr : Addr) (s : Sdb ε) : Except Exit (Sdb ε) :=
  if s.state ≠ .running then .ok (s.print .mustBeRunning)
  else if !intext s.elf bpAddr then .ok (s.print .outOfText)
  else
    let code := s.peekText h bpAddr
    -- already set
    if code &&& 0xff = 0xcc then .ok s
    else
      match s.pokeText h "ptrace(POKETEXT)" bpAddr (code &&& 0xffffffffffffff00 ||| 0xcc) with
      | .error e => .error e
      | .ok s =>
        -- already in the list
        if s.bpList.any fun b ↦ b.addr = bpAddr then .ok s
        else .ok { s with bpList := s.bpList ++ [⟨s.bpList.length, bpAddr, code⟩] }

/-- The loop of `chkbp`.  It walks the list by index and `bp` may extend the list, but never does
here, since the address it is called with is listed. -/
def rearm (h : Host ε) (rip : Addr) : List Bp → Sdb ε → Except Exit (Sdb ε)
  | [], s => .ok s
  | b :: bs, s =>
    if rip < b.addr then
      match bp h b.addr s with
      | .error e => .error e
      | .ok s => rearm h rip bs s
    else rearm h rip bs s

/-- `void chkbp()` -/
def chkbp (h : Host ε) (s : Sdb ε) : Except Exit (Sdb ε) :=
  match s.getRegs with
  | .error e => .error e
  | .ok c => rearm h c.regs.rip s.bpList s

/-- `bp_list.erase(bp_list.begin() + id)`, then new ids from position `i` on. -/
def eraseRenumber (l : List Bp) (id i : Nat) : List Bp :=
  (l.eraseIdx id).mapIdx fun j b ↦ if i ≤ j then { b with id := id + j - i } else b

/-- The loop of `del`, from position `i` on.  The entry is searched by its id and then the id is
the index. -/
def delLoop (h : Host ε) (id : Int) (s : Sdb ε) : List Bp → Nat → Except Exit (Sdb ε)
  | [], _ => .ok (s.print (.noBreakpoint id))
  | b :: bs, i =>
    if b.id = id then
      if id < 0 then .error .crash
      else
        match s.bpList[id.toNat]? with
        | none => .error .crash
        | some e =>
          match s.pokeText h "ptrace(PTRACE_POKETEXT)" e.addr e.origCode with
          | .error e => .error e
          | .ok s =>
            .ok ({ s with bpList := eraseRenumber s.bpList id.toNat i }.print (.deleted id))
    else delLoop h id s bs (i + 1)

/-- `void del(int id)` -/
def del (h : Host ε) (id : Int) (s : Sdb ε) : Except Exit (Sdb ε) :=
  if s.state ≠ .running then .ok (s.print .mustBeRunning)
  else delLoop h id s s.bpList 0

/-- `void list()` -/
def list (s : Sdb ε) : Sdb ε :=
  { s with
    log := s.log ++ s.bpList.mapIdx fun i b ↦ .entry (s.cerrHex || i != 0) b.id b.addr
    cerrHex := s.cerrHex || !s.bpList.isEmpty }

/-! ## Running the tracee -/

/-- The end of the child, where the status says so. -/
def reportExit (status : Nat) (s : Sdb ε) : Sdb ε :=
  if WIFEXITED status then
    let s := if WIFSIGNALED status then s.print (.terminiatedBySignal s.pid (WTERMSIG status))
      else s.print (.terminiatedNormally s.pid status)
    { s with pid := 0, state := .loaded }
  else s

/-- The loop of `cont` over `bp_list` after a `SIGTRAP`; `regs` is the local copy of the registers,
whose `rip` the loop itself moves. -/
def contLoop (h : Host ε) : List Bp → Regs → Sdb ε → Except Exit (Sdb ε)
  | [], _, s => .ok s
  | b :: bs, regs, s =>
    if b.addr = regs.rip - 1 then
      match disasm h b.addr 1 (s.print .breakpoint) with
      | .error e => .error e
      | .ok s =>
        match s.pokeText h "ptrace(PTRACE_POKETEXT)" b.addr b.origCode with
        | .error e => .error e
        | .ok s =>
          let regs := { regs with rip := regs.rip - 1 }
          match s.setRegs regs with
          | .error e => .error e
          | .ok s => contLoop h bs regs s
    else contLoop h bs regs s

/-- The block after `waitpid` that `cont` and `si` both contain; `loop` is the search through the
list after a trap, in which they differ. -/
def afterWait (loop : Tracee ε → Sdb ε → Except Exit (Sdb ε)) (ev : Event Regs ε) (s : Sdb ε) :
    Except Exit (Sdb ε) :=
  let s := reportExit (status ev) { s with tracee := ev.survivor }
  if WIFSTOPPED (status ev) then
    if WSTOPSIG (status ev) = sigtrap.val then
      match s.getRegs with
      | .error e => .error e
      | .ok c => loop c s
    else .ok (s.print (.terminiatedBySignal s.pid (WSTOPSIG (status ev))))
  else .ok s

/-- What `cont` does once `waitpid` has returned. -/
def afterCont (h : Host ε) : Event Regs ε → Sdb ε → Except Exit (Sdb ε) :=
  afterWait fun c s ↦ contLoop h s.bpList c.regs s

/-- `void cont()` -/
def cont (h : Host ε) (fuel : Nat) (s : Sdb ε) : Option (Except Exit (Sdb ε)) :=
  if s.state ≠ .running then some (.ok (s.print .mustBeRunning))
  else
    match chkbp h s with
    | .error e => some (.error e)
    | .ok s =>
      match s.tracee with
      | none => some (.error (.error "ptrace(PTRACE_CONT)"))
      | some c =>
        match h.resume fuel c with
        | none => none
        | some ev => some (afterCont h ev s)

/-- The loop of `si` over `bp_list` after a `SIGTRAP`. -/
def siLoop (h : Host ε) (regs : Regs) : List Bp → Sdb ε → Except Exit (Sdb ε)
  | [], s => .ok s
  | b :: bs, s =>
    if b.addr = regs.rip then
      match disasm h b.addr 1 (s.print .breakpoint) with
      | .error e => .error e
      | .ok s =>
        match s.pokeText h "ptrace(PTRACE_POKETEXT)" b.addr b.origCode with
        | .error e => .error e
        | .ok s => siLoop h regs bs s
    else siLoop h regs bs s

/-- What `si` does once `waitpid` has returned. -/
def afterSi (h : Host ε) : Event Regs ε → Sdb ε → Except Exit (Sdb ε) :=
  afterWait fun c s ↦ siLoop h c.regs s.bpList s

/-- `void si()` -/
def si (h : Host ε) (s : Sdb ε) : Except Exit (Sdb ε) :=
  if s.state ≠ .running then .ok (s.print .mustBeRunning)
  else
    match chkbp h s with
    | .error e => .error e
    | .ok s =>
      match s.tracee with
      | none => .error (.error "ptrace(PTRACE_SINGLESTEP)")
      | some c => afterSi h (h.singleStep c) s

/-- `void start()`.  A child whose `execvp` fails exits, and the request on it fails. -/
def start (h : Host ε) (s : Sdb ε) : Except Exit (Sdb ε) :=
  if s.state ≠ .loaded then .ok (s.print .mustBeLoaded)
  else if s.pid ≠ 0 then .ok (s.print (.alreadyRunning s.filePath))
  else
    match h.fork s.forks with
    | none => .error (.error "fork")
    | some pid =>
      match h.execvp s.filePath s.forks with
      | none => .error (.error "ptrace(PTRACE_SETOPTIONS)")
      | some c =>
        let s := { s with pid := pid.val, forks := s.forks + 1, tracee := some c }
        .ok { s.print (.started pid.val) with state := .running }

/-- `void run()` -/
def run (h : Host ε) (fuel : Nat) (s : Sdb ε) : Option (Except Exit (Sdb ε)) :=
  match s.state with
  | .running => cont h fuel s
  | .loaded =>
    match start h s with
    | .error e => some (.error e)
    | .ok s => cont h fuel s
  | .nonload => some (.ok (s.print .mustBeRunningOrLoaded))

/-! ## Registers and memory -/

/-- The register the commands call `reg`. -/
def Regs.named (r : Regs) : String → Option Word
  | "rax" => some r.rax
  | "rbx" => some r.rbx
  | "rcx" => some r.rcx
  | "rdx" => some r.rdx
  | "r8" => some r.r8
  | "r9" => some r.r9
  | "r10" => some r.r10
  | "r11" => some r.r11
  | "r12" => some r.r12
  | "r13" => some r.r13
  | "r14" => some r.r14
  | "r15" => some r.r15
  | "rdi" => some r.rdi
  | "rsi" => some r.rsi
  | "rbp" => some r.rbp
  | "rsp" => some r.rsp
  | "rip" => some r.rip
  | "flags" => some r.eflags
  | _ => none

/-- The registers with the one called `reg` set; an unknown name sets nothing. -/
def Regs.setNamed (r : Regs) (reg : String) (val : Word) : Regs :=
  match reg with
  | "rax" => { r with rax := val }
  | "rbx" => { r with rbx := val }
  | "rcx" => { r with rcx := val }
  | "rdx" => { r with rdx := val }
  | "r8" => { r with r8 := val }
  | "r9" => { r with r9 := val }
  | "r10" => { r with r10 := val }
  | "r11" => { r with r11 := val }
  | "r12" => { r with r12 := val }
  | "r13" => { r with r13 := val }
  | "r14" => { r with r14 := val }
  | "r15" => { r with r15 := val }
  | "rdi" => { r with rdi := val }
  | "rsi" => { r with rsi := val }
  | "rbp" => { r with rbp := val }
  | "rsp" => { r with rsp := val }
  | "rip" => { r with rip := val }
  | "flags" => { r with eflags := val }
  | _ => r

/-- `void get(string reg)` -/
def get (reg : String) (s : Sdb ε) : Except Exit (Sdb ε) :=
  if reg.isEmpty then .ok (s.print .noRegister)
  else if s.state ≠ .running then .ok (s.print .mustBeRunning)
  else
    match s.getRegs with
    | .error e => .error e
    | .ok c =>
      match c.regs.named reg with
      | none => .ok s
      | some val => .ok { s.print (.register reg val) with cerrHex := true }

/-- `void set(string reg, unsigned long long val)` -/
def set (reg : String) (val : Word) (s : Sdb ε) : Except Exit (Sdb ε) :=
  if s.state ≠ .running then .ok (s.print .mustBeRunning)
  else
    match s.getRegs with
    | .error e => .error e
    | .ok c => s.setRegs (c.regs.setNamed reg val)

/-- `void getregs()` -/
def getregs (s : Sdb ε) : Except Exit (Sdb ε) :=
  if s.state ≠ .running then .ok (s.print .mustBeRunning)
  else
    match s.getRegs with
    | .error e => .error e
    | .ok c => .ok { s.print (.registers c.regs) with cerrHex := true }

/-- The rows of `dump`, `n` of them from `a` on. -/
def dumpRows (h : Host ε) (s : Sdb ε) : Nat → Addr → List Msg
  | 0, _ => []
  | n + 1, a => .dumpRow a (s.peekText h a) (s.peekText h (a + 8)) :: dumpRows h s n (a + 16)

/-- `void dump(unsigned long dump_addr)` -/
def dump (h : Host ε) (dumpAddr : Addr) (s : Sdb ε) : Sdb ε :=
  if dumpAddr = 0 then s.print .noAddr
  else if s.state ≠ .running then s.print .mustBeRunning
  else if !intext s.elf dumpAddr then s.print .outOfText
  else { s with log := s.log ++ dumpRows h s 5 dumpAddr, cerrHex := true }

/-! ## The memory map -/

/-- One call of `strtok` on the rest of the buffer: the token and the new rest. -/
def strtok (delim : List Char) (rest : List Char) : Option (List Char × List Char) :=
  match rest.dropWhile delim.contains with
  | [] => none
  | c :: cs =>
    let token := (c :: cs).takeWhile fun d ↦ !delim.contains d
    some (token, (c :: cs).drop (token.length + 1))

/-- The rest of the buffer after a call of `strtok`. -/
def strtokRest (t : Option (List Char × List Char)) : List Char := (t.map Prod.snd).getD []

/-- `setw(n) << setfill(c) << right`. -/
def padLeft (n : Nat) (c : Char) (t : List Char) : List Char :=
  List.replicate (n - t.length) c ++ t

/-- `setw(n) << left` with blanks. -/
def padRight (n : Nat) (t : List Char) : List Char := t ++ List.replicate (n - t.length) ' '

/-- What `vmmap` prints for one line of the map. -/
def vmmapRow (line : List Char) : List Char :=
  let t1 := strtok ['-'] line
  let t2 := strtok [' '] (strtokRest t1)
  let t3 := strtok [' ', 'p'] (strtokRest t2)
  let t4 := strtok [' '] (strtokRest t3)
  let t5 := strtok [' '] (strtokRest t4)
  let t6 := strtok [' '] (strtokRest t5)
  let t7 := strtok [' '] (strtokRest t6)
  let put := fun (t : Option (List Char × List Char)) (show' : List Char → List Char) ↦
    (t.map fun p ↦ show' p.1).getD []
  put t1 (fun t ↦ padLeft 16 '0' t ++ ['-']) ++ put t2 (fun t ↦ padLeft 16 '0' t ++ [' ']) ++
    put t3 (fun t ↦ t ++ [' ']) ++ put t6 (padRight 9) ++ put t7 id

/-- `void vmmap()` -/
def vmmap (h : Host ε) (s : Sdb ε) : Except Exit (Sdb ε) :=
  if s.state ≠ .running then .ok (s.print .mustBeRunning)
  else
    match s.tracee with
    | none => .error (.error "fopen")
    | some c =>
      match h.maps c.env with
      | none => .error .crash
      | some lines => .ok { s with log := s.log ++ lines.map fun l ↦ .mapRow (vmmapRow l) }

/-! ## Dispatch -/

/-- A command line, as `main` understands it. -/
inductive Command
  | break (addr : Addr)
  | cont
  | delete (id : Int)
  | disasm (addr : Addr)
  | dump (addr : Addr)
  | exit
  | get (reg : String)
  | getregs
  | help
  | list
  | load (path : String)
  | run
  | vmmap
  | set (reg : String) (val : Word)
  | si
  | start
  /-- `break` alone. -/
  | noAddress
  /-- `delete` alone. -/
  | noBreakpointId
  /-- `set` without a value. -/
  | notEnoughArguments
  /-- A command line that does nothing. -/
  | nothing
  deriving DecidableEq, Repr

/-- The branch of `main` for a command. -/
def exec (h : Host ε) (fuel : Nat) (cmd : Command) (s : Sdb ε) : Option (Except Exit (Sdb ε)) :=
  match cmd with
  | .break addr => some (bp h addr s)
  | .cont => cont h fuel s
  | .delete id => some (del h id s)
  | .disasm addr => some (disasm h addr 10 s)
  | .dump addr => some (.ok (dump h addr s))
  | .exit => some (.error .quit)
  | .get reg => some (get reg s)
  | .getregs => some (getregs s)
  | .help => some (.ok (s.print .help))
  | .list => some (.ok (list s))
  | .load path => some (load h path s)
  | .run => run h fuel s
  | .vmmap => some (vmmap h s)
  | .set reg val => some (set reg val s)
  | .si => some (si h s)
  | .start => some (start h s)
  | .noAddress => some (.ok (s.print .noAddress))
  | .noBreakpointId => some (.ok (s.print .noBreakpointId))
  | .notEnoughArguments => some (.ok (s.print .notEnoughArguments))
  | .nothing => some (.ok s)

/-- The command returns, and the debugger is then in state `s'`. -/
def Does (h : Host ε) (s : Sdb ε) (cmd : Command) (s' : Sdb ε) : Prop :=
  ∃ fuel, exec h fuel cmd s = some (.ok s')

/-- A state the debugger gets to, by commands that are issued where `ok` allows them. -/
abbrev Session (h : Host ε) (ok : Sdb ε → Command → Prop) : Sdb ε → Prop :=
  Transition.Run (Does h) ok init

/-- A state the debugger can get to. -/
abbrev Reachable (h : Host ε) : Sdb ε → Prop := Session h fun _ _ ↦ True

/-- Some commands in a row; `none` when one of them ends the debugger or does not return. -/
def script (h : Host ε) (fuel : Nat) : List Command → Sdb ε → Option (Sdb ε)
  | [], s => some s
  | cmd :: cmds, s =>
    match exec h fuel cmd s with
    | some (.ok s') => script h fuel cmds s'
    | _ => none

/-- A script of one command. -/
theorem does_of_script {h : Host ε} {s s' : Sdb ε} {fuel : Nat} {cmd : Command}
    (hs : script h fuel [cmd] s = some s') : Does h s cmd s' := by
  rw [script] at hs
  split at hs
  · rename_i s₁ hexec
    obtain rfl : s₁ = s' := Option.some.inj hs
    exact ⟨fuel, hexec⟩
  · cases hs

/-- A script that gets through is a session. -/
theorem script_session {h : Host ε} {ok : Command → Prop} {fuel : Nat} {cmds : List Command}
    {s s' : Sdb ε} (hr : Session h (fun _ cmd ↦ ok cmd) s) (hok : ∀ cmd ∈ cmds, ok cmd)
    (hs : script h fuel cmds s = some s') : Session h (fun _ cmd ↦ ok cmd) s' := by
  induction cmds generalizing s with
  | nil => cases hs; exact hr
  | cons cmd cmds ih =>
    rw [script] at hs
    split at hs
    · rename_i s₁ hexec
      exact ih (hr.snoc (hok cmd List.mem_cons_self) ⟨fuel, hexec⟩)
        (fun cmd' hm ↦ hok cmd' (List.mem_cons_of_mem cmd hm)) hs
    · cases hs

/-- What a script shows of its last state is true of a state its commands reach. -/
theorem script_reaches (h : Host ε) (ok : Command → Prop) (fuel : Nat) (cmds : List Command)
    (p : Sdb ε → Bool) (hok : ∀ cmd ∈ cmds, ok cmd)
    (hp : (script h fuel cmds init).any p = true) :
    ∃ s, Session h (fun _ cmd ↦ ok cmd) s ∧ p s = true := by
  rcases hs : script h fuel cmds init with _ | s
  · rw [hs] at hp
    cases hp
  · exact ⟨s, script_session .nil hok hs, by simpa [hs] using hp⟩

end Sdb
