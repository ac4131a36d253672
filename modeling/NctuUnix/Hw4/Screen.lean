import NctuUnix.Lib.OStream
import NctuUnix.Hw4.Ids
import NctuUnix.Hw4.Vmmap

/-!
# The screen

The commands print to `cout` and to `cerr`, and set the base, the side and the padding of these
streams as they go.  A stream keeps what was set, so what a row looks like could depend on every
command before it.  `Msg.items` is what the source puts into a stream for a message, manipulators
included, and `Msg.text` what is meant to be seen.

## Main results

* `reachable_fits` — the base of `cerr` is the one the state keeps track of, and `cout` is in base
  ten whenever there is a process.
* `screen_eq` — in every session the screen shows the texts that are meant.
* `dump_readBack` — the rows of `dump`, whatever has been printed before, read as the memory.
-/

set_option autoImplicit false

namespace Sdb

open Bytes Trap Input Output ProcMaps

/-! ## What is put into the streams

The manipulators are items like the texts.  What the source leaves out is left out here too: a
message with a number in it and no `dec` or `hex` in front shows that number in the base it finds.
-/

/-- The two streams. -/
inductive Stream
  | cout
  | cerr
  deriving DecidableEq, Repr

/-- The stream a message goes to. -/
def Msg.stream : Msg → Stream
  | .alreadyRunning _ | .entry _ _ _ | .register _ _ | .registers _ | .dumpRow _ _ _ | .insn _
  | .mapRow _ | .help => .cerr
  | _ => .cout

/-- `void print8bytes(unsigned long code)` -/
def print8bytes (code : Word) : List Item :=
  ((List.range 8).flatMap fun i ↦
    [.hex, .setw 2, .setfill '0', .int (byteOf code i).toNat, .text [' ']]) ++ [.setfill ' ']

/-- `isprint` in the `C` locale, for a `char`, which is signed. -/
def isPrint (b : Byte) : Bool := 32 ≤ b.toNat && b.toNat < 127

/-- `void print8ascii(unsigned long code)` -/
def print8ascii (code : Word) : List Item :=
  (List.range 8).map fun i ↦
    .text [if isPrint (byteOf code i) then Char.ofNat (byteOf code i).toNat else '.']

/-- A register in the table of `getregs`, with what stands behind it. -/
def cell (name : String) (val : Word) (sep : Char) : List Item :=
  [.left, .setw 7, .text name.toList, .left, .setw 10, .num val, .text [sep]]

/-- The rows of the table of `getregs`, but for the flags. -/
def regsCells (regs : Regs) : List (String × Word × Char) :=
  [("RAX ", regs.rax, '\t'), ("RBX ", regs.rbx, '\t'), ("RCX ", regs.rcx, '\t'),
    ("RDX ", regs.rdx, '\n'), ("R8 ", regs.r8, '\t'), ("R9 ", regs.r9, '\t'),
    ("R10 ", regs.r10, '\t'), ("R11 ", regs.r11, '\n'), ("R12 ", regs.r12, '\t'),
    ("R13 ", regs.r13, '\t'), ("R14 ", regs.r14, '\t'), ("R15 ", regs.r15, '\n'),
    ("RDI ", regs.rdi, '\t'), ("RSI ", regs.rsi, '\t'), ("RBP ", regs.rbp, '\t'),
    ("RSP ", regs.rsp, '\n'), ("RIP ", regs.rip, '\t')]

/-- The table of `getregs`. -/
def regsItems (regs : Regs) : List Item :=
  [.hex] ++ (regsCells regs).flatMap (fun c ↦ cell c.1 c.2.1 c.2.2) ++
    [.left, .setw 7, .text "FLAGS ".toList, .left, .setw 16, .setfill '0', .right,
      .num regs.eflags, .text ['\n'], .setfill ' ']

/-- The bytes of an instruction, each as `%2.2x ` prints it. -/
def bits (bytes : List Byte) : Text := bytes.flatMap fun b ↦ hexText 2 b.toNat ++ [' ']

/-- What `help` prints. -/
def helpText : Text := String.toList <|
  "- break \x7binstruction-address\x7d: add a break point\n" ++
  "- cont: continue execution\n" ++
  "- delete \x7bbreak-point-id\x7d: remove a break point\n" ++
  "- disasm addr: disassemble instructions in a file or a memory region\n" ++
  "- dump addr: dump memory content\n" ++
  "- exit: terminate the debugger\n" ++
  "- get reg: get a single value from a register\n" ++
  "- getregs: show registers\n" ++
  "- help: show this message\n" ++
  "- list: list break points\n" ++
  "- load \x7bpath/to/a/program\x7d: load a program\n" ++
  "- run: run the program\n" ++
  "- vmmap: show memory layout\n" ++
  "- set reg val: get a single value to a register\n" ++
  "- si: step into instruction\n" ++
  "- start: start the program and stop at the first instruction\n"

/-- The messages that are always the same. -/
def Msg.plain : Msg → Text
  | .mustBeRunning => "** state must be RUNNING\n".toList
  | .mustBeLoaded => "** state must be LOADED\n".toList
  | .mustBeNotLoaded => "** state must be NOT LOADED\n".toList
  | .mustBeRunningOrLoaded => "** state must be RUNNING or LOADED\n".toList
  | .noProgramPath => "** no program path is given\n".toList
  | .notElf => "** Not ELF file\n".toList
  | .not64 => "** Not 64-bits program\n".toList
  | .breakpoint => "** breakpoint @ ".toList
  | .outOfText => "** the address is out of the range of the text segment\n".toList
  | .noRegister => "** no register is given\n".toList
  | .noAddr => "** no addr is given\n".toList
  | .cannotDisassemble => "** can not disassemble code\n".toList
  | .help => helpText
  | .noAddress => "** no address is given\n".toList
  | .noBreakpointId => "** no break-point-id is given\n".toList
  | .notEnoughArguments => "** Not enough input arguments\n".toList
  | _ => []

/-- What is put into the stream for a message.  A row of the map is put as `vmmapItems` says, of
which only the text and the side are left here. -/
def Msg.items : Msg → List Item
  | .alreadyRunning path =>
    [.text "** program ".toList, .text path.toList, .text " is already running\n".toList]
  | .started pid => [.text "** pid ".toList, .dec, .int pid, .text ['\n']]
  | .programLoaded path start =>
    [.text "** program '".toList, .text path.toList, .text "' loaded. entry point 0x".toList, .hex,
      .num start, .text ['\n']]
  | .terminiatedBySignal pid sig =>
    [.text "** child process ".toList, .int pid, .text " terminiated by signal (code".toList,
      .int sig, .text ")\n".toList]
  | .terminiatedNormally pid status =>
    [.text "** child process ".toList, .int pid, .text " terminiated normally (code ".toList,
      .int status, .text ")\n".toList]
  | .deleted id => [.text "** breakpoint ".toList, .int id, .text " deleted.\n".toList]
  | .noBreakpoint id => [.text "** breakpoint ".toList, .int id, .text " does not exist\n".toList]
  | .entry _ id addr =>
    [.text "  ".toList, .int id, .text ": ".toList, .hex, .num addr, .text ['\n']]
  | .register reg val =>
    [.text reg.toList, .text " = ".toList, .dec, .num val, .text " (0x".toList, .hex, .num val,
      .text ")\n".toList]
  | .registers regs => regsItems regs
  | .dumpRow dumpAddr code1 code2 =>
    [.hex, .setw 12, .setfill ' ', .right, .num dumpAddr, .text ": ".toList] ++
      print8bytes code1 ++ print8bytes code2 ++ [.text ['|']] ++
      print8ascii code1 ++ print8ascii code2 ++ [.text "|\n".toList]
  | .insn i =>
    [.hex, .right, .setw 12, .num i.address, .text ":  ".toList, .left, .setw 32,
      .text (bits i.bytes), .left, .setw 7, .text i.mnemonic.toList, .left, .setw 7,
      .text i.opStr.toList, .text ['\n']]
  | .mapRow text => [.left, .text text]
  | m => [.text m.plain]

/-- What `vmmap` puts into `cerr` for one line of the map. -/
def vmmapItems (line : Text) : List Item :=
  let t1 := strtok ['-'] line
  let t2 := strtok [' '] (strtokRest t1)
  let t3 := strtok [' ', 'p'] (strtokRest t2)
  let t4 := strtok [' '] (strtokRest t3)
  let t5 := strtok [' '] (strtokRest t4)
  let t6 := strtok [' '] (strtokRest t5)
  let t7 := strtok [' '] (strtokRest t6)
  let put := fun (t : Option (Text × Text)) (items : Text → List Item) ↦
    (t.map fun p ↦ items p.1).getD []
  put t1 (fun t ↦ [.setw 16, .setfill '0', .right, .text t, .text ['-']]) ++
    put t2 (fun t ↦ [.setw 16, .setfill '0', .right, .text t, .text [' ']]) ++
    put t3 (fun t ↦ [.setfill ' ', .text t, .text [' ']]) ++
    put t6 (fun t ↦ [.setw 9, .left, .text t]) ++ put t7 (fun t ↦ [.text t])

/-- The source puts `is` into a stream where it prints `m`; a row of the map is printed for a line
of the format of the kernel. -/
def Msg.PutAs (m : Msg) (is : List Item) : Prop :=
  match m with
  | .mapRow text => ∃ e : Entry, text = vmmapRow e.line ∧ is = vmmapItems e.line
  | m => is = m.items

/-! ## What is meant to be seen

Texts, with no stream in sight.  Only the base of the first row of `list` is an argument: the source
never sets it, so what is meant there is what the state keeps track of.
-/

/-- A number in base sixteen. -/
def hexDigits (n : Word) : Text := Nat.toDigits 16 n.toNat

/-- A number in base ten. -/
def decDigits (i : ℤ) : Text := (toString i).toList

/-- A register in the table of `getregs`. -/
def cellText (name : String) (val : Word) (sep : Char) : Text :=
  padRight 7 name.toList ++ padRight 10 (hexDigits val) ++ [sep]

/-- The table of `getregs`. -/
def regsText (regs : Regs) : Text :=
  (regsCells regs).flatMap (fun c ↦ cellText c.1 c.2.1 c.2.2) ++
    padRight 7 "FLAGS ".toList ++ hexText 16 regs.eflags.toNat ++ ['\n']

/-- The eight bytes of a word, in the order of their addresses. -/
def bytesOf (w : Word) : List Byte := (List.range 8).map (byteOf w)

/-- A byte as a character, or a dot. -/
def asciiChar (b : Byte) : Char := if isPrint b then Char.ofNat b.toNat else '.'

/-- A row of `dump`. -/
def dumpText (addr : Addr) (code1 code2 : Word) : Text :=
  padLeft 12 ' ' (hexDigits addr) ++ ": ".toList ++ bits (bytesOf code1 ++ bytesOf code2) ++
    '|' :: ((bytesOf code1 ++ bytesOf code2).map asciiChar ++ "|\n".toList)

/-- A row of `disasm`. -/
def insnText (i : Insn) : Text :=
  padLeft 12 ' ' (hexDigits i.address) ++ ":  ".toList ++ padRight 32 (bits i.bytes) ++
    padRight 7 i.mnemonic.toList ++ padRight 7 i.opStr.toList ++ ['\n']

/-- The text of a message. -/
def Msg.text : Msg → Text
  | .alreadyRunning path => "** program ".toList ++ path.toList ++ " is already running\n".toList
  | .started pid => "** pid ".toList ++ decDigits pid ++ ['\n']
  | .programLoaded path start => "** program '".toList ++ path.toList ++
      "' loaded. entry point 0x".toList ++ hexDigits start ++ ['\n']
  | .terminiatedBySignal pid sig => "** child process ".toList ++ decDigits pid ++
      " terminiated by signal (code".toList ++ decDigits sig ++ ")\n".toList
  | .terminiatedNormally pid status => "** child process ".toList ++ decDigits pid ++
      " terminiated normally (code ".toList ++ decDigits status ++ ")\n".toList
  | .deleted id => "** breakpoint ".toList ++ decDigits id ++ " deleted.\n".toList
  | .noBreakpoint id => "** breakpoint ".toList ++ decDigits id ++ " does not exist\n".toList
  | .entry hex id addr => "  ".toList ++ idText hex id ++ ": ".toList ++ hexDigits addr ++ ['\n']
  | .register reg val => reg.toList ++ " = ".toList ++ Nat.toDigits 10 val.toNat ++
      " (0x".toList ++ hexDigits val ++ ")\n".toList
  | .registers regs => regsText regs
  | .dumpRow addr code1 code2 => dumpText addr code1 code2
  | .insn i => insnText i
  | .mapRow text => text
  | m => m.plain

/-! ## One message

Between two messages nothing is pending and the padding is a blank (`Format.Clean`); the side is of
no account, because whatever is padded sets it first.  That leaves the base, which a message may
need (`Msg.Needs`) and may leave changed (`Msg.leaves`).
-/

/-- The base a message leaves its stream in. -/
def Msg.leaves (m : Msg) (hex : Bool) : Bool :=
  match m with
  | .programLoaded _ _ | .entry _ _ _ | .register _ _ | .registers _ | .dumpRow _ _ _ | .insn _ =>
    true
  | .started _ => false
  | _ => hex

/-- The base a message has to find its stream in. -/
def Msg.Needs (m : Msg) (hex : Bool) : Prop :=
  match m with
  | .terminiatedBySignal _ _ | .terminiatedNormally _ _ | .deleted _ | .noBreakpoint _ =>
    hex = false
  | .entry hex' _ _ => hex = hex'
  | .mapRow text => ∃ e : Entry, text = vmmapRow e.line
  | _ => True

variable {f f' : Format} {m : Msg} {is : List Item}

theorem clean_mk (hex left : Bool) : (⟨hex, left, ' ', 0⟩ : Format).Clean := ⟨rfl, rfl⟩

/-- Numbers that fit in a byte are not negative as an `int`. -/
theorem int_byte (b : Byte) : (BitVec.ofInt 32 (b.toNat : ℤ)).toNat = b.toNat := by
  rw [BitVec.toNat_ofInt]
  omega

/-- A byte in two digits. -/
theorem output_byte (code : Word) (i : ℕ) (hex : Bool) (c : Char) :
    output [.hex, .setw 2, .setfill '0', .int (byteOf code i).toNat, .text [' ']]
      ⟨hex, false, c, 0⟩ = (⟨true, false, '0', 0⟩, hexText 2 (byteOf code i).toNat ++ [' ']) := by
  simp only [output_cons, Item.put, pad_zero, int_byte, hexText, pad_right, output_nil, if_true,
    List.nil_append, List.append_nil]

/-- Some bytes of a word, after each of which the padding is left as it is. -/
theorem output_bytes (code : Word) (l : List ℕ) (c : Char) : ∃ c',
    output (l.flatMap fun i ↦
      [.hex, .setw 2, .setfill '0', .int (byteOf code i).toNat, .text [' ']])
      ⟨true, false, c, 0⟩ = (⟨true, false, c', 0⟩, bits (l.map (byteOf code))) := by
  induction l generalizing c with
  | nil => exact ⟨c, rfl⟩
  | cons i l ih =>
    obtain ⟨c', hl⟩ := ih '0'
    refine ⟨c', ?_⟩
    rw [List.flatMap_cons, output_append_of (output_byte code i true c) hl, List.map_cons, bits,
      bits, List.flatMap_cons]

/-- The eight bytes of a word, after which the padding is a blank again. -/
theorem output_print8bytes (code : Word) (c : Char) :
    output (print8bytes code) ⟨true, false, c, 0⟩ =
      (⟨true, false, ' ', 0⟩, bits (bytesOf code)) := by
  obtain ⟨c', hl⟩ := output_bytes code (List.range 8) c
  have hfill : output [.setfill ' '] ⟨true, false, c', 0⟩ = (⟨true, false, ' ', 0⟩, []) := rfl
  rw [print8bytes, output_append_of hl hfill, List.append_nil, bytesOf]

/-- Texts alone change nothing in the stream. -/
theorem output_texts (ts : List Text) (hex left : Bool) (c : Char) :
    output (ts.map .text) ⟨hex, left, c, 0⟩ = (⟨hex, left, c, 0⟩, ts.flatten) := by
  induction ts with
  | nil => rfl
  | cons t ts ih =>
    simp only [List.map_cons, output_cons, Item.put, pad_zero, ih, List.flatten_cons]

/-- The characters of a word. -/
theorem output_print8ascii (code : Word) (hex left : Bool) (c : Char) :
    output (print8ascii code) ⟨hex, left, c, 0⟩ =
      (⟨hex, left, c, 0⟩, (bytesOf code).map asciiChar) := by
  have hitems : print8ascii code = ((bytesOf code).map fun b ↦ [asciiChar b]).map .text := by
    rw [print8ascii, bytesOf, List.map_map, List.map_map]
    rfl
  rw [hitems, output_texts, ← List.flatMap_def, ← List.map_eq_flatMap]

/-- **A row of `dump`** sets everything it depends on, but for the width. -/
theorem output_dumpRow (a : Addr) (code1 code2 : Word) (hf : f.width = 0) :
    output (Msg.dumpRow a code1 code2).items f =
      (⟨true, false, ' ', 0⟩, dumpText a code1 code2) := by
  obtain ⟨hex, left, c, w⟩ := f
  obtain rfl : w = 0 := hf
  have hhead : output [.hex, .setw 12, .setfill ' ', .right, .num a, .text ": ".toList]
      ⟨hex, left, c, 0⟩ =
      (⟨true, false, ' ', 0⟩, padLeft 12 ' ' (hexDigits a) ++ ": ".toList) := by
    simp only [output_cons, Item.put, pad_zero, pad_right, output_nil, if_true, List.nil_append,
      List.append_nil, padLeft, hexDigits]
  have hend (t : Text) : output [.text t] ⟨true, false, ' ', 0⟩ = (⟨true, false, ' ', 0⟩, t) := by
    simp only [output_cons, Item.put, pad_zero, output_nil, List.append_nil]
  rw [Msg.items, dumpText]
  simp only [output_append, hhead, output_print8bytes, hend, output_print8ascii]
  simp only [bits, List.flatMap_append, List.map_append, List.append_assoc, List.cons_append,
    List.nil_append]

/-- A cell of the table. -/
theorem output_cell (name : String) (val : Word) (sep : Char) (left : Bool) :
    output (cell name val sep) ⟨true, left, ' ', 0⟩ =
      (⟨true, true, ' ', 0⟩, cellText name val sep) := by
  simp only [cell, cellText, output_cons, Item.put, pad_zero, pad_left, output_nil, if_true,
    List.nil_append, List.append_nil, padRight, hexDigits, List.append_assoc]

/-- Cells in a row.  The side they leave depends on whether there is one, and nobody looks at it. -/
theorem output_cells (cells : List (String × Word × Char)) (left : Bool) : ∃ left',
    output (cells.flatMap fun c ↦ cell c.1 c.2.1 c.2.2) ⟨true, left, ' ', 0⟩ =
      (⟨true, left', ' ', 0⟩, cells.flatMap fun c ↦ cellText c.1 c.2.1 c.2.2) := by
  induction cells generalizing left with
  | nil => exact ⟨left, rfl⟩
  | cons c cells ih =>
    obtain ⟨left', hl⟩ := ih true
    exact ⟨left', output_append_of (output_cell c.1 c.2.1 c.2.2 left) hl⟩

/-- **The table of `getregs`**, which sets the padding for the flags and takes it back. -/
theorem output_regs (regs : Regs) (hex left : Bool) :
    output (regsItems regs) ⟨hex, left, ' ', 0⟩ = (⟨true, false, ' ', 0⟩, regsText regs) := by
  obtain ⟨left', hcells⟩ := output_cells (regsCells regs) left
  have hhex : output [.hex] ⟨hex, left, ' ', 0⟩ = (⟨true, left, ' ', 0⟩, []) := rfl
  have hflags : output [.left, .setw 7, .text "FLAGS ".toList, .left, .setw 16, .setfill '0',
      .right, .num regs.eflags, .text ['\n'], .setfill ' '] ⟨true, left', ' ', 0⟩ =
      (⟨true, false, ' ', 0⟩,
        padRight 7 "FLAGS ".toList ++ hexText 16 regs.eflags.toNat ++ ['\n']) := by
    simp only [output_cons, Item.put, pad_zero, pad_left, pad_right, output_nil, if_true,
      List.nil_append, List.append_nil, padRight, hexText, List.append_assoc]
  rw [regsItems, output_append_of (output_append_of hhex hcells) hflags, regsText]
  simp only [List.nil_append, List.append_assoc]

/-- **A row of `disasm`**. -/
theorem output_insn (i : Insn) (hex left : Bool) :
    output (Msg.insn i).items ⟨hex, left, ' ', 0⟩ = (⟨true, true, ' ', 0⟩, insnText i) := by
  simp only [Msg.items, output_cons, Item.put, pad_zero, pad_left, pad_right, output_nil, insnText,
    if_true, padLeft, padRight, hexDigits, List.nil_append, List.append_nil, List.append_assoc]

/-- The token that holds the permissions. -/
theorem permsToken (e : Entry) : ∃ t, strtok [' ', 'p'] (strtokRest (strtok [' ']
    (strtokRest (strtok ['-'] e.line)))) = some t := by
  have hdash : ∀ c ∈ hexText 8 e.start.toNat, c ∉ ['-'] := fun c hc ↦ by
    simpa using (hexText_plain hc).2.1
  have hblank {w n : ℕ} : ∀ c ∈ hexText w n, c ∉ [' '] := fun c hc ↦ by
    simpa using (hexText_plain hc).1
  have hstop {l : Text} : strtok [' '] (hexText 8 e.stop.toNat ++ ' ' :: l) =
      some (hexText 8 e.stop.toNat, l) := strtok_between hexText_ne_nil hblank List.mem_cons_self
  have hoffset : hexText 8 e.offset.toNat ≠ [] := hexText_ne_nil
  obtain ⟨rest, hperms, -⟩ := strtok_perms e (e.dev ++ ' ' :: (Nat.toDigits 10 e.inode ++ ' ' ::
    (List.replicate e.gap ' ' ++ (e.path ++ ['\n'])))) hoffset hblank
  have hrest {t l : Text} : strtokRest (some (t, l)) = l := rfl
  rw [Entry.line, strtok_between hexText_ne_nil hdash List.mem_cons_self, hrest, hstop, hrest,
    hperms]
  exact ⟨_, rfl⟩

/-- One row of the map: the padding is reset with the permissions. -/
theorem output_vmmap (e : Entry) (hex left : Bool) : ∃ left',
    output (vmmapItems e.line) ⟨hex, left, ' ', 0⟩ =
      (⟨hex, left', ' ', 0⟩, vmmapRow e.line) := by
  obtain ⟨t3, h3⟩ := permsToken e
  rw [vmmapItems, vmmapRow]
  simp only [h3, Option.map_some, Option.getD_some]
  generalize strtok ['-'] e.line = t1
  generalize strtok [' '] (strtokRest t1) = t2
  generalize strtok [' '] (strtokRest (some t3)) = t4
  generalize strtok [' '] (strtokRest (strtok [' '] (strtokRest t4))) = t6
  generalize strtok [' '] (strtokRest t6) = t7
  -- the inode sets the side, and nothing in the row depends on it before
  have hend : ∀ hex left, ∃ left', output
      ((t6.map fun p ↦ [.setw 9, .left, .text p.1]).getD [] ++
        (t7.map fun p ↦ [.text p.1]).getD []) ⟨hex, left, ' ', 0⟩ = (⟨hex, left', ' ', 0⟩,
        (t6.map fun p ↦ padRight 9 p.1).getD [] ++ (t7.map fun p ↦ p.1).getD []) := by
    intro hex left
    refine ⟨t6.isSome || left, ?_⟩
    rcases t6 with _ | t6 <;> rcases t7 with _ | t7 <;>
      simp only [Option.map_some, Option.map_none, Option.getD_some, Option.getD_none,
        Option.isSome_some, Option.isSome_none, Bool.true_or, Bool.false_or, List.cons_append,
        List.nil_append, output_cons, output_nil, Item.put, pad_zero, pad_left, padRight,
        List.append_nil]
  -- an address sets the padding to zeros and leaves it there
  have haddr : ∀ (t : Option (Text × Text)) (sep c : Char) (hex left : Bool), ∃ left' c', output
      ((t.map fun p ↦ [.setw 16, .setfill '0', .right, .text p.1, .text [sep]]).getD [])
      ⟨hex, left, c, 0⟩ = (⟨hex, left', c', 0⟩,
        (t.map fun p ↦ padLeft 16 '0' p.1 ++ [sep]).getD []) := by
    intro t sep c hex left
    refine ⟨t.isNone && left, if t.isSome then '0' else c, ?_⟩
    rcases t with _ | t <;>
      simp only [Option.map_some, Option.map_none, Option.getD_some, Option.getD_none,
        Option.isSome_some, Option.isSome_none, Option.isNone_some, Option.isNone_none,
        Bool.true_and, Bool.false_and, if_true, Bool.false_eq_true, if_false, output_cons,
        output_nil, Item.put, pad_zero, pad_right, padLeft, List.append_nil, List.nil_append]
  obtain ⟨left₁, c₁, h₁⟩ := haddr t1 '-' ' ' hex left
  obtain ⟨left₂, c₂, h₂⟩ := haddr t2 ' ' c₁ hex left₁
  obtain ⟨left₃, hrest⟩ := hend hex left₂
  have hperms : output [.setfill ' ', .text t3.1, .text [' ']] ⟨hex, left₂, c₂, 0⟩ =
      (⟨hex, left₂, ' ', 0⟩, t3.1 ++ [' ']) := by
    simp only [output_cons, output_nil, Item.put, pad_zero, List.append_nil, List.nil_append]
  refine ⟨left₃, ?_⟩
  have hrow := output_append_of (output_append_of (output_append_of h₁ h₂) hperms) hrest
  simp only [List.append_assoc] at hrow ⊢
  exact hrow

/-- **One message** is seen as it is meant, wherever its base is the one it needs. -/
theorem output_msg (hf : f.Clean) (hn : m.Needs f.hex) (hp : m.PutAs is) :
    ∃ left, output is f = (⟨m.leaves f.hex, left, ' ', 0⟩, m.text) := by
  obtain ⟨hex, left, c, w⟩ := f
  obtain ⟨rfl, rfl⟩ : c = ' ' ∧ w = 0 := ⟨hf.fill, hf.width⟩
  have hplain (t : Text) : output [.text t] ⟨hex, left, ' ', 0⟩ = (⟨hex, left, ' ', 0⟩, t) := by
    simp only [output_cons, Item.put, pad_zero, output_nil, List.append_nil]
  cases m
  case mapRow text =>
    obtain ⟨e, rfl, rfl⟩ := hp
    exact output_vmmap e hex left
  all_goals cases hp; cases hn
  case registers regs => exact ⟨false, output_regs regs hex left⟩
  case dumpRow a code1 code2 => exact ⟨false, output_dumpRow a code1 code2 rfl⟩
  case insn i => exact ⟨true, output_insn i hex left⟩
  case alreadyRunning | started | programLoaded | terminiatedBySignal | terminiatedNormally |
      deleted | noBreakpoint | entry | register =>
    -- nothing is padded
    refine ⟨left, ?_⟩
    simp only [Msg.items, output_cons, Item.put, pad_zero, output_nil]
    simp only [← List.append_assoc, List.append_nil]
    rfl
  -- what is left is a constant text
  all_goals exact ⟨left, hplain _⟩

/-! ## Messages in a row

The two streams keep their bases apart, so what is carried from message to message is a base for
each of them.
-/

/-- The bases the streams are in; `true` is base sixteen. -/
abbrev Bases := Stream → Bool

variable {ms ms' : List Msg} {b b' b'' : Bases}

/-- The bases after a message. -/
def Msg.after (m : Msg) (b : Bases) : Bases := Function.update b m.stream (m.leaves (b m.stream))

/-- What goes to `cout` leaves `cerr` alone. -/
theorem after_cerr (hm : m.stream = .cout) : m.after b .cerr = b .cerr := by
  rw [Msg.after, hm, Function.update_of_ne (by decide)]

/-- Every message finds the base it needs, and `b'` is what the last one leaves. -/
def Fits : List Msg → Bases → Bases → Prop
  | [], b, b' => b = b'
  | m :: ms, b, b' => m.Needs (b m.stream) ∧ Fits ms (m.after b) b'

/-- Two lists of messages, the second from where the first has left the streams. -/
theorem Fits.append (hf : Fits ms b b') (hf' : Fits ms' b' b'') : Fits (ms ++ ms') b b'' := by
  induction ms generalizing b with
  | nil => rwa [hf]
  | cons m ms ih => exact ⟨hf.1, ih hf.2⟩

/-- The message neither needs a base nor sets one. -/
def Msg.Plain (m : Msg) : Prop := ∀ hex, m.leaves hex = hex ∧ m.Needs hex

theorem Msg.Plain.after (hm : m.Plain) : m.after b = b := by
  rw [Msg.after, (hm _).1, Function.update_eq_self]

/-- Messages that need nothing fit anywhere. -/
theorem fits_plain (hms : ∀ m ∈ ms, m.Plain) : Fits ms b b := by
  induction ms with
  | nil => rfl
  | cons m ms ih =>
    have hm := hms m List.mem_cons_self
    refine ⟨(hm _).2, ?_⟩
    rw [hm.after]
    exact ih fun m hm ↦ hms m (List.mem_cons_of_mem _ hm)

/-- **The screen shows what is meant**, when every message finds the base it needs. -/
theorem outputs_eq {fs : Stream → Format} {iss : List (List Item)} (hf : Fits ms b b')
    (hp : List.Forall₂ Msg.PutAs ms iss) (hclean : ∀ c, (fs c).Clean)
    (hbase : ∀ c, (fs c).hex = b c) :
    outputs ((ms.map Msg.stream).zip iss) fs = ms.map fun m ↦ (m.stream, m.text) := by
  induction hp generalizing b fs with
  | nil => rfl
  | @cons m is ms iss hm _ ih =>
    obtain ⟨left, hout⟩ := output_msg (hclean m.stream) (hbase m.stream ▸ hf.1) hm
    rw [List.map_cons, List.zip_cons_cons, outputs, hout, List.map_cons]
    -- the stream that was written to is as the message leaves it, and the other one is as it was
    refine congrArg _ (ih hf.2 (fun c ↦ ?_) fun c ↦ ?_)
    · rw [Function.update_apply]
      split
      · exact clean_mk _ _
      · exact hclean c
    · rw [Msg.after, Function.update_apply, Function.update_apply]
      split
      · rw [hbase]
      · exact hbase c

/-! ## What a command prints

The base of `cerr` is a field of the state, because the first row of `list` shows it.  That of
`cout` is not: `load` leaves it in base sixteen, and `start` prints the number of the process in
base ten.  Every message that needs base ten is printed while there is a process, and so after a
`start`.

There is one lemma for each command, and each is put together from the lemmas about a single
message: one that needs nothing (`Shows.print`), one on `cout` while there is a process
(`Shows.inDecimal`), and rows on `cerr` (`Shows.rows`).
-/

variable {ε : Type} {h : Host ε} {s s' s'' : Sdb ε}

/-- The bases the state accounts for: the one of `cerr`, and that of `cout` while there is a
process. -/
def InBase (s : Sdb ε) (b : Bases) : Prop :=
  b .cerr = s.cerrHex ∧ (s.state = .running → b .cout = false)

/-- What is printed between `s` and `s'` fits, wherever `s` accounts for the bases, and `s'`
accounts for them again. -/
def Shows (s s' : Sdb ε) : Prop :=
  ∃ ms, s'.log = s.log ++ ms ∧ ∀ b, InBase s b → ∃ b', Fits ms b b' ∧ InBase s' b'

/-- One thing after the other. -/
theorem Shows.trans (hs : Shows s s') (hs' : Shows s' s'') : Shows s s'' := by
  obtain ⟨ms, hlog, hfit⟩ := hs
  obtain ⟨ms', hlog', hfit'⟩ := hs'
  refine ⟨ms ++ ms', by rw [hlog', hlog, List.append_assoc], fun b hb ↦ ?_⟩
  obtain ⟨b', hf, hb'⟩ := hfit b hb
  obtain ⟨b'', hf', hb''⟩ := hfit' b' hb'
  exact ⟨b'', hf.append hf', hb''⟩

/-- Messages that need nothing. -/
theorem Shows.plain (ms : List Msg) (hms : ∀ m ∈ ms, m.Plain) (hlog : s'.log = s.log ++ ms)
    (hhex : s'.cerrHex = s.cerrHex) (hst : s'.state = .running → s.state = .running) :
    Shows s s' :=
  ⟨ms, hlog, fun b hb ↦ ⟨b, fits_plain hms, hb.1.trans hhex.symm, fun hr ↦ hb.2 (hst hr)⟩⟩

/-- Nothing is printed. -/
theorem Shows.silent (hlog : s'.log = s.log) (hhex : s'.cerrHex = s.cerrHex)
    (hst : s'.state = s.state) : Shows s s' :=
  .plain [] (fun _ hm ↦ absurd hm List.not_mem_nil) (by rw [hlog, List.append_nil]) hhex
    fun hr ↦ hst ▸ hr

theorem Shows.refl (s : Sdb ε) : Shows s s := .silent rfl rfl rfl

/-- A message that needs nothing. -/
theorem Shows.print {m : Msg} (hm : m.Plain) : Shows s (s.print m) := by
  refine .plain [m] (fun m' hm' ↦ ?_) rfl rfl id
  rw [List.mem_singleton.1 hm']
  exact hm

/-- A command that refuses to do anything. -/
theorem Shows.unless {p : Prop} [Decidable p] {m : Msg} {x : Except Exit (Sdb ε)}
    (hs : (if p then .ok (s.print m) else x) = .ok s') (hm : m.Plain)
    (hx : ¬ p → x = .ok s' → Shows s s') : Shows s s' := by
  split at hs
  · cases hs
    exact .print hm
  · exact hx ‹_› hs

/-- A message on `cout` that needs base ten, while there is a process. -/
theorem Shows.inDecimal {m : Msg} (hm : m.stream = .cout) (hn : m.Needs false)
    (hl : m.leaves false = false) (hrun : s.state = .running) : Shows s (s.print m) := by
  refine ⟨[m], rfl, fun b hb ↦ ⟨b, ⟨?_, ?_⟩, hb⟩⟩
  · rw [hm, hb.2 hrun]
    exact hn
  · show m.after b = b
    rw [Msg.after, hm, hb.2 hrun, hl, ← hb.2 hrun, Function.update_eq_self]

/-- Rows on `cerr` that leave it in base sixteen; all but the first may need that. -/
theorem fits_rows {m : Msg} {ms : List Msg} {b : Bases} (hn : m.Needs (b m.stream))
    (hm : ∀ m' ∈ m :: ms, m'.stream = .cerr ∧ ∀ hex, m'.leaves hex = true)
    (hms : ∀ m' ∈ ms, m'.Needs true) : Fits (m :: ms) b (Function.update b .cerr true) := by
  obtain ⟨hc, hl⟩ := hm m List.mem_cons_self
  refine ⟨hn, ?_⟩
  rw [Msg.after, hc, hl]
  clear hn
  induction ms with
  | nil => rfl
  | cons m' ms ih =>
    obtain ⟨hc', hl'⟩ := hm m' (List.mem_cons_of_mem _ List.mem_cons_self)
    refine ⟨?_, ?_⟩
    · rw [hc', Function.update_self]
      exact hms m' List.mem_cons_self
    · rw [Msg.after, hc', hl', Function.update_idem]
      exact ih (fun m'' hm'' ↦ hm m'' (by grind)) fun m'' hm'' ↦
        hms m'' (List.mem_cons_of_mem _ hm'')

/-- The rows of `disasm`: they may end early, with a message that sets no base. -/
theorem insnRows_fits (e : Elf) (is : List Insn) {b : Bases} {hex : Bool} (hb : b .cerr = hex) :
    Fits (insnRows e is) b (Function.update b .cerr
      (hex || (insnRows e is).any fun m ↦ m matches .insn _)) := by
  induction is generalizing b hex with
  | nil =>
    rw [insnRows, List.any_nil, Bool.or_false, ← hb, Function.update_eq_self]
    rfl
  | cons i is ih =>
    rw [insnRows]
    split
    · have hrest := ih (b := Function.update b .cerr true) (Function.update_self ..)
      rw [Function.update_idem, Bool.true_or] at hrest
      rw [List.any_cons, Bool.true_or, Bool.or_true]
      exact ⟨trivial, hrest⟩
    · rw [List.any_cons, List.any_nil, Bool.or_false, Bool.or_false, ← hb, Function.update_eq_self]
      refine ⟨trivial, ?_⟩
      exact Function.update_eq_self ..

/-- What `disasm` prints fits. -/
theorem disasm_shows {a : Addr} {n : Nat} (hs : disasm h a n s = .ok s') : Shows s s' := by
  rw [disasm] at hs
  refine .unless hs (fun _ ↦ ⟨rfl, trivial⟩) fun _ hs ↦
    .unless hs (fun _ ↦ ⟨rfl, trivial⟩) fun hrun hs ↦
    .unless hs (fun _ ↦ ⟨rfl, trivial⟩) fun _ hs ↦ ?_
  split at hs
  · cases hs
  simp only at hs
  split at hs
  · cases hs
    refine ⟨_, rfl, fun b hb ↦ ⟨Function.update b .cerr _, ?_, Function.update_self .., hb.2⟩⟩
    -- either capstone finds no instruction, or the rows follow
    split
    · refine ⟨trivial, ?_⟩
      rw [List.any_cons, List.any_nil, Bool.or_false, Bool.or_false, ← hb.1,
        Function.update_eq_self]
      exact Function.update_eq_self ..
    · exact insnRows_fits s.elf _ hb.1
  · cases hs

theorem pokeText_shows {func : String} {a : Addr} {w : Word}
    (hs : s.pokeText h func a w = .ok s') : Shows s s' := by
  obtain ⟨c, -, -, rfl⟩ := pokeText_eq hs
  exact .silent rfl rfl rfl

theorem setRegs_shows {r : Regs} (hs : s.setRegs r = .ok s') : Shows s s' := by
  rw [setRegs] at hs
  split at hs <;> cases hs
  exact .silent rfl rfl rfl

/-- `break` has two messages, and both are refusals. -/
theorem bp_shows {a : Addr} (hs : bp h a s = .ok s') : Shows s s' := by
  rw [bp] at hs
  refine .unless hs (fun _ ↦ ⟨rfl, trivial⟩) fun _ hs ↦
    .unless hs (fun _ ↦ ⟨rfl, trivial⟩) fun _ hs ↦ ?_
  simp only at hs
  split at hs
  -- there is a trap already, and nothing is said
  · cases hs; exact .refl s
  split at hs
  · cases hs
  · rename_i s₁ hp
    have hs₁ : Shows s s₁ := pokeText_shows hp
    split at hs <;> cases hs <;> exact hs₁.trans (.silent rfl rfl rfl)

/-- What the loop of `chkbp` prints fits. -/
theorem rearm_shows {rip : Addr} {l : List Bp} (hs : rearm h rip l s = .ok s') : Shows s s' := by
  induction l generalizing s with
  | nil => cases hs; exact .refl _
  | cons b bs ih =>
    rw [rearm] at hs
    split at hs
    · split at hs
      · cases hs
      · rename_i s₁ hbp
        exact (bp_shows hbp).trans (ih hs)
    · exact ih hs

theorem chkbp_shows (hs : chkbp h s = .ok s') : Shows s s' := by
  rw [chkbp] at hs
  split at hs
  · cases hs
  · exact rearm_shows hs

/-- Planting a trap neither starts nor ends anything. -/
theorem rearm_state {rip : Addr} {l : List Bp} (hs : rearm h rip l s = .ok s') :
    s'.state = s.state := by
  induction l generalizing s with
  | nil => cases hs; rfl
  | cons b bs ih =>
    rw [rearm] at hs
    split at hs
    · split at hs
      · cases hs
      · rename_i s₁ hbp
        rw [ih hs]
        obtain ⟨-, ⟨hcore, -⟩ | ⟨c, -, -, -, -, ⟨-, hcore⟩ | ⟨-, hcore⟩⟩⟩ := bp_spec hbp <;>
          exact congrArg Core.state hcore
    · exact ih hs

/-- Traps are planted in a process that is there. -/
theorem chkbp_state (hs : chkbp h s = .ok s') : s'.state = s.state := by
  rw [chkbp] at hs
  split at hs
  · cases hs
  · exact rearm_state hs

/-- A breakpoint that is hit: the message, and a row of `disasm`. -/
theorem Handled.shows {b : Bp} (hh : Handled h b s s') : Shows s s' := by
  obtain ⟨s₁, hd, hp⟩ := hh
  have hprint : Shows s (s.print .breakpoint) := .print fun _ ↦ ⟨rfl, trivial⟩
  exact (hprint.trans (disasm_shows hd)).trans (pokeText_shows hp)

/-- What the loop of `cont` prints fits. -/
theorem contLoop_shows {l : List Bp} {regs : Regs} (hs : contLoop h l regs s = .ok s') :
    Shows s s' := by
  induction l generalizing s regs with
  | nil => cases hs; exact .refl _
  | cons b bs ih =>
    rcases contLoop_cons hs with ⟨-, s₁, s₂, hh, hr, hs⟩ | ⟨-, hs⟩
    · exact (hh.shows.trans (setRegs_shows hr)).trans (ih hs)
    · exact ih hs

/-- What the loop of `si` prints fits. -/
theorem siLoop_shows {l : List Bp} {regs : Regs} (hs : siLoop h regs l s = .ok s') :
    Shows s s' := by
  induction l generalizing s with
  | nil => cases hs; exact .refl _
  | cons b bs ih =>
    rcases siLoop_cons hs with ⟨-, s₁, hh, hs⟩ | ⟨-, hs⟩
    · exact hh.shows.trans (ih hs)
    · exact ih hs

/-- The block after `waitpid`: the end of the child is announced while there still is one. -/
theorem afterWait_shows {loop : Tracee ε → Sdb ε → Except Exit (Sdb ε)} {ev : Event Regs ε}
    (hloop : ∀ c t t', loop c t = .ok t' → Shows t t') (hrun : s.state = .running)
    (hs : afterWait loop ev s = .ok s') : Shows s s' := by
  obtain ⟨code, rfl, rfl⟩ | ⟨sig, core, rfl, rfl⟩ | ⟨sig, c, rfl, -, rfl⟩ | ⟨c, rfl, htrap⟩ :=
    afterWait_cases hs
  · have hexits (n : Nat) : Shows s (s.print (.terminiatedNormally s.pid n)) :=
      .inDecimal rfl rfl rfl hrun
    exact (hexits _).trans (.plain [] (fun _ hm ↦ absurd hm List.not_mem_nil)
      (List.append_nil _).symm rfl fun hr ↦ absurd hr (by simp))
  · exact .silent rfl rfl rfl
  · have htracee : Shows s { s with tracee := some c } := .silent rfl rfl rfl
    exact htracee.trans (.inDecimal rfl rfl rfl hrun)
  · have htracee : Shows s { s with tracee := some c } := .silent rfl rfl rfl
    exact htracee.trans (hloop _ _ _ htrap)

/-- What `cont` prints fits. -/
theorem cont_shows {fuel : Nat} (hs : cont h fuel s = some (.ok s')) : Shows s s' := by
  obtain ⟨-, rfl⟩ | ⟨hrun, s₁, c, ev, hchk, -, -, hafter⟩ := cont_cases hs
  · exact .print fun _ ↦ ⟨rfl, trivial⟩
  · exact (chkbp_shows hchk).trans
      (afterWait_shows (fun _ _ _ ↦ contLoop_shows) ((chkbp_state hchk).trans hrun) hafter)

/-- What `si` prints fits. -/
theorem si_shows (hs : si h s = .ok s') : Shows s s' := by
  obtain ⟨-, rfl⟩ | ⟨hrun, s₁, c, hchk, -, hafter⟩ := si_cases hs
  · exact .print fun _ ↦ ⟨rfl, trivial⟩
  · exact (chkbp_shows hchk).trans
      (afterWait_shows (fun _ _ _ ↦ siLoop_shows) ((chkbp_state hchk).trans hrun) hafter)

/-- `delete` prints one line in either case, with an id in base ten. -/
theorem delLoop_shows {id : Int} {l : List Bp} {i : Nat} (hrun : s.state = .running)
    (hs : delLoop h id s l i = .ok s') : Shows s s' := by
  induction l generalizing i with
  | nil =>
    cases hs
    exact .inDecimal rfl rfl rfl hrun
  | cons b bs ih =>
    rw [delLoop] at hs
    split at hs
    · split at hs
      · cases hs
      split at hs
      · cases hs
      split at hs
      · cases hs
      rename_i s₁ hp
      obtain ⟨c, -, -, rfl⟩ := pokeText_eq hp
      cases hs
      have hchange (c : Option (Tracee ε)) (l : List Bp) :
          Shows s { s with tracee := c, bpList := l } := .silent rfl rfl rfl
      exact (hchange _ _).trans (.inDecimal rfl rfl rfl hrun)
    · exact ih hs

theorem del_shows {id : Int} (hs : del h id s = .ok s') : Shows s s' := by
  rw [del] at hs
  exact .unless hs (fun _ ↦ ⟨rfl, trivial⟩) fun hrun hs ↦ delLoop_shows (not_not.1 hrun) hs

/-- A new process is announced in base ten, which is kept. -/
theorem start_shows (hs : start h s = .ok s') : Shows s s' := by
  rw [start] at hs
  refine .unless hs (fun _ ↦ ⟨rfl, trivial⟩) fun _ hs ↦
    .unless hs (fun _ ↦ ⟨rfl, trivial⟩) fun _ hs ↦ ?_
  split at hs
  · cases hs
  split at hs
  · cases hs
  · cases hs
    refine ⟨[.started _], rfl, fun b hb ↦ ⟨_, ⟨trivial, rfl⟩, ?_, fun _ ↦ ?_⟩⟩
    · rw [after_cerr rfl]
      exact hb.1
    · exact Function.update_self ..

/-- `run` is `start` and `cont`. -/
theorem run_shows {fuel : Nat} (hs : run h fuel s = some (.ok s')) : Shows s s' := by
  rw [run] at hs
  split at hs
  · exact cont_shows hs
  · split at hs
    · cases hs
    · rename_i s₁ hstart
      exact (start_shows hstart).trans (cont_shows hs)
  · cases hs
    exact .print fun _ ↦ ⟨rfl, trivial⟩

/-- `load` leaves `cout` in base sixteen, but there is no process then. -/
theorem load_shows {path : String} (hs : load h path s = .ok s') : Shows s s' := by
  rw [load] at hs
  refine .unless hs (fun _ ↦ ⟨rfl, trivial⟩) fun hst hs ↦
    .unless hs (fun _ ↦ ⟨rfl, trivial⟩) fun _ hs ↦ ?_
  split at hs
  · cases hs
  simp only at hs
  have helf (e : Elf) : Shows s { s with elf := e } := .silent rfl rfl rfl
  split at hs
  · split at hs
    · split at hs
      · cases hs
      · cases hs
        refine ⟨[.programLoaded _ _], rfl, fun b hb ↦ ⟨_, ⟨trivial, rfl⟩, ?_, fun hr ↦ ?_⟩⟩
        · rw [after_cerr rfl]
          exact hb.1
        · exact absurd hr (by simp)
    · cases hs
      exact (helf _).trans (.print fun _ ↦ ⟨rfl, trivial⟩)
  · cases hs
    exact (helf _).trans (.print fun _ ↦ ⟨rfl, trivial⟩)

/-- `set` says nothing but its refusals. -/
theorem set_shows {reg : String} {val : Word} (hs : set reg val s = .ok s') : Shows s s' := by
  rw [set] at hs
  refine .unless hs (fun _ ↦ ⟨rfl, trivial⟩) fun _ hs ↦ ?_
  split at hs
  · cases hs
  · exact setRegs_shows hs

/-- Rows on `cerr`, after which it is in base sixteen. -/
theorem Shows.rows {m : Msg} {ms : List Msg} (hn : ∀ hex, hex = s.cerrHex → m.Needs hex)
    (hm : ∀ m' ∈ m :: ms, m'.stream = .cerr ∧ ∀ hex, m'.leaves hex = true)
    (hms : ∀ m' ∈ ms, m'.Needs true) :
    Shows s { s with log := s.log ++ m :: ms, cerrHex := true } := by
  refine ⟨m :: ms, rfl, fun b hb ↦ ⟨_, fits_rows ?_ hm hms, Function.update_self .., hb.2⟩⟩
  rw [(hm m List.mem_cons_self).1]
  exact hn _ hb.1

theorem Shows.row {m : Msg} (hn : ∀ hex, m.Needs hex)
    (hm : m.stream = .cerr ∧ ∀ hex, m.leaves hex = true) :
    Shows s { s with log := s.log ++ [m], cerrHex := true } := by
  refine .rows (fun hex _ ↦ hn hex) (fun m' hm' ↦ ?_) fun m' hm' ↦ absurd hm' List.not_mem_nil
  rw [List.mem_singleton.1 hm']
  exact hm

/-- `get` sets both bases itself. -/
theorem get_shows {reg : String} (hs : get reg s = .ok s') : Shows s s' := by
  rw [get] at hs
  refine .unless hs (fun _ ↦ ⟨rfl, trivial⟩) fun _ hs ↦
    .unless hs (fun _ ↦ ⟨rfl, trivial⟩) fun _ hs ↦ ?_
  split at hs
  · cases hs
  · split at hs <;> cases hs
    · exact .refl s
    · exact .row (fun _ ↦ trivial) ⟨rfl, fun _ ↦ rfl⟩

theorem getregs_shows (hs : getregs s = .ok s') : Shows s s' := by
  rw [getregs] at hs
  refine .unless hs (fun _ ↦ ⟨rfl, trivial⟩) fun _ hs ↦ ?_
  split at hs <;> cases hs
  exact .row (fun _ ↦ trivial) ⟨rfl, fun _ ↦ rfl⟩

/-- A dump consists of rows of a dump. -/
theorem dumpRows_mem {n : Nat} {a : Addr} {m : Msg} (hm : m ∈ dumpRows h s n a) :
    ∃ a' w w', m = .dumpRow a' w w' := by
  induction n generalizing a with
  | zero => cases hm
  | succ n ih =>
    rcases List.mem_cons.1 hm with rfl | hm
    · exact ⟨_, _, _, rfl⟩
    · exact ih hm

/-- What `dump` prints fits. -/
theorem dump_shows (a : Addr) : Shows s (dump h a s) := by
  rw [dump]
  split_ifs
  · exact .print fun _ ↦ ⟨rfl, trivial⟩
  · exact .print fun _ ↦ ⟨rfl, trivial⟩
  · exact .print fun _ ↦ ⟨rfl, trivial⟩
  · have hrow {n : Nat} {a : Addr} : ∀ m ∈ dumpRows h s n a,
        (m.stream = .cerr ∧ ∀ hex, m.leaves hex = true) ∧ ∀ hex, m.Needs hex := fun m hm ↦ by
      obtain ⟨a', w, w', rfl⟩ := dumpRows_mem hm
      exact ⟨⟨rfl, fun _ ↦ rfl⟩, fun _ ↦ trivial⟩
    exact .rows (fun _ _ ↦ trivial) (hrow (n := 5) (a := a) · · |>.1) fun m hm ↦ (hrow m hm).2 true

/-- The first row of `list` is printed in the base that `cerr` has been left in, the others in base
sixteen. -/
theorem list_shows (s : Sdb ε) : Shows s (list s) := by
  rcases hl : s.bpList with _ | ⟨b, bs⟩
  · exact .silent (by rw [list, hl]; exact List.append_nil _)
      (by rw [list, hl]; exact Bool.or_false _) rfl
  · have hlist : list s = { s with
        log := s.log ++ .entry s.cerrHex b.id b.addr :: bs.map fun b ↦ .entry true b.id b.addr
        cerrHex := true } := by
      have htail : (bs.mapIdx fun i b ↦ Msg.entry (s.cerrHex || i + 1 != 0) b.id b.addr) =
          bs.map fun b ↦ .entry true b.id b.addr := by
        refine List.ext_getElem (by simp) fun i hi hi' ↦ ?_
        simp
      rw [list, hl, List.mapIdx_cons, htail]
      simp
    rw [hlist]
    refine .rows (fun _ hex ↦ hex) (fun m hm ↦ ?_) fun m hm ↦ ?_
    · rcases List.mem_cons.1 hm with rfl | hm
      · exact ⟨rfl, fun _ ↦ rfl⟩
      · obtain ⟨b', -, rfl⟩ := List.mem_map.1 hm
        exact ⟨rfl, fun _ ↦ rfl⟩
    · obtain ⟨b', -, rfl⟩ := List.mem_map.1 hm
      rfl

/-- The kernel writes the maps in its own format, and `getline` delivers them: the pointer and the
length, which `vmmap` does not set, are `NULL` and 0 whenever it is called. -/
def KernelMaps (h : Host ε) : Prop := ∀ e, ∃ es : List Entry, h.maps e = some (es.map Entry.line)

/-- The rows of the map need no base.  They are rows of the format of the kernel, which is where the
padding is known to be taken back. -/
theorem vmmap_shows (hmaps : KernelMaps h) (hs : vmmap h s = .ok s') : Shows s s' := by
  rw [vmmap] at hs
  refine .unless hs (fun _ ↦ ⟨rfl, trivial⟩) fun _ hs ↦ ?_
  split at hs
  · cases hs
  rename_i c _
  obtain ⟨es, hlines⟩ := hmaps c.env
  rw [hlines] at hs
  cases hs
  refine .plain _ (fun m hm ↦ ?_) rfl rfl id
  obtain ⟨line, hline, rfl⟩ := List.mem_map.1 hm
  obtain ⟨e, -, rfl⟩ := List.mem_map.1 hline
  exact fun _ ↦ ⟨rfl, e, rfl⟩

/-- **Every command** prints what fits. -/
theorem Does.shows {cmd : Command} (hmaps : KernelMaps h) (hd : Does h s cmd s') :
    Shows s s' := by
  obtain ⟨fuel, hs⟩ := hd
  match cmd, hs with
  | .break a, hs => exact bp_shows (Option.some.inj hs)
  | .cont, hs => exact cont_shows hs
  | .delete id, hs => exact del_shows (Option.some.inj hs)
  | .disasm a, hs => exact disasm_shows (Option.some.inj hs)
  | .dump a, hs => exact Except.ok.inj (Option.some.inj hs) ▸ dump_shows a
  | .get reg, hs => exact get_shows (Option.some.inj hs)
  | .getregs, hs => exact getregs_shows (Option.some.inj hs)
  | .list, hs => exact Except.ok.inj (Option.some.inj hs) ▸ list_shows s
  | .load path, hs => exact load_shows (Option.some.inj hs)
  | .run, hs => exact run_shows hs
  | .vmmap, hs => exact vmmap_shows hmaps (Option.some.inj hs)
  | .set reg val, hs => exact set_shows (Option.some.inj hs)
  | .si, hs => exact si_shows (Option.some.inj hs)
  | .start, hs => exact start_shows (Option.some.inj hs)
  | .help, hs | .noAddress, hs | .noBreakpointId, hs | .notEnoughArguments, hs =>
    cases hs
    exact .print fun _ ↦ ⟨rfl, trivial⟩
  | .nothing, hs => cases hs; exact .refl s

/-! ## Sessions -/

/-- **The bases are what the state accounts for**, in every session. -/
theorem reachable_fits (hmaps : KernelMaps h) (hr : Reachable h s) :
    ∃ b, Fits s.log (fun _ ↦ false) b ∧ InBase s b := by
  -- the invariant: the messages so far fit, and end in bases the state accounts for
  have hinit : ∃ b, Fits (init : Sdb ε).log (fun _ ↦ false) b ∧ InBase (init : Sdb ε) b :=
    ⟨fun _ ↦ false, rfl, rfl, fun _ ↦ rfl⟩
  refine hr.invariant (I := fun s ↦ ∃ b, Fits s.log (fun _ ↦ false) b ∧ InBase s b) hinit
    fun t cmd t' ⟨b, hf, hb⟩ _ hd ↦ ?_
  obtain ⟨ms, hlog, hfit⟩ := hd.shows hmaps
  obtain ⟨b', hf', hb'⟩ := hfit b hb
  exact ⟨b', hlog ▸ hf.append hf', hb'⟩

/-- **What is seen.**  Whatever the commands of a session are, and in whatever state they leave the
two streams: everything that has been put into the streams, one thing after the other, shows the
texts that are meant. -/
theorem screen_eq {iss : List (List Item)} (hmaps : KernelMaps h) (hr : Reachable h s)
    (hp : List.Forall₂ Msg.PutAs s.log iss) :
    outputs ((s.log.map Msg.stream).zip iss) (fun _ ↦ .init) =
      s.log.map fun m ↦ (m.stream, m.text) := by
  obtain ⟨b, hf, -⟩ := reachable_fits hmaps hr
  exact outputs_eq hf hp (fun _ ↦ ⟨rfl, rfl⟩) fun _ ↦ rfl

/-- A session with lists before and after a table of registers. -/
theorem screen_eq_tiny : ∃ s : Sdb Nat, Reachable (Tiny.host [0x90, 0xc3]) s ∧
    8 ≤ s.log.length ∧
    outputs ((s.log.map Msg.stream).zip (s.log.map Msg.items)) (fun _ ↦ .init) =
      s.log.map fun m ↦ (m.stream, m.text) := by
  obtain ⟨s, hr, hp⟩ := script_reaches (Tiny.host [0x90, 0xc3]) (fun _ ↦ True) 1
    [.load "a.out", .start, .break Tiny.textAddr, .break (Tiny.textAddr + 1), .list, .getregs,
      .list, .delete 0, .list]
    (fun s ↦ 8 ≤ s.log.length ∧ (s.log.all fun m ↦ !(m matches .mapRow _)) = true)
    (fun _ _ ↦ trivial) (by decide +kernel)
  obtain ⟨hlen, hno⟩ := of_decide_eq_true hp
  have hput : List.Forall₂ Msg.PutAs s.log (s.log.map Msg.items) := by
    rw [List.forall₂_map_right_iff, List.forall₂_same]
    intro m hm
    have hmap := List.all_eq_true.1 hno m hm
    cases m with
    | mapRow text => cases hmap
    | _ => rfl
  have hmaps : KernelMaps (Tiny.host [0x90, 0xc3]) := fun _ ↦ ⟨[], rfl⟩
  exact ⟨s, hr, hlen, screen_eq hmaps hr hput⟩

/-! ## Reading a dump

A reader of a row takes the words in front of the bar, of which the first is the address with a
colon behind it.  `strtoul` stops at the colon.  No byte can put a bar in front of the bar, because
the bytes are printed as digits there, and no byte can end the line, because it is a dot then.
-/

/-- The address and the bytes of a row of `dump`. -/
def readRow (row : Text) : Addr × List Byte :=
  match words (row.takeWhile (· != '|')) with
  | [] => (0, [])
  | a :: bytes => (strtoul16 a, bytes.map fun w ↦ (strtoul16 w).setWidth 8)

/-- What the text of a dump says. -/
def readDump (t : Text) : List (Addr × List Byte) := (lines t).map readRow

/-- The bytes of a row are words of two digits. -/
theorem words_bits (bytes : List Byte) :
    words (bits bytes) = bytes.map fun b ↦ hexText 2 b.toNat := by
  induction bytes with
  | nil => rfl
  | cons b bytes ih =>
    rw [bits, List.flatMap_cons, List.append_assoc, List.singleton_append,
      words_cons hexText_ne_nil hexText_noSpace, List.map_cons, ← ih, bits]

/-- Blanks in front are skipped. -/
theorem words_blanks (n : ℕ) (t : Text) : words (List.replicate n ' ' ++ t) = words t := by
  induction n with
  | zero => rfl
  | succ n ih => rw [List.replicate_succ, List.cons_append, words_space (by decide), ih]

/-- A row without its newline. -/
def dumpBody (a : Addr) (code1 code2 : Word) : Text :=
  padLeft 12 ' ' (hexDigits a) ++ ": ".toList ++ bits (bytesOf code1 ++ bytesOf code2) ++
    '|' :: ((bytesOf code1 ++ bytesOf code2).map asciiChar ++ ['|'])

/-- A row of `dump` ends the line. -/
theorem dumpText_eq (a : Addr) (code1 code2 : Word) :
    dumpText a code1 code2 = dumpBody a code1 code2 ++ ['\n'] := by
  simp [dumpText, dumpBody]

theorem hexDigits_noSpace (a : Addr) : ∀ c ∈ hexDigits a, isSpace c = false :=
  toDigits_noSpace (by decide) (by decide)

/-- No digit ends a field of a row. -/
theorem digitChar_ne_bar : ∀ r : Fin 16, r.val.digitChar ≠ '|' := by decide

/-- No bar stands among the bytes. -/
theorem bar_notMem_bits (bytes : List Byte) : '|' ∉ bits bytes := by
  rw [bits, List.mem_flatMap]
  rintro ⟨b, -, hb⟩
  rw [List.mem_append, hexText, List.mem_append] at hb
  rcases hb with (hb | hb) | hb
  · exact absurd (List.eq_of_mem_replicate hb) (by decide)
  · obtain ⟨r, hr, he⟩ := mem_toDigits (by decide) (by decide) hb
    exact digitChar_ne_bar ⟨r, hr⟩ he.symm
  · exact absurd (List.mem_singleton.1 hb) (by decide)

/-- What stands in front of the characters of a row. -/
def dumpHead (a : Addr) (bytes : List Byte) : Text :=
  padLeft 12 ' ' (hexDigits a) ++ (':' :: ' ' :: bits bytes)

theorem dumpBody_eq (a : Addr) (code1 code2 : Word) : dumpBody a code1 code2 =
    dumpHead a (bytesOf code1 ++ bytesOf code2) ++
      '|' :: ((bytesOf code1 ++ bytesOf code2).map asciiChar ++ ['|']) := by
  simp [dumpBody, dumpHead]

/-- The first bar of a row is the one behind the bytes. -/
theorem bar_notMem_dumpHead (a : Addr) (bytes : List Byte) : '|' ∉ dumpHead a bytes := by
  have hhex : '|' ∉ hexDigits a := fun hc ↦ by
    obtain ⟨r, hr, he⟩ := mem_toDigits (by decide) (by decide) hc
    exact digitChar_ne_bar ⟨r, hr⟩ he.symm
  simp [dumpHead, padLeft, hhex, bar_notMem_bits]

/-- The words in front of the characters: the address, with its colon, and the bytes. -/
theorem words_dumpHead (a : Addr) (bytes : List Byte) :
    words (dumpHead a bytes) = (hexDigits a ++ [':']) :: bytes.map fun b ↦ hexText 2 b.toNat := by
  have hword : ∀ c ∈ hexDigits a ++ [':'], isSpace c = false := fun c hc ↦
    (List.mem_append.1 hc).elim (hexDigits_noSpace a c) fun hc ↦ by
      rw [List.mem_singleton.1 hc]
      rfl
  have hcolon : dumpHead a bytes = List.replicate (12 - (hexDigits a).length) ' ' ++
      ((hexDigits a ++ [':']) ++ ' ' :: bits bytes) := by
    simp [dumpHead, padLeft]
  rw [hcolon, words_blanks, words_cons (by simp) hword, words_bits]

/-- Two digits are read as the byte they were printed for. -/
theorem strtoul16_hexText (b : Byte) : (strtoul16 (hexText 2 b.toNat)).setWidth 8 = b := by
  have hread := @strtoul16_toDigits b.toNat (2 - (Nat.toDigits 16 b.toNat).length) (by omega) []
    (by simp)
  rw [List.append_nil] at hread
  rw [hexText, hread]
  simp

/-- **A row** is read as the address and the bytes it was printed for. -/
theorem readRow_dumpBody (a : Addr) (code1 code2 : Word) :
    readRow (dumpBody a code1 code2) = (a, bytesOf code1 ++ bytesOf code2) := by
  have hbar : ∀ c ∈ dumpHead a (bytesOf code1 ++ bytesOf code2), (c != '|') = true := fun c hc ↦ by
    simpa using fun he ↦ bar_notMem_dumpHead _ _ (he ▸ hc)
  have haddr : strtoul16 (hexDigits a ++ [':']) = a := by
    have hread := @strtoul16_toDigits a.toNat 0 a.isLt [':'] (by simp [digit?])
    rwa [BitVec.ofNat_toNat, BitVec.setWidth_eq] at hread
  have hbytes (bytes : List Byte) :
      (bytes.map fun b ↦ hexText 2 b.toNat).map (fun w ↦ (strtoul16 w).setWidth 8) = bytes := by
    rw [List.map_map]
    exact (List.map_congr_left fun b _ ↦ strtoul16_hexText b).trans (List.map_id' bytes)
  rw [readRow, dumpBody_eq, List.takeWhile_append_of_pos hbar,
    List.takeWhile_cons_of_neg (by simp), List.append_nil, words_dumpHead]
  simp only [haddr, hbytes]

/-- No character of a row ends the line. -/
theorem newline_notMem_dumpBody (a : Addr) (code1 code2 : Word) :
    '\n' ∉ dumpBody a code1 code2 := by
  have hno {t : Text} (ht : ∀ c ∈ t, isSpace c = false) : '\n' ∉ t := fun hc ↦
    absurd (ht _ hc) (by decide)
  have hbits (bytes : List Byte) : '\n' ∉ bits bytes := by
    rw [bits, List.mem_flatMap]
    rintro ⟨b, -, hb⟩
    rcases List.mem_append.1 hb with hb | hb
    · exact hno hexText_noSpace hb
    · exact absurd (List.mem_singleton.1 hb) (by decide)
  have hchar (b : Byte) : asciiChar b ≠ '\n' := by
    revert b
    decide
  simp [dumpBody, padLeft, hno (hexDigits_noSpace a), hbits, hchar]

/-- The lines of some rows. -/
theorem lines_rows {α : Type} (body : α → Text) (l : List α) (hb : ∀ x ∈ l, '\n' ∉ body x) :
    lines (l.flatMap fun x ↦ body x ++ ['\n']) = l.map body := by
  induction l with
  | nil => rfl
  | cons x l ih =>
    have hpos : ∀ c ∈ body x, (c != '\n') = true := fun c hc ↦ by
      have hne : c ≠ '\n' := fun he ↦ hb x List.mem_cons_self (he ▸ hc)
      simpa using hne
    have hsplit : (x :: l).flatMap (fun x ↦ body x ++ ['\n']) =
        body x ++ '\n' :: l.flatMap fun x ↦ body x ++ ['\n'] := by simp
    have hdrop : ((x :: l).flatMap fun x ↦ body x ++ ['\n']).dropWhile (· != '\n') =
        '\n' :: l.flatMap fun x ↦ body x ++ ['\n'] := by
      rw [hsplit, List.dropWhile_append_of_pos hpos, List.dropWhile_cons_of_neg (by simp)]
    rw [lines_of_terminated hdrop, ih fun y hy ↦ hb y (List.mem_cons_of_mem x hy), hsplit,
      List.takeWhile_append_of_pos hpos, List.takeWhile_cons_of_neg (by simp), List.append_nil,
      List.map_cons]

/-- What `dump` shows of the byte `k` of the word at `a`: where a word cannot be read, `ptrace`
returns `-1`. -/
def shownByte (h : Host ε) (c : Tracee ε) (a : Addr) (k : ℕ) : Byte :=
  if h.wordMapped c.env a then c.mem (a + BitVec.ofNat 64 k) else 0xff

/-- The bytes of a word that has been read. -/
theorem bytesOf_peekText {c : Tracee ε} (hc : s.tracee = some c) (a : Addr) :
    bytesOf (s.peekText h a) = (List.range 8).map (shownByte h c a) := by
  refine List.map_congr_left fun k hk ↦ ?_
  have hk8 : k < 8 := List.mem_range.1 hk
  simp only [peekText, hc, shownByte]
  split
  · exact byteOf_loadWord c.mem a hk8
  · interval_cases k <;> rfl

/-- The addresses of the rows, and the words in them. -/
def dumpWords (h : Host ε) (s : Sdb ε) (n : ℕ) (a : Addr) : List (Addr × Word × Word) :=
  (List.range n).map fun i ↦ (a + BitVec.ofNat 64 (16 * i),
    s.peekText h (a + BitVec.ofNat 64 (16 * i)), s.peekText h (a + BitVec.ofNat 64 (16 * i) + 8))

/-- The rows of a dump are sixteen bytes apart. -/
theorem dumpRows_eq (n : ℕ) (a : Addr) : dumpRows h s n a =
    (dumpWords h s n a).map fun r ↦ .dumpRow r.1 r.2.1 r.2.2 := by
  induction n generalizing a with
  | zero => rfl
  | succ n ih =>
    have hnext (i : ℕ) :
        a + 16 + BitVec.ofNat 64 (16 * i) = a + BitVec.ofNat 64 (16 * (i + 1)) := by
      rw [Nat.mul_add, BitVec.ofNat_add]
      grind
    have hfirst : a + BitVec.ofNat 64 (16 * 0) = a := BitVec.add_zero a
    simp only [dumpRows, ih, dumpWords, List.range_succ_eq_map, List.map_cons, List.map_map,
      Function.comp_def, Nat.succ_eq_add_one, hnext, hfirst]

/-- Rows of a dump in a row. -/
theorem output_dumpRows (rs : List (Addr × Word × Word)) {f : Format} (hf : f.width = 0) :
    (output ((rs.map fun r ↦ Msg.dumpRow r.1 r.2.1 r.2.2).flatMap Msg.items) f).2 =
      rs.flatMap fun r ↦ dumpBody r.1 r.2.1 r.2.2 ++ ['\n'] := by
  induction rs generalizing f with
  | nil => rfl
  | cons r rs ih =>
    rw [List.map_cons, List.flatMap_cons, output_append, output_dumpRow _ _ _ hf, ih rfl,
      List.flatMap_cons, dumpText_eq]

/-- **A dump can be read.**  Whatever the streams have been left in by the commands before, as long
as no width is pending: the five rows that `dump` prints, read back as hexadecimal numbers, are the
addresses and the memory there, or `ff` where the memory cannot be read. -/
theorem dump_readBack {c : Tracee ε} {a : Addr} {f : Format} (hrun : s.state = .running)
    (hc : s.tracee = some c) (ha : a ≠ 0) (hin : intext s.elf a = true) (hf : f.width = 0) :
    ∃ rows, (dump h a s).log = s.log ++ rows ∧
      readDump (output (rows.flatMap Msg.items) f).2 = (List.range 5).map fun i ↦
        (a + BitVec.ofNat 64 (16 * i),
          (List.range 8).map (shownByte h c (a + BitVec.ofNat 64 (16 * i))) ++
          (List.range 8).map (shownByte h c (a + BitVec.ofNat 64 (16 * i) + 8))) := by
  refine ⟨dumpRows h s 5 a, ?_, ?_⟩
  · rw [dump, if_neg ha, if_neg (not_not.2 hrun), if_neg (by simp [hin])]
  · rw [dumpRows_eq, output_dumpRows _ hf, readDump,
      lines_rows _ _ fun r _ ↦ newline_notMem_dumpBody r.1 r.2.1 r.2.2, List.map_map,
      List.map_congr_left fun r _ ↦ readRow_dumpBody r.1 r.2.1 r.2.2, dumpWords, List.map_map]
    refine List.map_congr_left fun i _ ↦ ?_
    simp only [Function.comp_apply, bytesOf_peekText hc]

/-- A dump of the program text, after a table of registers that left zeros to pad with. -/
theorem dump_readBack_tiny : ∃ (s : Sdb Nat) (c : Tracee Nat) (rows : List Msg),
    s.state = .running ∧ s.tracee = some c ∧
    (dump (Tiny.host [0x90, 0xc3]) Tiny.textAddr s).log = s.log ++ rows ∧
    readDump (output (rows.flatMap Msg.items) ⟨true, false, '0', 0⟩).2 =
      (List.range 5).map fun i ↦ (Tiny.textAddr + BitVec.ofNat 64 (16 * i),
        (List.range 8).map (shownByte (Tiny.host [0x90, 0xc3]) c
          (Tiny.textAddr + BitVec.ofNat 64 (16 * i))) ++
        (List.range 8).map (shownByte (Tiny.host [0x90, 0xc3]) c
          (Tiny.textAddr + BitVec.ofNat 64 (16 * i) + 8))) := by
  obtain ⟨s, -, hp⟩ := script_reaches (Tiny.host [0x90, 0xc3]) (fun _ ↦ True) 1
    [.load "a.out", .start, .getregs]
    (fun s ↦ s.state = .running ∧ s.tracee.isSome = true ∧ intext s.elf Tiny.textAddr = true)
    (fun _ _ ↦ trivial) (by decide +kernel)
  obtain ⟨hrun, hsome, hin⟩ := of_decide_eq_true hp
  obtain ⟨c, hc⟩ := Option.isSome_iff_exists.1 hsome
  obtain ⟨rows, hlog, hread⟩ := dump_readBack (f := ⟨true, false, '0', 0⟩) hrun hc
    (show Tiny.textAddr ≠ 0 by decide) hin rfl
  exact ⟨s, c, rows, hrun, hc, hlog, hread⟩

end Sdb
