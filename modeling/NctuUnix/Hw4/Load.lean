import NctuUnix.Hw4.State

/-!
# Loading a program

`void load(string)`: read the file header, find the section-name string table through it, and
walk the section headers until one is called `.text`.  Nothing in the file is trusted to be there:
a read past the end of the file transfers fewer bytes than asked for, and the buffer keeps what it
held.  The three offsets are the file's own numbers, narrowed and made signed the way the source
does it.
-/

set_option autoImplicit false

namespace Sdb

open Bytes

variable {ε : Type}

/-! ## Files -/

/-- An open `FILE`. -/
structure File where
  data : List Byte
  pos : Nat

/-- `fseek(fp, off, SEEK_SET)`.  A negative offset is refused and the position stays. -/
def File.seek (f : File) (off : Int) : File := if 0 ≤ off then { f with pos := off.toNat } else f

/-- How many bytes a read of `n` bytes transfers. -/
def File.avail (f : File) (n : Nat) : Nat := min n (f.data.length - f.pos)

/-- The buffer after a read of `n` bytes into it. -/
def File.readInto (f : File) (n : Nat) (buf : Nat → Byte) : Nat → Byte :=
  fun i ↦ if i < f.avail n then f.data.getD (f.pos + i) 0 else buf i

/-- The file after a read of `n` bytes. -/
def File.skip (f : File) (n : Nat) : File := { f with pos := f.pos + f.avail n }

/-! ## Fields of the headers -/

/-- The little-endian number in bytes `off`, …, `off + n - 1` of a buffer. -/
def field (buf : Nat → Byte) (off : Nat) : Nat → Nat
  | 0 => 0
  | n + 1 => field buf off n + (buf (off + n)).toNat * 256 ^ n

/-- `e_ident[0..3]` is `0x7f 'E' 'L' 'F'`. -/
def isElf (ehdr : Nat → Byte) : Bool :=
  ehdr 0 == 0x7f && ehdr 1 == 0x45 && ehdr 2 == 0x4c && ehdr 3 == 0x46

/-- `e_ident[EI_CLASS] == ELFCLASS64` -/
def isClass64 (ehdr : Nat → Byte) : Bool := ehdr 4 == 2

def eEntry (ehdr : Nat → Byte) : Addr := BitVec.ofNat 64 (field ehdr 24 8)
def eShoff (ehdr : Nat → Byte) : Nat := field ehdr 40 8
def eShnum (ehdr : Nat → Byte) : Nat := field ehdr 60 2
def eShstrndx (ehdr : Nat → Byte) : Nat := field ehdr 62 2

def shName (shdr : Nat → Byte) : Nat := field shdr 0 4
def shAddr (shdr : Nat → Byte) : Word := BitVec.ofNat 64 (field shdr 16 8)
def shOffset (shdr : Nat → Byte) : Word := BitVec.ofNat 64 (field shdr 24 8)
def shSize (shdr : Nat → Byte) : Word := BitVec.ofNat 64 (field shdr 32 8)

/-- The header as `elf.text_shdr` keeps it. -/
def shdrOf (shdr : Nat → Byte) : Shdr := ⟨shAddr shdr, shOffset shdr, shSize shdr⟩

/-! ## Finding `.text` -/

/-- `strcmp(str_tab + i, ".text") == 0` -/
def isText (strTab : Nat → Byte) (i : Nat) : Bool :=
  strTab i == 0x2e && strTab (i + 1) == 0x74 && strTab (i + 2) == 0x65 &&
    strTab (i + 3) == 0x78 && strTab (i + 4) == 0x74 && strTab (i + 5) == 0

/-- The loop over the section headers: `n` of them left, `tmp` what `tmp_shdr` holds. -/
def findText (strTab : Nat → Byte) : Nat → File → (Nat → Byte) → Option Shdr
  | 0, _, _ => none
  | n + 1, f, tmp =>
    let tmp' := f.readInto 64 tmp
    if isText strTab (shName tmp') then some (shdrOf tmp')
    else findText strTab n (f.skip 64) tmp'

/-- Both section passes over a file whose header has been read: the text header, if there is one.
`elf.str_shdr` is a global and still all zeros here: a load that gets this far is the last one.
An allocation that fails leaves `str_tab` null, and the first use of it is an invalid access. -/
def textSection (h : Host ε) (f : File) (ehdr : Nat → Byte) : Except Exit (Option Shdr) :=
  -- `int str_shdr_offset`
  let strShdrOffset := (BitVec.ofNat 32 (eShoff ehdr + eShstrndx ehdr * 64)).toInt
  let f := f.seek strShdrOffset
  let strShdr := f.readInto 64 fun _ ↦ 0
  let f := (f.skip 64).seek (shOffset strShdr).toInt
  let size := (shSize strShdr).toNat
  if h.malloc size then
    let strTab := f.readInto size h.heap
    let f := (f.skip size).seek (BitVec.ofNat 64 (eShoff ehdr)).toInt
    .ok (findText strTab (eShnum ehdr) f h.stack)
  else if f.avail size = 0 ∧ eShnum ehdr = 0 then .ok none
  else .error .crash

/-- `void load(string arg)` -/
def load (h : Host ε) (arg : String) (s : Sdb ε) : Except Exit (Sdb ε) :=
  if s.state ≠ .nonload then .ok (s.print .mustBeNotLoaded)
  else if arg.isEmpty then .ok (s.print .noProgramPath)
  else
    match h.files arg with
    | none => .error (.error "fopen")
    | some data =>
      let f : File := ⟨data, 0⟩
      let ehdr := f.readInto 64 s.elf.ehdr
      let s := { s with elf := { s.elf with ehdr := ehdr } }
      if isElf ehdr then
        if isClass64 ehdr then
          match textSection h (f.skip 64) ehdr with
          | .error e => .error e
          | .ok text =>
            let s := { s with elf := { s.elf with textShdr := text.getD s.elf.textShdr } }
            let s := s.print (.programLoaded arg (eEntry ehdr))
            .ok { s with filePath := arg, state := .loaded }
        else .ok (s.print .not64)
      else .ok (s.print .notElf)

end Sdb
