import NctuUnix.Hw1.Print

/-!
# The scan of `/proc`

`lsof` of `hw1.cpp` goes through what `/proc` shows of a process — three links, the memory map, the
descriptors — and hands a record to `print_result` for each file it finds.  `main` calls it for one
process after the other.

What the kernel answers while a process is scanned is data, a `Proc`: for every call its result or
the `errno` it fails with, since the process may vanish or refuse at any point.  `errno` is threaded
through; only a call that fails sets it.  The functions return the records they hand to
`print_result`, in order.

A process can end the program.  Where it does so by `exit`, what has been printed is written out
before; an exception that nobody catches or a null pointer that is read ends it at once, and of what
`printf` has in its buffer then nothing is seen.
-/

set_option autoImplicit false

namespace Lsof

open Input

/-! ## Answers of the kernel -/

/-- A value of `errno`. -/
abbrev Errno := Nat

def ENOENT : Errno := 2
def EACCES : Errno := 13
def EINVAL : Errno := 22

/-- A library call: its result, or the `errno` it fails with. -/
abbrev Answer (α : Type) := Except Errno α

variable {α : Type}

/-- What a call sets `errno` to, if it fails. -/
def Answer.error? : Answer α → Option Errno
  | .ok _ => none
  | .error e => some e

/-- `errno` after a call. -/
def Answer.after (a : Answer α) (errno : Errno) : Errno := a.error?.getD errno

/-- `struct stat` -/
structure Stat where
  st_ino : Nat
  st_mode : Nat
  deriving DecidableEq, Repr

/-- A file that is read: its text, and the `errno` of the read that ends it early. -/
structure Content where
  text : Text
  failed : Option Errno
  deriving DecidableEq, Repr

/-- The lines `getline` delivers; a line in which a read fails is lost. -/
def Content.lines (c : Content) : List Text :=
  if c.failed.isSome then Input.lines (c.text.reverse.dropWhile (· != '\n')).reverse
  else Input.lines c.text

/-- A symbolic link: `stat` of what it points to, and `readlink`. -/
structure Link where
  stat : Answer Stat
  readlink : Answer Text
  deriving DecidableEq

/-- An entry of the directory `fd`. -/
structure Entry where
  d_name : Text
  readlink : Answer Text
  stat : Answer Stat
  lstat : Answer Stat
  deriving DecidableEq

/-- A directory that is read: its entries, and the `errno` of the `readdir` that ends it early. -/
structure Dir where
  entries : List Entry
  failed : Option Errno
  deriving DecidableEq

/-- A process, as the calls that are made while it is scanned see it. -/
structure Proc where
  /-- its name in `/proc` -/
  d_name : Text
  /-- `stat` of the directory of the process -/
  dir : Answer Unit
  pwuid : Answer Text
  statfile : Answer Content
  cwd : Link
  root : Link
  exe : Link
  /-- `stat` of `maps` and then of `exe`, in `file_maps` -/
  mapsStat : Answer Stat
  exeStat : Answer Stat
  mapsfile : Answer Content
  /-- `opendir` of `fd` -/
  fd : Answer Dir
  deriving DecidableEq

/-- `strerror`, with the text that matters. -/
structure Libc where
  strerror : Errno → Text
  strerror_eacces : strerror EACCES = "Permission denied".toList

/-! ## The steps of a scan -/

/-- A number, as `to_string` writes it. -/
def toText (n : Int) : Text := (toString n).toList

/-- It has digits and a sign in it. -/
theorem notMem_toText {c : Char} (hdigit : c.isDigit = false) (hminus : c ≠ '-') (n : Int) :
    c ∉ toText n := by
  have hdigits (m : Nat) : c ∉ m.repr.toList := fun h ↦ by
    have hyes : c.isDigit :=
      Nat.isDigit_of_mem_toDigits (b := 10) (n := m) (by decide) (by decide) (by simpa using h)
    rw [hdigit] at hyes
    exact absurd hyes (by decide)
  rw [toText, Int.toString_eq_repr, Int.repr_eq_if]
  split
  · exact hdigits _
  · rw [String.toList_append, List.mem_append]
    exact fun h ↦ h.elim (fun h ↦ hminus (by simpa using h)) (hdigits _)

/-- The cascade of `S_ISDIR`, `S_ISREG` and so on. -/
def typeOf (st_mode : Nat) : Text :=
  let fmt := st_mode &&& 0o170000
  if fmt = 0o040000 then "DIR".toList
  else if fmt = 0o100000 then "REG".toList
  else if fmt = 0o020000 then "CHR".toList
  else if fmt = 0o010000 then "FIFO".toList
  else if fmt = 0o140000 then "SOCK".toList
  else "unknown".toList

/-- The type and inode of a record, from a `stat` that may fail. -/
def Process.stated (file : Process) : Answer Stat → Process
  | .ok info => { file with inode := toText info.st_ino, type := typeOf info.st_mode }
  | .error _ => { file with inode := [], type := "unknown".toList }

variable (libc : Libc)

/-- `void file_type(struct process file)` -/
def fileType (file : Process) (link : Link) (errno : Errno) : List Process × Errno :=
  let errno := link.stat.after errno
  let file := file.stated link.stat
  match link.readlink with
  | .ok buf => ([{ file with name := buf }], errno)
  | .error errno =>
    if errno = ENOENT then ([], errno)
    else
      let name := file.path ++ file.dir ++ " (readlink: ".toList ++ libc.strerror errno ++ [')']
      ([{ file with name := name }], errno)

/-- The words of a line of `maps`; they keep their values where a line has fewer. -/
structure Columns where
  addr : Text
  permission : Text
  offset : Text
  device : Text
  inode : Text
  pathname : Text
  deriving DecidableEq, Repr

/-- `ss >> addr >> permission >> offset >> device >> inode >> pathname` -/
def Columns.read (c : Columns) (buf : Text) : Columns :=
  let ws := words buf
  ⟨ws[0]?.getD c.addr, ws[1]?.getD c.permission, ws[2]?.getD c.offset, ws[3]?.getD c.device,
    ws[4]?.getD c.inode, ws[5]?.getD c.pathname⟩

/-- The loop of `file_maps` over the lines. -/
def mapsLoop (file : Process) (c : Columns) : List Text → List Process
  | [] => []
  | buf :: rest =>
    let c := c.read buf
    if c.offset = "00000000".toList ∧ c.inode ≠ "0".toList ∧ c.device ≠ "00:00".toList ∧
        c.inode ≠ file.inode then
      let file := { file with inode := c.inode, name := c.pathname }
      file :: mapsLoop file c rest
    else mapsLoop file c rest

/-- `void file_maps(struct process file)` -/
def fileMaps (file : Process) (p : Proc) (errno : Errno) : List Process × Errno :=
  let errno := p.mapsStat.after errno
  let file :=
    match p.mapsStat with
    | .ok info => { file with inode := toText info.st_ino, type := typeOf info.st_mode }
    | .error _ => file
  let errno := p.exeStat.after errno
  let file :=
    match p.exeStat with
    | .ok info => { file with inode := toText info.st_ino }
    | .error _ => file
  let file := { file with fd := "mem".toList }
  match p.mapsfile with
  | .ok c => (mapsLoop file ⟨[], [], [], [], [], []⟩ c.lines, c.failed.getD errno)
  | .error errno => ([], errno)

/-- What the permissions of the link append to a descriptor. -/
def access (st_mode : Nat) : Text :=
  if st_mode &&& 0o600 = 0o600 then ['u']
  else if st_mode &&& 0o400 = 0o400 then ['r']
  else if st_mode &&& 0o200 = 0o200 then ['w']
  else []

/-- The loop of `file_fd` over the entries; a record keeps what the one before it had where a call
fails. -/
def fdLoop (file : Process) (errno : Errno) : List Entry → List Process × Errno
  | [] => ([], errno)
  | dirp :: rest =>
    if dirp.d_name = ".".toList ∨ dirp.d_name = "..".toList then fdLoop file errno rest
    else
      match dirp.readlink with
      | .error errno => fdLoop file errno rest
      | .ok buf =>
        let errno := dirp.stat.after errno
        let file := { file with name := buf }.stated dirp.stat
        let errno := dirp.lstat.after errno
        let file :=
          match dirp.lstat with
          | .ok info => { file with fd := dirp.d_name ++ access info.st_mode }
          | .error _ => file
        let (files, errno) := fdLoop file errno rest
        (file :: files, errno)

/-- The record for a directory `fd` that is not opened. -/
def noFd (file : Process) : Process :=
  { file with
    type := []
    inode := []
    name := file.path ++ file.dir ++ " (opendir: ".toList ++ libc.strerror EACCES ++ [')']
    fd := "NOFD".toList }

/-- `void file_fd(struct process file)`.  What tells that the directory is not opened is `errno`,
which may come from an earlier call.  `none`: `readdir` is given a null pointer.  For `closedir`
that is an invalid argument. -/
def fileFd (file : Process) (dp : Answer Dir) (errno : Errno) : List Process × Option Errno :=
  let errno := dp.after errno
  if errno = EACCES then
    ([noFd libc file],
      match dp with
      | .ok _ => some errno
      | .error _ => some EINVAL)
  else
    match dp with
    | .error _ => ([], none)
    | .ok dir =>
      let (files, errno) := fdLoop file errno dir.entries
      (files, some (dir.failed.getD errno))

/-- The command: the second word of the stat file, or the first if it is the only one, without its
first and last character.  Where there is no word `substr` throws. -/
def command (text : Text) : Option Text :=
  match words text with
  | [] => none
  | [command] => some ((command.drop 1).take (command.length - 2))
  | _ :: command :: _ => some ((command.drop 1).take (command.length - 2))

/-- The process number, `strtol` converted to an `int`. -/
def Proc.pid (p : Proc) : Int := atoi p.d_name

/-- The user a process belongs to. -/
def Proc.user (p : Proc) : Text :=
  match p.dir, p.pwuid with
  | .ok _, .ok pw_name => pw_name
  | _, _ => []

/-- The record `lsof` starts with. -/
def Proc.file (p : Proc) (cmd : Text) : Process where
  pid := p.pid
  path := "/proc/".toList ++ toText p.pid ++ ['/']
  dir := []
  cmd := cmd
  user := p.user
  type := []
  fd := []
  inode := []
  name := []

/-- How a process ends the program. -/
inductive Ending
  /-- `exit(1)` -/
  | exits
  /-- `substr` throws, or `readdir` is given a null pointer. -/
  | crashes
  deriving DecidableEq, Repr

/-- `void lsof(struct process file)`, with the `errno` that it leaves if it returns. -/
def lsof (p : Proc) (errno : Errno) : List Process × Except Ending Errno :=
  let errno := p.dir.after errno
  let errno :=
    match p.dir with
    | .ok _ => p.pwuid.after errno
    | .error _ => errno
  match p.statfile with
  | .error _ => ([], .error .exits)
  | .ok statfile =>
    let errno := statfile.failed.getD errno
    match command statfile.text with
    | none => ([], .error .crashes)
    | some cmd =>
      let file := p.file cmd
      let (cwd, errno) := fileType libc { file with dir := "cwd".toList } p.cwd errno
      let (root, errno) := fileType libc { file with dir := "root".toList } p.root errno
      let (exe, errno) := fileType libc { file with dir := "exe".toList } p.exe errno
      let (maps, errno) := fileMaps { file with dir := "maps".toList } p errno
      let (fd, status) := fileFd libc { file with dir := "fd".toList } p.fd errno
      (cwd ++ root ++ exe ++ maps ++ fd, status.elim (.error .crashes) .ok)

/-- The loop of `main` over the processes. -/
def scan : List Proc → Errno → List Process × Except Ending Errno
  | [], errno => ([], .ok errno)
  | p :: ps, errno =>
    match lsof libc p errno with
    | (files, .error ending) => (files, .error ending)
    | (files, .ok errno) =>
      let (rest, status) := scan ps errno
      (files ++ rest, status)

/-- The entries of `/proc` that are processes. -/
def processes (listing : List Proc) : List Proc :=
  listing.filter fun p ↦
    decide (p.d_name ≠ ".".toList ∧ p.d_name ≠ "..".toList ∧ p.pid ≠ 0)

variable {regex : Regex} (F : Filters regex)

/-- The rows that `printf` is called with for some processes, the first of them scanned with
`errno`. -/
def rows (ps : List Proc) (errno : Errno) : List Row :=
  (scan libc ps errno).1.filterMap (printResult F)

/-- What is seen of these rows in the end: all of them, or those that have left the buffer when the
program crashes, which can be as many as there are or none.  (A row that is cut off is not
counted.) -/
def Output (ps : List Proc) (errno : Errno) (out : List Row) : Prop :=
  match (scan libc ps errno).2 with
  | .error .crashes => out <+: rows libc F ps errno
  | _ => out = rows libc F ps errno

/-- What `main` hands to `printf` below its header. -/
def main (listing : List Proc) (errno : Errno) : List Text :=
  (rows libc F (processes listing) errno).map Row.line

end Lsof
