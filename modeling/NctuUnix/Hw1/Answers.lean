import NctuUnix.Lib.Taken
import NctuUnix.Hw1.Scan

/-!
# What the answers tell

A scan is a long way from the answers of the kernel to the rows.  What matters of it can be told
from the answers alone: whether a process ends the program and how, which `errno` it leaves, and
whether the filters let any of its rows through.  That is said here without the functions that do
the work, and proved of them.

## Main results

* `lsof_status`, `scan_status` — how a scan ends, and the `errno` that it leaves.
* `rows_eq_nil_iff` — the filters let no row of a process through if and only if it is `Quiet`.
-/

set_option autoImplicit false

namespace Lsof

open Input Taken

variable {regex : Regex} (libc : Libc) (F : Filters regex)

/-! ## Failures

Only the last call that fails matters for `errno`. -/

/-- The command, if the stat file can be read. -/
def Proc.cmd? (p : Proc) : Option Text :=
  match p.statfile with
  | .ok statfile => command statfile.text
  | .error _ => none

/-- The last `errno` of a link. -/
def Link.failure (l : Link) : Option Errno := l.readlink.error?.or l.stat.error?

/-- The last `errno` of a file that is read. -/
def failureOf : Answer Content → Option Errno
  | .ok c => c.failed
  | .error e => some e

/-- The last `errno` of what `lsof` asks for the user. -/
def Proc.userFailure (p : Proc) : Option Errno :=
  match p.dir with
  | .ok _ => p.pwuid.error?
  | .error e => some e

/-- The last `errno` of the calls of a process before `opendir`. -/
def Proc.failure (p : Proc) : Option Errno :=
  (failureOf p.mapsfile).or <| p.exeStat.error?.or <| p.mapsStat.error?.or <|
    p.exe.failure.or <| p.root.failure.or <| p.cwd.failure.or <|
      (failureOf p.statfile).or p.userFailure

/-- A call of the process fails, `opendir` or one before it. -/
def Proc.Fails (p : Proc) : Prop := p.failure.isSome = true ∨ p.fd.error?.isSome = true

/-- The entry is not the directory itself, nor the one above it. -/
def Entry.Proper (d : Entry) : Prop := d.d_name ≠ ".".toList ∧ d.d_name ≠ "..".toList

instance (d : Entry) : Decidable d.Proper := inferInstanceAs (Decidable (_ ∧ _))

/-- The last `errno` of an entry; where the link cannot be read nothing else is asked. -/
def Entry.failure (d : Entry) : Option Errno :=
  if d.Proper then d.readlink.error?.or (d.lstat.error?.or d.stat.error?) else none

/-- The last `errno` of some entries. -/
def lastFailure : List Entry → Option Errno
  | [] => none
  | d :: es => (lastFailure es).or d.failure

/-- The last `errno` of a directory that is read. -/
def Dir.failure (dir : Dir) : Option Errno := dir.failed.or (lastFailure dir.entries)

/-- `errno` is `EACCES` behind `opendir`: the directory is taken for one that is closed. -/
def Proc.Denied (p : Proc) (errno : Errno) : Prop := p.fd.after (p.failure.getD errno) = EACCES

instance (p : Proc) (errno : Errno) : Decidable (p.Denied errno) :=
  inferInstanceAs (Decidable (_ = _))

/-- The `errno` a process leaves.  Where there is no handle `closedir` sets it; where the directory
is taken for one that is closed its entries are not asked. -/
def Proc.leaves (p : Proc) (errno : Errno) : Errno :=
  match p.fd with
  | .error _ => EINVAL
  | .ok dir => if p.Denied errno then EACCES else dir.failure.getD (p.failure.getD errno)

/-- The `errno` some processes leave. -/
def left (ps : List Proc) (errno : Errno) : Errno := ps.foldl (fun errno p ↦ p.leaves errno) errno

/-- How a process ends the program: by `exit` where its stat file cannot be opened, by a crash where
there is no command in it, or where `opendir` fails and access is not what is missing. -/
def Proc.ending? (p : Proc) : Option Ending :=
  match p.statfile, p.fd with
  | .error _, _ => some .exits
  | .ok _, .error e => if p.cmd? = none ∨ e ≠ EACCES then some .crashes else none
  | .ok _, .ok _ => if p.cmd? = none then some .crashes else none

/-! ## `errno` through the steps of a scan -/

theorem Answer.after_eq {α : Type} (a : Answer α) (e : Errno) : a.after e = a.error?.getD e := rfl

/-- A link that is read leaves its last failure. -/
theorem fileType_snd (file : Process) (l : Link) (e : Errno) :
    (fileType libc file l e).2 = l.failure.getD e := by
  rw [fileType, Link.failure, Option.getD_or, ← Answer.after_eq l.stat]
  rcases l.readlink with e' | buf
  · by_cases he : e' = ENOENT
    · simp only [he, if_true]
      rfl
    · simp only [he, if_false]
      rfl
  · rfl

/-- Its record does not depend on what `errno` was. -/
theorem fileType_fst (file : Process) (l : Link) (e e' : Errno) :
    (fileType libc file l e).1 = (fileType libc file l e').1 := by
  rw [fileType, fileType]
  rcases l.readlink with c | buf
  · by_cases hc : c = ENOENT
    · simp only [hc, if_true]
    · simp only [hc, if_false]
  · rfl

theorem fileMaps_snd (file : Process) (p : Proc) (e : Errno) :
    (fileMaps file p e).2
      = ((failureOf p.mapsfile).or (p.exeStat.error?.or p.mapsStat.error?)).getD e := by
  rw [fileMaps, Option.getD_or, Option.getD_or, ← Answer.after_eq p.mapsStat,
    ← Answer.after_eq p.exeStat]
  rcases p.mapsfile with c | c
  · rfl
  · rfl

theorem fileMaps_fst (file : Process) (p : Proc) (e e' : Errno) :
    (fileMaps file p e).1 = (fileMaps file p e').1 := by
  rw [fileMaps, fileMaps]
  rcases p.mapsfile with c | c
  · rfl
  · rfl

theorem fdLoop_fst (es : List Entry) : ∀ (file : Process) (e e' : Errno),
    (fdLoop file e es).1 = (fdLoop file e' es).1 := by
  induction es with
  | nil => exact fun _ _ _ ↦ rfl
  | cons dirp rest ih =>
    intro file e e'
    rw [fdLoop, fdLoop]
    split
    · exact ih _ _ _
    · split
      · rfl
      · exact congrArg (List.cons _) (ih _ _ _)

/-- The entries leave their last failure. -/
theorem fdLoop_snd (es : List Entry) : ∀ (file : Process) (e : Errno),
    (fdLoop file e es).2 = (lastFailure es).getD e := by
  induction es with
  | nil => exact fun _ _ ↦ rfl
  | cons d es ih =>
    intro file e
    rw [fdLoop, lastFailure, Option.getD_or, Entry.failure]
    by_cases hdots : d.d_name = ".".toList ∨ d.d_name = "..".toList
    · rw [if_pos hdots, ih, if_neg fun h : d.Proper ↦ hdots.elim h.1 h.2]
      rfl
    · rw [not_or] at hdots
      rw [if_neg (not_or.2 hdots), if_pos (show d.Proper from hdots)]
      rcases hlink : d.readlink with e' | buf
      · exact ih _ _
      · have hnone : Answer.error? (.ok buf : Answer Text) = none := rfl
        rw [hnone, Option.none_or, Option.getD_or, ← Answer.after_eq d.stat,
          ← Answer.after_eq d.lstat]
        exact ih _ _

/-- The records of the links and of the memory map. -/
def Proc.links (p : Proc) (cmd : Text) : List Process :=
  (fileType libc { p.file cmd with dir := "cwd".toList } p.cwd 0).1 ++
    (fileType libc { p.file cmd with dir := "root".toList } p.root 0).1 ++
    (fileType libc { p.file cmd with dir := "exe".toList } p.exe 0).1 ++
    (fileMaps { p.file cmd with dir := "maps".toList } p 0).1

/-- **The scan of a process.**  Only the descriptors depend on what `errno` was. -/
theorem lsof_of_cmd {p : Proc} {cmd : Text} (h : p.cmd? = some cmd) (e : Errno) :
    lsof libc p e =
      (p.links libc cmd ++
          (fileFd libc { p.file cmd with dir := "fd".toList } p.fd (p.failure.getD e)).1,
        (fileFd libc { p.file cmd with dir := "fd".toList } p.fd (p.failure.getD e)).2.elim
          (.error .crashes) .ok) := by
  rw [Proc.cmd?] at h
  rw [Proc.failure, Proc.userFailure, lsof, Proc.links]
  rcases hs : p.statfile with c | statfile
  · rw [hs] at h
    exact absurd h (by simp)
  · rw [hs] at h
    have hcmd : command statfile.text = some cmd := h
    simp only [hcmd, Option.getD_or, fileType_snd, fileMaps_snd, failureOf]
    rw [fileType_fst libc _ p.cwd _ 0, fileType_fst libc _ p.root _ 0,
      fileType_fst libc _ p.exe _ 0, fileMaps_fst _ p _ 0]
    rcases p.dir with c | u
    · rfl
    · rfl

theorem lsof_of_no_cmd {p : Proc} (h : p.cmd? = none) (e : Errno) :
    (lsof libc p e).1 = [] := by
  rw [Proc.cmd?] at h
  rw [lsof]
  rcases hs : p.statfile with c | statfile
  · rfl
  · rw [hs] at h
    have hcmd : command statfile.text = none := h
    simp only [hcmd]

theorem fileFd_of_ok (file : Process) (d : Dir) (e : Errno) : fileFd libc file (.ok d) e =
    if e = EACCES then ([noFd libc file], some e)
    else ((fdLoop file e d.entries).1, some (d.failed.getD (fdLoop file e d.entries).2)) := rfl

/-- The program ends in `file_fd` where `opendir` fails and access is not what is missing. -/
theorem fileFd_ends_iff (file : Process) (dp : Answer Dir) (e : Errno) :
    (fileFd libc file dp e).2 = none ↔ ∃ c, dp = .error c ∧ c ≠ EACCES := by
  rcases dp with c | d
  · have hafter : Answer.after (.error c : Answer Dir) e = c := rfl
    simp only [fileFd, hafter]
    by_cases hc : c = EACCES
    · simp [hc]
    · simp [hc]
  · rw [fileFd_of_ok]
    split
    · simp
    · simp

/-- What the scan of a process comes to. -/
def Proc.status (p : Proc) (errno : Errno) : Except Ending Errno :=
  p.ending?.elim (.ok (p.leaves errno)) .error

/-- **How the scan of a process ends.** -/
theorem lsof_status (p : Proc) (e : Errno) : (lsof libc p e).2 = p.status e := by
  rw [Proc.status, Proc.ending?]
  rcases hs : p.statfile with c | statfile
  · rw [lsof, hs]
    rfl
  rcases hcmd : p.cmd? with _ | cmd
  · have hnone : command statfile.text = none := by
      rw [Proc.cmd?, hs] at hcmd
      exact hcmd
    rw [lsof, hs]
    simp only [hnone]
    rcases p.fd with c | dir <;> rfl
  · rw [lsof_of_cmd libc hcmd]
    rcases hfd : p.fd with c | dir
    · have hleaves : p.leaves e = EINVAL := by rw [Proc.leaves, hfd]
      by_cases hc : c = EACCES
      · obtain rfl := hc
        simp only [hleaves, reduceCtorEq, ne_eq, not_true_eq_false, or_self, if_false]
        rfl
      · have hends := (fileFd_ends_iff libc { p.file cmd with dir := "fd".toList } (.error c)
          (p.failure.getD e)).2 ⟨c, rfl, hc⟩
        simp only [hends, ne_eq, hc, not_false_eq_true, or_true, if_true]
        rfl
    · have hdenied : p.Denied e ↔ p.failure.getD e = EACCES := by
        rw [Proc.Denied, hfd]
        rfl
      rw [fileFd_of_ok, fdLoop_snd, ← Option.getD_or, ← Dir.failure]
      by_cases he : p.failure.getD e = EACCES
      · simp [Proc.leaves, hfd, hdenied, he]
      · simp [Proc.leaves, hfd, hdenied, he]

/-- **How the scan of a list ends**: as its first process that ends the program does. -/
theorem scan_status (ps : List Proc) : ∀ e : Errno, (scan libc ps e).2 =
    (ps.findSome? Proc.ending?).elim (.ok (left ps e)) .error := by
  induction ps with
  | nil => exact fun _ ↦ rfl
  | cons p ps ih =>
    intro e
    have hp := lsof_status libc p e
    rw [scan, List.findSome?_cons]
    rw [Proc.status] at hp
    rcases hlsof : lsof libc p e with ⟨files, ending | e'⟩
    · rw [hlsof] at hp
      rcases hend : p.ending? with _ | x
      · rw [hend] at hp
        exact absurd hp (by simp)
      · rw [hend] at hp
        exact hp
    · rw [hlsof] at hp
      rcases hend : p.ending? with _ | x
      · rw [hend] at hp
        obtain rfl := Except.ok.inj hp
        exact ih _
      · rw [hend] at hp
        exact absurd hp (by simp)

/-! ## What the filters let through -/

/-- The type that a `stat` tells. -/
def typeColumn : Answer Stat → Text
  | .ok info => typeOf info.st_mode
  | .error _ => "unknown".toList

/-- The name that is shown for a link; `none`: there is nothing to show. -/
def Link.name? (path : Text) (l : Link) : Option Text :=
  match l.readlink with
  | .ok buf => some buf
  | .error e =>
    if e = ENOENT then none
    else some (path ++ " (readlink: ".toList ++ libc.strerror e ++ [')'])

/-- The link is not shown. -/
def Link.Quiet (cmd path : Text) (l : Link) : Prop :=
  ∀ name ∈ l.name? libc path, ¬ F.Lets cmd (typeColumn l.stat) name

/-- What has been read when the lines of a memory map are gone through. -/
def columnsOf : Columns → List Text → List Columns
  | _, [] => []
  | c, buf :: rest => c.read buf :: columnsOf (c.read buf) rest

/-- A file is mapped there from its beginning on. -/
def Columns.Begins (c : Columns) : Prop :=
  c.offset = "00000000".toList ∧ c.inode ≠ "0".toList ∧ c.device ≠ "00:00".toList

instance (c : Columns) : Decidable c.Begins := inferInstanceAs (Decidable (_ ∧ _ ∧ _))

/-- The beginnings of files in the memory map. -/
def Proc.beginnings (p : Proc) : List Columns :=
  match p.mapsfile with
  | .ok c => (columnsOf ⟨[], [], [], [], [], []⟩ c.lines).filter fun c ↦ decide c.Begins
  | .error _ => []

/-- The inode that is remembered at first. -/
def Proc.remembered (p : Proc) : Text :=
  match p.exeStat with
  | .ok info => toText info.st_ino
  | .error _ =>
    match p.mapsStat with
    | .ok info => toText info.st_ino
    | .error _ => []

/-- The type of all mappings, that of the file `maps`. -/
def Proc.mapsType (p : Proc) : Text :=
  match p.mapsStat with
  | .ok info => typeOf info.st_mode
  | .error _ => []

/-- No beginning of a file is shown whose inode is not the one in front of it. -/
def Proc.MapsQuiet (p : Proc) (cmd : Text) : Prop :=
  ∀ pre c post, p.beginnings = pre ++ c :: post →
    c.inode ≠ (pre.map (·.inode)).getLastD p.remembered → ¬ F.Lets cmd p.mapsType c.pathname

/-- The entry is not shown. -/
def Entry.Quiet (cmd : Text) (d : Entry) : Prop :=
  d.Proper → ∀ buf, d.readlink = .ok buf → ¬ F.Lets cmd (typeColumn d.stat) buf

/-- The directory of a process. -/
def Proc.path (p : Proc) : Text := "/proc/".toList ++ toText p.pid ++ ['/']

/-- A closed directory is not shown. -/
def Proc.ClosedQuiet (p : Proc) (cmd : Text) : Prop :=
  ¬ F.Lets cmd [] (p.path ++ "fd".toList ++ " (opendir: ".toList ++ libc.strerror EACCES ++ [')'])

/-- No entry of a directory that is opened is shown. -/
def Proc.OpenQuiet (p : Proc) (cmd : Text) : Prop :=
  ∀ dir, p.fd = .ok dir → ∀ d ∈ dir.entries, d.Quiet F cmd

/-- Nothing is shown of the descriptors, whether the directory is taken for a closed one or not. -/
def Proc.FdQuiet (p : Proc) : Prop :=
  ∀ cmd, p.cmd? = some cmd → p.ClosedQuiet libc F cmd ∧ p.OpenQuiet F cmd

/-- Nothing is shown of the process `cmd`. -/
structure Proc.QuietAs (p : Proc) (errno : Errno) (cmd : Text) : Prop where
  cwd : p.cwd.Quiet libc F cmd (p.path ++ "cwd".toList)
  root : p.root.Quiet libc F cmd (p.path ++ "root".toList)
  exe : p.exe.Quiet libc F cmd (p.path ++ "exe".toList)
  maps : p.MapsQuiet F cmd
  closed : p.Denied errno → p.ClosedQuiet libc F cmd
  entries : ¬ p.Denied errno → p.OpenQuiet F cmd

/-- The filters let no row of the process through, if it is scanned with `errno`. -/
def Proc.Quiet (p : Proc) (errno : Errno) : Prop :=
  ∀ cmd, p.cmd? = some cmd → p.QuietAs libc F errno cmd

/-! ### The records -/

/-- The filters let none of the records through. -/
def Silent (files : List Process) : Prop := ∀ file ∈ files, printResult F file = none

variable {libc F}

theorem printResult_eq_none_iff {file : Process} :
    printResult F file = none ↔ ¬ F.Lets file.cmd file.type file.name := by
  rw [← Option.not_isSome_iff_eq_none, printResult_isSome, Filters.Lets]

theorem silent_iff {files : List Process} :
    Silent F files ↔ files.filterMap (printResult F) = [] := by
  rw [List.filterMap_eq_nil_iff, Silent]

theorem silent_append {files files' : List Process} :
    Silent F (files ++ files') ↔ Silent F files ∧ Silent F files' := List.forall_mem_append

theorem silent_cons {file : Process} {files : List Process} :
    Silent F (file :: files) ↔ printResult F file = none ∧ Silent F files := List.forall_mem_cons

theorem stated_columns (file : Process) (a : Answer Stat) :
    (file.stated a).cmd = file.cmd ∧ (file.stated a).type = typeColumn a ∧
      (file.stated a).name = file.name := by
  rcases a with e | info
  · exact ⟨rfl, rfl, rfl⟩
  · exact ⟨rfl, rfl, rfl⟩

theorem silent_fileType (file : Process) (l : Link) (e : Errno) :
    Silent F (fileType libc file l e).1 ↔ l.Quiet libc F file.cmd (file.path ++ file.dir) := by
  have hone (name : Text) : Silent F [{ file.stated l.stat with name := name }] ↔
      ∀ name' ∈ some name, ¬ F.Lets file.cmd (typeColumn l.stat) name' := by
    obtain ⟨hcmd, htype, -⟩ := stated_columns file l.stat
    rw [Silent, List.forall_mem_singleton, printResult_eq_none_iff, hcmd, htype]
    simp
  have hpath : (file.stated l.stat).path = file.path ∧ (file.stated l.stat).dir = file.dir := by
    rcases l.stat with c | info
    · exact ⟨rfl, rfl⟩
    · exact ⟨rfl, rfl⟩
  rw [fileType, Link.Quiet, Link.name?]
  rcases hlink : l.readlink with c | buf
  · by_cases hc : c = ENOENT
    · simp [hc, Silent]
    · simp only [hc, if_false]
      rw [← hpath.1, ← hpath.2]
      exact hone _
  · exact hone buf

/-- **The loop of `file_maps`**, on any lines. -/
theorem mapsLoop_eq_changes (lines : List Text) : ∀ (file : Process) (c : Columns),
    mapsLoop file c lines =
      (changes (·.inode) file.inode ((columnsOf c lines).filter fun c ↦ decide c.Begins)).map
        fun c ↦ { file with inode := c.inode, name := c.pathname } := by
  induction lines with
  | nil => exact fun _ _ ↦ rfl
  | cons buf rest ih =>
    intro file c
    rw [mapsLoop, columnsOf]
    dsimp only
    by_cases hbegins : (c.read buf).Begins
    · rw [List.filter_cons_of_pos (by simpa using hbegins)]
      by_cases hkey : (c.read buf).inode = file.inode
      · rw [if_neg fun h ↦ h.2.2.2 hkey, ih, changes_cons_of_eq hkey]
      · rw [if_pos ⟨hbegins.1, hbegins.2.1, hbegins.2.2, hkey⟩, ih, changes_cons_of_ne hkey]
        rfl
    · rw [List.filter_cons_of_neg (by simpa using hbegins),
        if_neg fun h ↦ hbegins ⟨h.1, h.2.1, h.2.2.1⟩, ih]

theorem fileMaps_eq_changes (p : Proc) (cmd : Text) (e : Errno) :
    (fileMaps { p.file cmd with dir := "maps".toList } p e).1 =
      (changes (·.inode) p.remembered p.beginnings).map fun c ↦
        { p.file cmd with
          dir := "maps".toList, type := p.mapsType, fd := "mem".toList, inode := c.inode,
          name := c.pathname } := by
  rw [fileMaps, Proc.beginnings, Proc.remembered, Proc.mapsType]
  rcases p.mapsfile with c | c
  · rfl
  · rcases p.exeStat with e' | info <;> rcases p.mapsStat with e'' | info' <;>
      exact mapsLoop_eq_changes _ _ _

theorem silent_fileMaps (p : Proc) (cmd : Text) (e : Errno) :
    Silent F (fileMaps { p.file cmd with dir := "maps".toList } p e).1 ↔ p.MapsQuiet F cmd := by
  rw [fileMaps_eq_changes, Silent, List.forall_mem_map, Proc.MapsQuiet]
  constructor
  · intro h pre c post heq hne
    exact printResult_eq_none_iff.1 (h c (mem_changes.2 ⟨pre, post, heq, hne⟩))
  · intro h c hc
    obtain ⟨pre, post, heq, hne⟩ := mem_changes.1 hc
    exact printResult_eq_none_iff.2 (h pre c post heq hne)

theorem silent_fdLoop (es : List Entry) : ∀ (file : Process) (e : Errno),
    Silent F (fdLoop file e es).1 ↔ ∀ d ∈ es, d.Quiet F file.cmd := by
  induction es with
  | nil => simp [fdLoop, Silent]
  | cons d es ih =>
    intro file e
    rw [fdLoop, List.forall_mem_cons, Entry.Quiet]
    by_cases hdots : d.d_name = ".".toList ∨ d.d_name = "..".toList
    · have hproper : ¬ d.Proper := fun h ↦ hdots.elim h.1 h.2
      rw [if_pos hdots, ih]
      exact (and_iff_right fun h ↦ absurd h hproper).symm
    · have hproper : d.Proper := not_or.1 hdots
      rw [if_neg hdots]
      rcases hlink : d.readlink with c | buf
      · rw [ih]
        exact (and_iff_right fun _ buf h ↦ absurd h (by simp)).symm
      · obtain ⟨hcmd, htype, hname⟩ := stated_columns { file with name := buf } d.stat
        have hthis : (∀ buf', (.ok buf : Answer Text) = .ok buf' →
            ¬ F.Lets file.cmd (typeColumn d.stat) buf') ↔
              ¬ F.Lets file.cmd (typeColumn d.stat) buf := by simp
        dsimp only
        rcases d.lstat with c | info
        · rw [silent_cons, ih, printResult_eq_none_iff, hcmd, htype, hname,
            forall_prop_of_true hproper, hthis]
        · rw [silent_cons, ih, printResult_eq_none_iff]
          dsimp only
          rw [hcmd, htype, hname, forall_prop_of_true hproper, hthis]

theorem silent_noFd (p : Proc) (cmd : Text) :
    printResult F (noFd libc { p.file cmd with dir := "fd".toList }) = none ↔
      p.ClosedQuiet libc F cmd :=
  printResult_eq_none_iff

theorem rows_singleton (p : Proc) (e : Errno) :
    rows libc F [p] e = (lsof libc p e).1.filterMap (printResult F) := by
  rw [rows, scan]
  rcases lsof libc p e with ⟨files, _ | e'⟩
  · rfl
  · simp [scan]

/-- The descriptors. -/
theorem silent_fileFd (p : Proc) (cmd : Text) (e : Errno) :
    Silent F (fileFd libc { p.file cmd with dir := "fd".toList } p.fd (p.failure.getD e)).1 ↔
      (p.Denied e → p.ClosedQuiet libc F cmd) ∧ (¬ p.Denied e → p.OpenQuiet F cmd) := by
  have hclosed : Silent F [noFd libc { p.file cmd with dir := "fd".toList }] ↔
      p.ClosedQuiet libc F cmd := by
    rw [Silent, List.forall_mem_singleton, silent_noFd]
  have hyes {P A B : Prop} (h : P) : A ↔ (P → A) ∧ (¬ P → B) :=
    ⟨fun hA ↦ ⟨fun _ ↦ hA, fun hno ↦ absurd h hno⟩, fun hboth ↦ hboth.1 h⟩
  have hno {P A B : Prop} (h : ¬ P) : B ↔ (P → A) ∧ (¬ P → B) :=
    ⟨fun hB ↦ ⟨fun hP ↦ absurd hP h, fun _ ↦ hB⟩, fun hboth ↦ hboth.2 h⟩
  rcases hfd : p.fd with c | dir
  · have hdenied : p.Denied e ↔ c = EACCES := by
      rw [Proc.Denied, hfd]
      rfl
    rw [hdenied]
    by_cases hc : c = EACCES
    · obtain rfl := hc
      exact hclosed.trans (hyes rfl)
    · have hopen : p.OpenQuiet F cmd := fun dir hdir ↦ absurd (hfd.symm.trans hdir) (by simp)
      have hnone : (fileFd libc { p.file cmd with dir := "fd".toList } (.error c)
          (p.failure.getD e)).1 = [] := by
        simp [fileFd, Answer.after, Answer.error?, hc]
      rw [hnone]
      exact (iff_of_true (fun _ h ↦ absurd h List.not_mem_nil) hopen).trans (hno hc)
  · have hdenied : p.Denied e ↔ p.failure.getD e = EACCES := by
      rw [Proc.Denied, hfd]
      rfl
    have hopen : p.OpenQuiet F cmd ↔ ∀ d ∈ dir.entries, d.Quiet F cmd := by
      simp [Proc.OpenQuiet, hfd]
    rw [fileFd_of_ok, hdenied, hopen]
    by_cases he : p.failure.getD e = EACCES
    · rw [if_pos he]
      exact hclosed.trans (hyes he)
    · rw [if_neg he]
      exact (silent_fdLoop dir.entries _ _).trans (hno he)

/-- **Nothing is shown of a process** if and only if it is quiet. -/
theorem rows_eq_nil_iff (p : Proc) (e : Errno) : rows libc F [p] e = [] ↔ p.Quiet libc F e := by
  rw [rows_singleton, ← silent_iff, Proc.Quiet]
  rcases hcmd : p.cmd? with _ | cmd
  · rw [lsof_of_no_cmd libc hcmd]
    exact iff_of_true (fun _ h ↦ absurd h List.not_mem_nil) fun _ h ↦ absurd h (by simp)
  · rw [lsof_of_cmd libc hcmd, Proc.links]
    dsimp only
    rw [silent_append, silent_append, silent_append, silent_append, silent_fileType,
      silent_fileType, silent_fileType, silent_fileMaps, silent_fileFd]
    constructor
    · rintro ⟨⟨⟨⟨hcwd, hroot⟩, hexe⟩, hmaps⟩, hclosed, hopen⟩ cmd' ⟨⟩
      exact ⟨hcwd, hroot, hexe, hmaps, hclosed, hopen⟩
    · intro h
      obtain ⟨hcwd, hroot, hexe, hmaps, hclosed, hopen⟩ := h cmd rfl
      exact ⟨⟨⟨⟨hcwd, hroot⟩, hexe⟩, hmaps⟩, hclosed, hopen⟩

end Lsof
