import NctuUnix.Lib.CString
import NctuUnix.Hw1.Scan

/-!
# The scan of one process, in C

`hw1.c` is a second program for the same job.  `lsof_dumpinfo` fills a `struct pid_info_t`, whose
`path` is extended in place for every file that is looked at and cut back afterwards, and
`print_info` prints the columns from it.

What the system answers is a function of the path that is asked for, a `Sys`.  The functions return
the calls of `print_info`, and the state the next one finds; `none` stands for a program that reads
through a null pointer, or a string that has no end within its array.  The state remembers whether
a name that is taken from a link has been written past the end of its array, or a null byte in front
of one; other arrays are taken to be large enough.
-/

set_option autoImplicit false

namespace Dump

open Input CString
open Lsof (typeOf toText)

/-! ## Data -/

/-- `struct stat` -/
structure Stat where
  st_ino : BitVec 64
  st_mode : Nat
  st_uid : BitVec 32
  deriving DecidableEq, Repr

/-- The answers of the system, and what the user database and `regexec` say. -/
structure Sys where
  stat : Text → Option Stat
  readlink : Text → Option Text
  opendir : Text → Option (List Text)
  fopen : Text → Option Text
  getpwuid : BitVec 32 → Option Text
  /-- The extended regular expression matches somewhere in the string. -/
  regexec : Text → Text → Bool

/-- `option`, with `arg1`, `arg2` and `arg3`. -/
structure Options where
  command : Option Text
  type : Option Text
  name : Option Text
  deriving DecidableEq, Repr

/-- `struct pid_info_t`.  The arrays `user` and `cmdline` are bytes; of `path` there is the string
in it.  `path` comes right behind them. -/
structure PidInfo where
  pid : Int
  user : Text
  cmdline : Text
  path : Text
  parent_length : Nat
  user_length : user.length = 11
  cmdline_length : cmdline.length = 10

namespace PidInfo

variable (info : PidInfo)

/-- The string at `info->cmdline`. -/
def cmdlineString : Text := cstr (info.cmdline ++ (info.path ++ [nul]))

/-- The string at `info->user`. -/
def userString : Text := cstr (info.user ++ (info.cmdline ++ (info.path ++ [nul])))

/-- `strncat(info->path, src, sizeof(info->path))` -/
def append (src : Text) : PidInfo := { info with path := info.path ++ src }

/-- `info->path[n] = '\0'` -/
def cutAt (n : Nat) : PidInfo := { info with path := info.path.take n }

/-- `info->path[info->parent_length] = '\0'` -/
def cut : PidInfo := info.cutAt info.parent_length

end PidInfo

/-- The arguments of a call of `print_info`. -/
structure Call where
  info : PidInfo
  fd : Text
  type : Text
  inode : Text
  file : Text

/-- The columns of a row. -/
structure Row where
  command : Text
  pid : Int
  user : Text
  fd : Text
  type : Text
  node : Text
  name : Text
  deriving DecidableEq, Repr

variable (sys : Sys)

/-- `void print_info(struct pid_info_t* info, char *FD, char *TYPE, char *inode, char *file)` -/
def printInfo (option : Options) (c : Call) : Option Row :=
  if option.command.all (fun arg1 ↦ sys.regexec arg1 c.info.cmdlineString) ∧
      option.type.all (fun arg2 ↦ decide (c.type = arg2)) ∧
      option.name.all (fun arg3 ↦ sys.regexec arg3 c.file) then
    some ⟨c.info.cmdlineString, c.info.pid, c.info.userString, c.fd, c.type, c.inode, c.file⟩
  else none

/-- The `info` of a process, and the static buffers of `get_file` and `get_fds`. -/
structure State where
  info : PidInfo
  fileBuff : Text
  fdBuff : Text
  /-- Every byte that was written so far is within its array. -/
  inside : Bool

/-- `sprintf(inode, "%ld", st_ino)` -/
def inodeOf (st : Stat) : Text := toText st.st_ino.toInt

def denied : Text := " (Permission denied)".toList

/-! ## The links -/

/-- What a link is read into: the target without a null byte over what was there before; the name
that is taken from it; and the buffer with a null byte behind the target. -/
def readInto (link buff : Text) : Text × Text :=
  let (path, buff) := dirname (overwrite link buff)
  (path, buff.set link.length nul)

/-- The name fits `char path[BUF_MAX]`. -/
def fits (path : Text) : Bool := decide (path.length < 1024)

/-- The branches of `get_file`, for the three files, with the column FD. -/
def fileBranch (fd : Text) (s : State) : List Call × State :=
  match sys.readlink s.info.path with
  | none =>
    let info := s.info.append denied
    ([⟨info, fd, "unknown".toList, [], info.path⟩], { s with info := info.cut })
  | some link =>
    let (path, buff) := readInto link s.fileBuff
    let s := { s with fileBuff := buff, inside := s.inside && fits path }
    match sys.stat s.info.path with
    | none => ([], s)
    | some st => ([⟨s.info, fd, typeOf st.st_mode, inodeOf st, path⟩],
        { s with info := s.info.cut })

/-- `void get_file(char *file, struct pid_info_t* info)` -/
def getFile (file : Text) (s : State) : List Call × State :=
  let s := { s with info := s.info.append file }
  if file = "cwd".toList then fileBranch sys "cwd".toList s
  else if file = "root".toList then fileBranch sys "rtd".toList s
  else if file = "exe".toList then fileBranch sys "txt".toList s
  else ([], { s with info := s.info.cut })

/-! ## The memory map -/

/-- How the loop of `get_maps` ends. -/
inductive End
  /-- At the end of the file. -/
  | finished
  /-- With lines that have not been looked at. -/
  | early
  /-- With a token that is not there. -/
  | noToken
  /-- With a token that leaves no room for its null byte. -/
  | unterminated
  /-- The last line is there once more. -/
  | again
  deriving DecidableEq, Repr

/-- The delimiters of the fields of a line. -/
def blanks : Text := " \t\n".toList

/-- The row for a mapping, from the tokens behind its name. -/
def mapsCall (info : PidInfo) (inode file : Text) : Option Text → List Call
  | none => [⟨info, "mem".toList, "REG".toList, inode, file⟩]
  | some token =>
    if token = "(deleted)".toList then [⟨info, "DEL".toList, "unknown".toList, inode, file⟩] else []

/-- The loop of `get_maps` over the lines.  At the end of the file `getline` fails, which is not
noticed, and `line_buff` is as the last round has left it. -/
def mapsLoop (info : PidInfo) (break_condition : Nat) (pre_inode pre_file line_buff : Text) :
    List Text → List Call × End
  | [] =>
    if 4 ≤ break_condition then ([], .finished)
    else if (tokens blanks line_buff)[4]?.isNone then ([], .noToken)
    else ([], .again)
  | line :: rest =>
    if 4 ≤ break_condition then ([], .early)
    else
      let next := used blanks line
      match (tokens blanks line)[4]? with
      | none => ([], .noToken)
      | some inode =>
        if 1024 ≤ inode.length then ([], .unterminated)
        else if inode = pre_inode then mapsLoop info break_condition pre_inode pre_file next rest
        else if inode = "0".toList then
          mapsLoop info (break_condition + 1) pre_inode pre_file next rest
        else
          match (tokens blanks line)[5]? with
          | none => ([], .noToken)
          | some file =>
            if 4096 ≤ file.length then ([], .unterminated)
            else if file = pre_file then mapsLoop info 0 pre_inode pre_file next rest
            else
              let (calls, e) := mapsLoop info 0 inode file next rest
              (mapsCall info inode file (tokens blanks line)[6]? ++ calls, e)

/-- `void get_maps(struct pid_info_t* info)`; `pre_inode` and `pre_file` are not initialised. -/
def getMaps (pre_inode pre_file : Text) (s : State) : List Call × Option State :=
  let info := s.info.append "maps".toList
  match sys.fopen info.path with
  | none => ([], some { s with info := info.cut })
  | some content =>
    let (calls, e) := mapsLoop info 0 pre_inode pre_file [] (getlines content)
    (calls, if e = .finished ∨ e = .early then some { s with info := info.cut } else none)

/-! ## The descriptors -/

/-- What the permissions append to a descriptor. -/
def access (st_mode : Nat) : Text :=
  if st_mode &&& 0o600 = 0o600 then ['u']
  else if st_mode &&& 0o600 = 0o400 then ['r']
  else if st_mode &&& 0o600 = 0o200 then ['w']
  else []

/-- The name of what has no directory. -/
def fdName (path type : Text) (st : Stat) : Text :=
  let path :=
    if path = ".".toList ∧ type = "FIFO".toList then "pipe:[".toList ++ inodeOf st ++ [']']
    else path
  if type = "SOCK".toList then "socket:[".toList ++ inodeOf st ++ [']'] else path

/-- The name that is taken, `buff` behind it, and whether all of this is written within the arrays.
If the link is not read `buff_size` is -1, and the null byte goes to the byte in front of `buff`. -/
def readFd (buff : Text) : Option Text → Text × Text × Bool
  | some link => ((readInto link buff).1, (readInto link buff).2, fits (readInto link buff).1)
  | none => ((dirname buff).1, (dirname buff).2, false)

/-- The loop of `get_fds` over the entries. -/
def fdsLoop (s : State) : List Text → List Call × State
  | [] => ([], s)
  | d_name :: rest =>
    if d_name = ".".toList ∨ d_name = "..".toList then fdsLoop s rest
    else
      let previous_length := s.info.path.length
      let info := s.info.append d_name
      let (path, buff, inside) := readFd s.fdBuff (sys.readlink info.path)
      let s := { s with info := info, fdBuff := buff, inside := s.inside && inside }
      match sys.stat info.path with
      | none => ([], s)
      | some st =>
        let type := typeOf st.st_mode
        let (calls, s) := fdsLoop { s with info := info.cutAt previous_length } rest
        (⟨info, d_name ++ access st.st_mode, type, inodeOf st, fdName path type st⟩ :: calls, s)

/-- `void get_fds(struct pid_info_t* info)` -/
def getFds (s : State) : List Call × State :=
  let info := s.info.append "fd/".toList
  let previous_length := info.parent_length
  let info := { info with parent_length := info.parent_length + 3 }
  match sys.opendir info.path with
  | none =>
    let info := info.append denied
    ([⟨info, "NOFD".toList, [], [], info.path⟩],
      { s with info := { info with parent_length := previous_length }.cut })
  | some names => fdsLoop sys { s with info := info } names

/-! ## A process -/

/-- The user, or what stands in its place. -/
def storeUser (info : PidInfo) : PidInfo :=
  match sys.stat info.path with
  | none => { info with
      user := (overwrite ("unknown".toList ++ [nul]) info.user).take 11
      user_length := by simp [overwrite, info.user_length] }
  | some st =>
    match sys.getpwuid st.st_uid with
    | some pw_name => { info with user := strncpy 11 pw_name, user_length := length_strncpy }
    | none => { info with
        user := (overwrite ((toText st.st_uid.toInt).take 10 ++ [nul]) info.user).take 11
        user_length := by
          simp only [overwrite, List.length_take, List.length_append, List.length_drop,
            info.user_length, List.length_singleton]
          omega }

/-- The name of the process, from the first line of `status`. -/
def storeCmdline (status : Text) (info : PidInfo) : Option PidInfo :=
  match (tokens "\t\n".toList ((getlines status).headD []))[1]? with
  | none => none
  | some token => some { info with cmdline := strncpy 10 token, cmdline_length := length_strncpy }

/-- The path of a process. -/
def procPath (pid : Int) : Text := "/proc/".toList ++ toText pid ++ ['/']

/-- What `lsof_dumpinfo` has on its stack: `info` and the arrays of `get_maps`. -/
structure Stack where
  info : PidInfo
  pre_inode : Text
  pre_file : Text

/-- `info` as `lsof_dumpinfo` fills it in, for the text of `status`. -/
def fillInfo (pid : Int) (info : PidInfo) (status : Text) : Option PidInfo :=
  let path := procPath pid
  let info := { info with pid := pid, path := path, parent_length := path.length }
  (storeCmdline status ((storeUser sys info).append "status".toList)).map PidInfo.cut

/-- The steps of `lsof_dumpinfo` once `info` is filled in. -/
def dumpFiles (stack : Stack) (s : State) : List Call × Option State :=
  let (cwd, s) := getFile sys "cwd".toList s
  let (root, s) := getFile sys "root".toList s
  let (exe, s) := getFile sys "exe".toList s
  match getMaps sys stack.pre_inode stack.pre_file s with
  | (maps, none) => (cwd ++ root ++ exe ++ maps, none)
  | (maps, some s) =>
    let (fds, s) := getFds sys s
    (cwd ++ root ++ exe ++ maps ++ fds, some s)

/-- `void lsof_dumpinfo(pid_t pid)`, with the static buffers and whether all was written within the
arrays; `none`: the program ends. -/
def lsofDumpinfo (pid : Int) (stack : Stack) (fileBuff fdBuff : Text) :
    List Call × Option (Text × Text × Bool) :=
  match sys.fopen (procPath pid ++ "status".toList) with
  | none => ([], some (fileBuff, fdBuff, true))
  | some status =>
    match fillInfo sys pid stack.info status with
    | none => ([], none)
    | some info =>
      let (calls, s) := dumpFiles sys stack ⟨info, fileBuff, fdBuff, true⟩
      (calls, s.map fun s ↦ (s.fileBuff, s.fdBuff, s.inside))

/-- `info` for a process 1 of `root` with the name `cat`. -/
def catInfo : PidInfo :=
  ⟨1, strncpy 11 "root".toList, strncpy 10 "cat".toList, "/proc/1/".toList, 8, rfl, rfl⟩

end Dump
