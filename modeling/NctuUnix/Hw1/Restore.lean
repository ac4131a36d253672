import NctuUnix.Hw1.Descriptors
import NctuUnix.Hw1.GetMaps

/-!
# The path that is restored

`lsof_dumpinfo` of `hw1.c` has one path for all files of a process.  Each step puts the name of its
file behind `/proc/<pid>/` and is to take it off again, whatever the system answers, so that each
row is about its own file.

That the targets of links are paths, or names without a slash, and the maps in their format, is what
the kernel promises; that the static buffers are `Clean` at the start is what `lsofDumpinfo_clean`
says of a process that was looked at before.

## Main results

* `getMaps_restores`, `getMaps_eq_some_iff` — what `get_maps` leaves, and when it returns.
* `lsofDumpinfo_clean` — the static buffers stay clean.
* `contained_iff` — a failure affects only its own file, if and only if no link among the three is
  read while `stat` fails on it, the map ends the loop of `get_maps`, no descriptor that can be
  listed comes after one on which `stat` fails, the links of all that are reached can be read, and
  no slash is left in a buffer behind a link whose directory is shown.
* `contained_fails` — five systems on which it is not so.
-/

set_option autoImplicit false

namespace Dump

open Input CString Leftover
open ProcMaps (Mapping)
open Lsof (mapsText)

/-! ## What is claimed -/

/-- The states after the links. -/
def afterCwd (sys : Sys) (s : State) : State := (getFile sys "cwd".toList s).2

def afterRoot (sys : Sys) (s : State) : State := (getFile sys "root".toList (afterCwd sys s)).2

def afterExe (sys : Sys) (s : State) : State := (getFile sys "exe".toList (afterRoot sys s)).2

/-- The state after the map, if `get_maps` returns. -/
def afterMaps (sys : Sys) (stack : Stack) (s : State) : Option State :=
  (getMaps sys stack.pre_inode stack.pre_file (afterExe sys s)).2

/-- A failure affects only its own file: every step returns, and the path is back after it; every
descriptor that can be listed is; each row is made from its own path, its own `stat` and its own
link; and nothing is written outside its array. -/
structure Contained (sys : Sys) (stack : Stack) (s : State) : Prop where
  cwd : (afterCwd sys s).info.path = s.info.path
  root : (afterRoot sys s).info.path = s.info.path
  exe : (afterExe sys s).info.path = s.info.path
  maps : ∃ s', afterMaps sys stack s = some s' ∧ s'.info.path = s.info.path
  cwdRow : ∀ c ∈ (getFile sys "cwd".toList s).1,
    FromLink sys (s.info.path ++ "cwd".toList) "cwd".toList c
  rootRow : ∀ c ∈ (getFile sys "root".toList (afterCwd sys s)).1,
    FromLink sys (s.info.path ++ "root".toList) "rtd".toList c
  exeRow : ∀ c ∈ (getFile sys "exe".toList (afterRoot sys s)).1,
    FromLink sys (s.info.path ++ "exe".toList) "txt".toList c
  mapsRows : ∀ c ∈ (getMaps sys stack.pre_inode stack.pre_file (afterExe sys s)).1,
    c.info.path = s.info.path ++ "maps".toList
  fds : ∀ s', afterMaps sys stack s = some s' → ListsFds sys s.info.path (getFds sys s').1
  inside : ∀ s', afterMaps sys stack s = some s' → (getFds sys s').2.inside = true

/-! ## When it is right -/

/-- The three files `get_file` knows. -/
def fileNames : List Text := ["cwd".toList, "root".toList, "exe".toList]

/-- The answers that do no damage, for the directory `path` and what the arrays hold at first. -/
structure Undamaged (sys : Sys) (stack : Stack) (path fileBuff fdBuff : Text) : Prop where
  cwd : sys.Sound (path ++ "cwd".toList)
  root : sys.Sound (path ++ "root".toList)
  exe : sys.Sound (path ++ "exe".toList)
  apart : Each FileApart id (view fileBuff) (fileNames.filterMap fun f ↦ sys.readlink (path ++ f))
  maps : ∀ content, sys.fopen (path ++ "maps".toList) = some content →
    ∃ ms, content = mapsText ms ∧ Ends (stack.pre_inode, stack.pre_file) ms
  fds : ∀ names, sys.opendir (fdPath path) = some names →
    FdsUndamaged sys (fdPath path) (view fdBuff) (entries names)

/-- The map of a process, if it can be opened, is as the kernel makes it. -/
def Sys.KernelMaps (sys : Sys) (path : Text) : Prop :=
  ∀ content, sys.fopen (path ++ "maps".toList) = some content → ∃ ms, content = mapsText ms

/-! ## The memory map -/

variable (sys : Sys) {s : State}

theorem mapsCall_info {info : PidInfo} {inode file : Text} {tok : Option Text} :
    ∀ c ∈ mapsCall info inode file tok, c.info = info := by
  intro c hc
  rcases tok with _ | t
  · rw [List.mem_singleton.1 hc]
  · rw [mapsCall] at hc
    split at hc
    · rw [List.mem_singleton.1 hc]
    · exact absurd hc List.not_mem_nil

theorem mapsLoop_info {info : PidInfo} (lines : List Text) :
    ∀ (bc : Nat) (pre_inode pre_file buff : Text),
      ∀ c ∈ (mapsLoop info bc pre_inode pre_file buff lines).1, c.info = info := by
  induction lines with
  | nil =>
    intro bc pre_inode pre_file buff c hc
    rw [mapsLoop] at hc
    repeat' split at hc
    all_goals exact absurd hc List.not_mem_nil
  | cons line rest ih =>
    intro bc pre_inode pre_file buff c hc
    rw [mapsLoop] at hc
    dsimp only at hc
    repeat' split at hc
    all_goals first
      | exact absurd hc List.not_mem_nil
      | exact ih _ _ _ _ c hc
      | exact (List.mem_append.1 hc).elim (mapsCall_info c) (ih _ _ _ _ c)

/-- What `get_maps` does to the state. -/
theorem getMaps_info (pre_inode pre_file : Text) (s : State) :
    (∀ c ∈ (getMaps sys pre_inode pre_file s).1, c.info = s.info.append "maps".toList) ∧
      ∀ s', (getMaps sys pre_inode pre_file s).2 = some s' →
        s' = { s with info := (s.info.append "maps".toList).cut } := by
  rw [getMaps]
  rcases sys.fopen (s.info.append "maps".toList).path with _ | content
  · exact ⟨fun c hc ↦ absurd hc List.not_mem_nil, fun s' h ↦ (Option.some.inj h).symm⟩
  · refine ⟨fun c hc ↦ mapsLoop_info _ _ _ _ _ c hc, fun s' h ↦ ?_⟩
    dsimp only at h
    split at h
    · exact (Option.some.inj h).symm
    · exact absurd h (by simp)

/-- `get_maps` prints from the path of the map, and if it returns all is as it was. -/
theorem getMaps_restores (hs : s.AtParent) (pre_inode pre_file : Text) :
    (∀ c ∈ (getMaps sys pre_inode pre_file s).1, c.info.path = s.info.path ++ "maps".toList) ∧
      ∀ s', (getMaps sys pre_inode pre_file s).2 = some s' → s' = s := by
  obtain ⟨hcalls, hend⟩ := getMaps_info sys pre_inode pre_file s
  refine ⟨fun c hc ↦ ?_, fun s' h ↦ ?_⟩
  · rw [hcalls c hc]
    rfl
  · rw [hend s' h, cut_append hs]

/-- It returns from every map that ends its loop. -/
theorem getMaps_eq_some_iff (hs : s.AtParent) (hmaps : sys.KernelMaps s.info.path)
    (pre_inode pre_file : Text) : (getMaps sys pre_inode pre_file s).2 = some s ↔
      ∀ content, sys.fopen (s.info.path ++ "maps".toList) = some content →
        ∃ ms, content = mapsText ms ∧ Ends (pre_inode, pre_file) ms := by
  have hsome : (getMaps sys pre_inode pre_file s).2 = some s ↔
      (getMaps sys pre_inode pre_file s).2.isSome = true := by
    rw [Option.isSome_iff_exists]
    refine ⟨fun h ↦ ⟨s, h⟩, ?_⟩
    rintro ⟨s', h⟩
    rw [h, (getMaps_restores sys hs pre_inode pre_file).2 s' h]
  rw [hsome]
  rcases hopen : sys.fopen (s.info.path ++ "maps".toList) with _ | content
  · refine iff_of_true ?_ fun content h ↦ absurd h (by simp)
    have hopen' : sys.fopen (s.info.append "maps".toList).path = none := hopen
    rw [getMaps, hopen']
    rfl
  · constructor
    · intro h content' hcontent
      obtain rfl := Option.some.inj hcontent
      obtain ⟨ms, rfl⟩ := hmaps content hopen
      exact ⟨ms, rfl, (getMaps_returns_iff hopen).1 h⟩
    · intro h
      obtain ⟨ms, rfl, hends⟩ := h content rfl
      exact (getMaps_returns_iff hopen).2 hends

/-! ## One process after the other -/

/-- Both buffers are clean. -/
def State.Tidy (s : State) : Prop := Clean s.fileBuff ∧ Clean s.fdBuff

variable {sys} {file fd : Text}

theorem getFile_tidy (hlinks : sys.KernelLinks) (hfile : (file, fd) ∈ fileColumns) (h : s.Tidy) :
    (getFile sys file s).2.Tidy := by
  rw [getFile_eq sys hfile, fileBranch]
  dsimp only
  rcases hlink : sys.readlink (s.info.append file).path with _ | link
  · exact h
  · have hclean := clean_readInto h.1 (hlinks _ link hlink)
    dsimp only
    rcases hstat : sys.stat (s.info.append file).path with _ | st
    · exact ⟨hclean, h.2⟩
    · exact ⟨hclean, h.2⟩

theorem fdsLoop_tidy (hlinks : sys.KernelLinks) (names : List Text) : ∀ s : State,
    s.Tidy → (fdsLoop sys s names).2.Tidy := by
  induction names with
  | nil => exact fun _ h ↦ h
  | cons d names ih =>
    intro s h
    by_cases hdots : d = ".".toList ∨ d = "..".toList
    · rw [fdsLoop_dots hdots]
      exact ih s h
    · have hnext : (s.afterFd (sys.readlink (s.info.path ++ d))).Tidy :=
        ⟨h.1, clean_readFd h.2 _ (hlinks _)⟩
      rcases hstat : sys.stat (s.info.path ++ d) with _ | st
      · rw [fdsLoop_stop hdots hstat]
        exact hnext
      · rw [fdsLoop_next hdots hstat]
        exact ih _ hnext

theorem getFds_tidy (hlinks : sys.KernelLinks) (h : s.Tidy) : (getFds sys s).2.Tidy := by
  rcases hopen : sys.opendir (fdPath s.info.path) with _ | names
  · have hopen' : sys.opendir (s.info.append "fd/".toList).path = none := hopen
    rw [getFds]
    dsimp only
    rw [hopen']
    exact h
  · rw [getFds_of_open sys hopen]
    exact fdsLoop_tidy hlinks names (atFds s) h

/-- **The static buffers stay clean**, from one process to the next. -/
theorem lsofDumpinfo_clean (hlinks : sys.KernelLinks) {pid : Int} {stack : Stack}
    {fileBuff fdBuff fileBuff' fdBuff' : Text} {inside : Bool} (hfile : Clean fileBuff)
    (hfd : Clean fdBuff)
    (h : (lsofDumpinfo sys pid stack fileBuff fdBuff).2 = some (fileBuff', fdBuff', inside)) :
    Clean fileBuff' ∧ Clean fdBuff' := by
  rw [lsofDumpinfo] at h
  rcases hopen : sys.fopen (procPath pid ++ "status".toList) with _ | status
  · rw [hopen] at h
    obtain ⟨rfl, rfl, -⟩ : fileBuff = fileBuff' ∧ fdBuff = fdBuff' ∧ true = inside := by
      simpa using h
    exact ⟨hfile, hfd⟩
  · rw [hopen] at h
    dsimp only at h
    rcases hfill : fillInfo sys pid stack.info status with _ | info
    · rw [hfill] at h
      exact absurd h (by simp)
    · rw [hfill] at h
      obtain ⟨s', hs', heq⟩ := Option.map_eq_some_iff.1 h
      obtain ⟨rfl, rfl, -⟩ : s'.fileBuff = fileBuff' ∧ s'.fdBuff = fdBuff' ∧
          s'.inside = inside := by simpa using heq
      have hstart : State.Tidy ⟨info, fileBuff, fdBuff, true⟩ := ⟨hfile, hfd⟩
      have hexe := getFile_tidy hlinks exe_mem
        (getFile_tidy hlinks root_mem (getFile_tidy hlinks cwd_mem hstart))
      rw [dumpFiles] at hs'
      dsimp only at hs'
      split at hs'
      · exact absurd hs' (by simp)
      · rename_i s₄ hmaps
        obtain rfl := Option.some.inj hs'
        refine getFds_tidy hlinks ?_
        rw [(getMaps_info sys _ _ _).2 s₄ (congrArg Prod.snd hmaps)]
        exact hexe

/-! ## Main theorem -/

theorem fillInfo_path {pid : Int} {info₀ info : PidInfo} {status : Text}
    (h : fillInfo sys pid info₀ status = some info) :
    info.path = procPath pid ∧ info.parent_length = info.path.length := by
  obtain ⟨info', hstore, rfl⟩ := Option.map_eq_some_iff.1 h
  rw [storeCmdline] at hstore
  rcases htok : (tokens "\t\n".toList ((getlines status).headD []))[1]? with _ | tok
  · rw [htok] at hstore
    exact absurd hstore (by simp)
  · rw [htok, Option.some_inj] at hstore
    have huser (info : PidInfo) : (storeUser sys info).path = info.path ∧
        (storeUser sys info).parent_length = info.parent_length := by
      rw [storeUser]
      rcases sys.stat info.path with _ | st
      · exact ⟨rfl, rfl⟩
      · rcases hpw : sys.getpwuid st.st_uid with _ | pw
        · simp only [hpw, and_self]
        · simp only [hpw, and_self]
    have hpath : info'.path = procPath pid ++ "status".toList := by
      rw [← hstore]
      exact congrArg (· ++ "status".toList) (huser _).1
    have hlen : info'.parent_length = (procPath pid).length := by
      rw [← hstore]
      exact (huser _).2
    have hcut : info'.cut.path = procPath pid := by
      rw [PidInfo.cut, PidInfo.cutAt]
      dsimp only
      rw [hpath, hlen, List.take_left' rfl]
    exact ⟨hcut, by rw [hcut]; exact hlen⟩

/-- **When a failure affects only its own file.**  `info` is as `lsof_dumpinfo` has filled it in,
and the static buffers are as other processes have left them. -/
theorem contained_iff {pid : Int} {stack : Stack} {status : Text} {info : PidInfo}
    (hfill : fillInfo sys pid stack.info status = some info) (hlinks : sys.KernelLinks)
    (hmaps : sys.KernelMaps (procPath pid)) {fileBuff fdBuff : Text} (hfile : Clean fileBuff)
    (hfd : Clean fdBuff) : Contained sys stack ⟨info, fileBuff, fdBuff, true⟩ ↔
      Undamaged sys stack (procPath pid) fileBuff fdBuff := by
  obtain ⟨hpath, hlen⟩ := fillInfo_path hfill
  rw [← hpath] at hmaps ⊢
  have hs : State.AtParent ⟨info, fileBuff, fdBuff, true⟩ := hlen
  generalize hstate : (⟨info, fileBuff, fdBuff, true⟩ : State) = s at hs ⊢
  have hinfo : info = s.info := by rw [← hstate]
  have hfileBuff : fileBuff = s.fileBuff := by rw [← hstate]
  have hfdBuff : fdBuff = s.fdBuff := by rw [← hstate]
  have hinside : s.inside = true := by rw [← hstate]
  rw [hinfo] at hmaps ⊢
  rw [hfileBuff] at hfile ⊢
  rw [hfdBuff] at hfd ⊢
  have hall : ∀ x ∈ fileColumns, x ∈ fileColumns := fun _ hx ↦ hx
  have hown := linksOwn_iff hlinks fileColumns hall s hfile hs
  have hlast : afterLinks sys s fileColumns = afterExe sys s := rfl
  -- the state after the links, if these do no damage
  have hafter (hsound : ∀ x ∈ fileColumns, sys.Sound (s.info.path ++ x.1)) :
      (afterExe sys s).AtParent ∧ (afterExe sys s).info = s.info ∧
        (afterExe sys s).fdBuff = s.fdBuff := by
    obtain ⟨hi, hb⟩ := afterLinks_of_sound fileColumns hall s hs hsound
    rw [hlast] at hi hb
    refine ⟨?_, hi, hb⟩
    rw [State.AtParent, hi]
    exact hs
  constructor
  · intro h
    obtain ⟨s', hs', -⟩ := h.maps
    have hin' := getFds_inside sys (h.inside s' hs')
    rw [(getMaps_info sys _ _ _).2 s' hs'] at hin'
    obtain ⟨-, hsound, hapart⟩ := hown.1
      ⟨⟨⟨h.cwd, h.cwdRow⟩, ⟨h.root, h.rootRow⟩, ⟨h.exe, h.exeRow⟩, trivial⟩, hin'⟩
    obtain ⟨hs₃, hi, hb⟩ := hafter hsound
    obtain rfl := (getMaps_restores sys hs₃ _ _).2 s' hs'
    have hends := (getMaps_eq_some_iff sys hs₃ (by rwa [hi]) stack.pre_inode stack.pre_file).1 hs'
    have hfds := (getFds_contained_iff sys hlinks (by rwa [hb])).1
      ⟨by rw [hi]; exact h.fds _ hs', h.inside _ hs'⟩
    rw [hi] at hends hfds
    rw [hb] at hfds
    exact ⟨hsound _ cwd_mem, hsound _ root_mem, hsound _ exe_mem, hapart, hends, hfds.2⟩
  · intro h
    have hsound : ∀ x ∈ fileColumns, sys.Sound (s.info.path ++ x.1) := by
      rw [fileColumns, List.forall_mem_cons, List.forall_mem_cons, List.forall_mem_singleton]
      exact ⟨h.cwd, h.root, h.exe⟩
    obtain ⟨⟨⟨hc, hcRow⟩, ⟨hr, hrRow⟩, ⟨he, heRow⟩, -⟩, hin⟩ := hown.2 ⟨hinside, hsound, h.apart⟩
    obtain ⟨hs₃, hi, hb⟩ := hafter hsound
    have hmapsRows := (getMaps_restores sys hs₃ stack.pre_inode stack.pre_file).1
    have hreturns := (getMaps_eq_some_iff sys hs₃ (by rwa [hi]) stack.pre_inode
      stack.pre_file).2 (by rw [hi]; exact h.maps)
    have hclean : Clean (afterExe sys s).fdBuff := by rwa [hb]
    have hfds := (getFds_contained_iff sys hlinks hclean).2 ⟨hin, by rw [hi, hb]; exact h.fds⟩
    rw [hi] at hmapsRows hfds
    refine ⟨hc, hr, he, ⟨_, hreturns, congrArg PidInfo.path hi⟩, hcRow, hrRow, heRow, hmapsRows,
      fun s' hs' ↦ ?_, fun s' hs' ↦ ?_⟩
    · obtain rfl := Option.some.inj (hreturns.symm.trans hs')
      exact hfds.1
    · obtain rfl := Option.some.inj (hreturns.symm.trans hs')
      exact hfds.2

/-! ### Some systems -/

/-- A system with the process 1, with the links and the `stat` of some files, the entries of its
directory, and its map.  Other paths are no links. -/
def answering (files : List (Text × Option Text × Option Stat)) (names : List Text)
    (map : Option (List Mapping)) : Sys where
  stat p := ((files.lookup p).map Prod.snd).getD (some ⟨7, 0o100644, 0⟩)
  readlink p := (files.lookup p).bind Prod.fst
  opendir p := if p = "/proc/1/fd/".toList then some names else none
  fopen p :=
    if p = "/proc/1/status".toList then some "Name:\tcat\n".toList
    else if p = "/proc/1/maps".toList then map.map mapsText else none
  getpwuid _ := some "root".toList
  regexec _ _ := true

/-- Empty arrays. -/
def clear : Stack :=
  ⟨⟨0, List.replicate 11 nul, List.replicate 10 nul, [], 0, rfl, rfl⟩, [], []⟩

theorem kernelLinks_answering {files : List (Text × Option Text × Option Stat)}
    (h : ∀ x ∈ files, ∀ link ∈ x.2.1, Target link) (names : List Text)
    (map : Option (List Mapping)) : (answering files names map).KernelLinks := by
  intro path link hlink
  obtain ⟨y, hy, htarget⟩ := Option.bind_eq_some_iff.1 hlink
  obtain ⟨pre, post, rfl, -⟩ := List.lookup_eq_some_iff.1 hy
  exact h (path, y) (by simp) link htarget

theorem kernelMaps_answering (files : List (Text × Option Text × Option Stat)) (names : List Text)
    (map : Option (List Mapping)) : (answering files names map).KernelMaps (procPath 1) := by
  intro content hopen
  have hmap : map.map mapsText = some content := hopen
  obtain ⟨ms, -, rfl⟩ := Option.map_eq_some_iff.1 hmap
  exact ⟨ms, rfl⟩

/-- The files of a process with a terminal, a pipe, and a descriptor that is gone. -/
def catFiles : List (Text × Option Text × Option Stat) :=
  [("/proc/1/cwd".toList, some "/home/u".toList, some ⟨2, 0o40755, 0⟩),
    ("/proc/1/root".toList, some "/".toList, some ⟨1, 0o40755, 0⟩),
    ("/proc/1/exe".toList, some "/usr/bin/cat".toList, some ⟨9, 0o100755, 0⟩),
    ("/proc/1/fd/0".toList, some "/dev/pts/0".toList, some ⟨3, 0o20620, 0⟩),
    ("/proc/1/fd/1".toList, some "pipe:[77]".toList, some ⟨77, 0o10600, 0⟩),
    ("/proc/1/fd/2".toList, some "/dev/null".toList, none)]

/-- A system on which the map ends the loop, and nothing comes after the descriptor that is gone. -/
def catSys : Sys :=
  answering catFiles [".".toList, "0".toList, "1".toList, "2".toList]
    (some [Lsof.libm, anon, anon, anon, anon])

theorem contained_iff_cat : Contained catSys clear ⟨catInfo, [], [], true⟩ := by
  have hfill : fillInfo catSys 1 clear.info "Name:\tcat\n".toList = some catInfo := rfl
  refine (contained_iff hfill (kernelLinks_answering (by decide +kernel) _ _)
    (kernelMaps_answering _ _ _) clean_nil clean_nil).2 ⟨fun _ ↦ rfl, fun _ ↦ rfl, fun _ ↦ rfl,
      ?_, ?_, ?_⟩
  · have hlinks : (fileNames.filterMap fun f ↦ catSys.readlink (procPath 1 ++ f)) =
        ["/home/u".toList, "/".toList, "/usr/bin/cat".toList] := by decide +kernel
    rw [hlinks]
    -- behind the root there is `home`
    exact ⟨⟨by decide +kernel, by decide +kernel⟩, ⟨by decide +kernel, by decide +kernel⟩,
      ⟨by decide +kernel, by decide +kernel⟩, trivial⟩
  · intro content hopen
    refine ⟨[Lsof.libm, anon, anon, anon, anon], (Option.some.inj hopen).symm, _, List.prefix_rfl,
      ?_, ?_⟩
    · decide +kernel
    · decide +kernel
  · intro names hopen
    obtain rfl := Option.some.inj hopen
    have hanswers : answers catSys (fdPath (procPath 1)) (reached catSys (fdPath (procPath 1))
        (entries [".".toList, "0".toList, "1".toList, "2".toList])) =
          [("/dev/pts/0".toList, some ⟨3, 0o20620, 0⟩), ("pipe:[77]".toList, some ⟨77, 0o10600, 0⟩),
            ("/dev/null".toList, none)] := by decide +kernel
    refine ⟨(listed_iff catSys _ _).1 (by decide +kernel), by decide +kernel, ?_⟩
    rw [hanswers]
    refine ⟨⟨by decide +kernel, fun _ _ ↦ .inr (.inl (by decide +kernel))⟩,
      ⟨by decide +kernel, fun _ _ ↦ .inr (.inl (by decide +kernel))⟩,
      ⟨by decide +kernel, fun st h ↦ absurd h (by simp)⟩, trivial⟩

/-- The working directory is gone, but not its link. -/
def cwdGone : Sys := answering [("/proc/1/cwd".toList, some "/tmp/x".toList, none)] [] none

/-- The descriptor 3 is gone, but not its link; the descriptor 4 is there. -/
def fdGone : Sys :=
  answering [("/proc/1/fd/3".toList, some "/tmp/x".toList, none),
    ("/proc/1/fd/4".toList, some "/tmp/y".toList, some ⟨4, 0o100644, 0⟩)]
    ["3".toList, "4".toList] none

/-- The link of the descriptor 4 cannot be read. -/
def fdDenied : Sys :=
  answering [("/proc/1/fd/3".toList, some "/usr/lib/x".toList, some ⟨3, 0o100644, 0⟩),
    ("/proc/1/fd/4".toList, none, some ⟨4, 0o100644, 0⟩)]
    ["3".toList, "4".toList] none

/-- The working directory has a longer path than the root. -/
def rootBehind : Sys :=
  answering [("/proc/1/cwd".toList, some "/usr/lib/x".toList, some ⟨2, 0o40755, 0⟩),
    ("/proc/1/root".toList, some "/".toList, some ⟨1, 0o40755, 0⟩)] [] none

/-- The map is empty. -/
def noMap : Sys := answering [] [] (some [])

/-- The process 1 before its links are read. -/
def atLinks : State := ⟨catInfo, [], [], true⟩

/-- **Failures that affect other files.**  The path is not restored; a descriptor is lost; a row
shows a part of the directory of another link, and a byte in front of the buffer is written; the
root is shown as a part of the working directory; the program does not get past the map. -/
theorem contained_fails :
    ((afterCwd cwdGone atLinks).info.path = "/proc/1/cwd".toList ∧
      ¬ Contained cwdGone clear atLinks) ∧
    ((fdGone.Good "/proc/1/fd/4".toList ∧ (getFds fdGone atLinks).1.length = 0) ∧
      ¬ Contained fdGone clear atLinks) ∧
    (((getFds fdDenied atLinks).1.map Call.file = ["/usr/lib".toList, "/usr".toList] ∧
        (getFds fdDenied atLinks).2.inside = false) ∧
      ¬ Contained fdDenied clear atLinks) ∧
    ((getFile rootBehind "root".toList (afterCwd rootBehind atLinks)).1.map Call.file =
        ["/usr".toList] ∧
      ¬ Contained rootBehind clear atLinks) ∧
    ((getMaps noMap [] [] atLinks).2.isSome = false ∧ ¬ Contained noMap clear atLinks) := by
  refine ⟨⟨by decide +kernel, fun h ↦ ?_⟩, ⟨by decide +kernel, fun h ↦ ?_⟩,
    ⟨by decide +kernel, fun h ↦ ?_⟩, ⟨by decide +kernel, fun h ↦ ?_⟩,
    ⟨by decide +kernel, fun h ↦ ?_⟩⟩
  · exact absurd h.cwd (by decide +kernel)
  · exact absurd ((h.fds _ rfl).complete _ rfl) (by decide +kernel)
  · exact absurd (h.inside _ rfl) (by decide +kernel)
  · have hall : ∀ t ∈ (getFile rootBehind "root".toList
        (afterCwd rootBehind atLinks)).1.map Call.file, t = "/".toList := by
      intro t ht
      obtain ⟨c, hc, rfl⟩ := List.mem_map.1 ht
      obtain ⟨-, ⟨link, st, hlink, -, hfile⟩ | ⟨hnone, -⟩⟩ := h.rootRow c hc
      · have hroot : link = "/".toList := (Option.some.inj hlink).symm
        rw [hfile, hroot]
        rfl
      · exact absurd hnone (by decide +kernel)
    exact absurd hall (by decide +kernel)
  · obtain ⟨s', hs', -⟩ := h.maps
    have hnone : (afterMaps noMap clear atLinks).isSome = false := by decide +kernel
    rw [hs'] at hnone
    exact absurd hnone (by simp)

end Dump
