import NctuUnix.Hw1.Restore

/-!
# The columns COMMAND and USER, in C

`struct pid_info_t` has eleven bytes for the user and ten for the name of the process, and the path
behind them.  `strncpy` fills them, and puts a null byte at the end only where the name is shorter.

## Main results

* `lsofDumpinfo_keeps` — in all calls of `print_info` the two arrays are as they were filled in.
* `bounded_iff` — the columns show the first nine and ten bytes whatever the path is, if and only if
  the name of the process has at most nine bytes up to its first tab, and none behind them that
  should be shown, and the name of the user has at most ten.
* `bounded_fails` — a name of eleven bytes, with the path behind it.
-/

set_option autoImplicit false

namespace Dump

open Input CString
open Lsof (toText)

/-! ## What is claimed -/

/-- The text of `status`, from the first line on. -/
def statusText (name rest : Text) : Text := "Name:\t".toList ++ (name ++ '\n' :: rest)

/-- What is to be shown as the user. -/
def userText (sys : Sys) (pid : Int) : Text :=
  match sys.stat (procPath pid) with
  | none => "unknown".toList
  | some st => (sys.getpwuid st.st_uid).getD (toText st.st_uid.toInt)

/-- The columns show the beginnings of the names. -/
def ShowsNames (name user : Text) (info : PidInfo) : Prop :=
  info.cmdlineString = name.take 9 ∧ info.userString = user.take 10

/-- They do so whatever is stored as the path, and in every call of `print_info`. -/
structure Bounded (sys : Sys) (pid : Int) (stack : Stack) (name rest : Text) : Prop where
  filled : ∃ info, fillInfo sys pid stack.info (statusText name rest) = some info ∧
    ∀ path, ShowsNames name (userText sys pid) { info with path := path }
  printed : ∀ fileBuff fdBuff, ∀ c ∈ (lsofDumpinfo sys pid stack fileBuff fdBuff).1,
    ShowsNames name (userText sys pid) c.info

/-! ## When it is right -/

/-- The part of a name in front of its first tab. -/
def beforeTab (name : Text) : Text := name.takeWhile (· != '\t')

/-- The names that fit: what the system calls the user is not longer than ten bytes, and the name
of the process is not empty, not longer than nine bytes up to its first tab, and ends there unless
these are nine. -/
structure NamesFit (sys : Sys) (pid : Int) (name : Text) : Prop where
  start : beforeTab name ≠ []
  short : (beforeTab name).length ≤ 9
  whole : beforeTab name = name ∨ (beforeTab name).length = 9
  user : ∀ st pw_name, sys.stat (procPath pid) = some st → sys.getpwuid st.st_uid = some pw_name →
    pw_name.length ≤ 10

/-! ## The arrays are not changed -/

/-- The same bytes for both names. -/
def SameNames (i j : PidInfo) : Prop := i.user = j.user ∧ i.cmdline = j.cmdline

theorem SameNames.trans {i j k : PidInfo} (h : SameNames i j) (h' : SameNames j k) :
    SameNames i k :=
  ⟨h.1.trans h'.1, h.2.trans h'.2⟩

/-- A step that prints with the names of the state it starts in, and ends with them. -/
def Keeps (s : State) (r : List Call × State) : Prop :=
  (∀ c ∈ r.1, SameNames c.info s.info) ∧ SameNames r.2.info s.info

variable (sys : Sys)

theorem getFile_keeps (file : Text) (s : State) : Keeps s (getFile sys file s) := by
  have hbranch (fd : Text) :
      Keeps s (fileBranch sys fd { s with info := s.info.append file }) := by
    rw [fileBranch]
    dsimp only
    rcases sys.readlink (s.info.append file).path with _ | link
    · refine ⟨fun c hc ↦ ?_, ⟨rfl, rfl⟩⟩
      rw [List.mem_singleton.1 hc]
      exact ⟨rfl, rfl⟩
    · dsimp only
      rcases sys.stat (s.info.append file).path with _ | st
      · exact ⟨fun c hc ↦ absurd hc List.not_mem_nil, ⟨rfl, rfl⟩⟩
      · refine ⟨fun c hc ↦ ?_, ⟨rfl, rfl⟩⟩
        rw [List.mem_singleton.1 hc]
        exact ⟨rfl, rfl⟩
  rw [getFile]
  dsimp only
  split
  · exact hbranch _
  · split
    · exact hbranch _
    · split
      · exact hbranch _
      · exact ⟨fun c hc ↦ absurd hc List.not_mem_nil, ⟨rfl, rfl⟩⟩

theorem getMaps_keeps (pre_inode pre_file : Text) (s : State) :
    (∀ c ∈ (getMaps sys pre_inode pre_file s).1, SameNames c.info s.info) ∧
      ∀ s', (getMaps sys pre_inode pre_file s).2 = some s' → SameNames s'.info s.info := by
  obtain ⟨hcalls, hend⟩ := getMaps_info sys pre_inode pre_file s
  refine ⟨fun c hc ↦ ?_, fun s' h ↦ ?_⟩
  · rw [hcalls c hc]
    exact ⟨rfl, rfl⟩
  · rw [hend s' h]
    exact ⟨rfl, rfl⟩

theorem fdsLoop_keeps (names : List Text) : ∀ s : State, Keeps s (fdsLoop sys s names) := by
  induction names with
  | nil => exact fun s ↦ ⟨fun c hc ↦ absurd hc List.not_mem_nil, ⟨rfl, rfl⟩⟩
  | cons d names ih =>
    intro s
    by_cases hdots : d = ".".toList ∨ d = "..".toList
    · rw [fdsLoop_dots hdots]
      exact ih s
    · rcases hstat : sys.stat (s.info.path ++ d) with _ | st
      · rw [fdsLoop_stop hdots hstat]
        exact ⟨fun c hc ↦ absurd hc List.not_mem_nil, ⟨rfl, rfl⟩⟩
      · obtain ⟨hcalls, hend⟩ := ih (s.afterFd (sys.readlink (s.info.path ++ d)))
        rw [fdsLoop_next hdots hstat]
        refine ⟨fun c hc ↦ ?_, hend⟩
        rcases List.mem_cons.1 hc with rfl | hc
        · exact ⟨rfl, rfl⟩
        · exact hcalls c hc

theorem getFds_keeps (s : State) : Keeps s (getFds sys s) := by
  rcases hopen : sys.opendir (fdPath s.info.path) with _ | names
  · rw [getFds]
    dsimp only
    have hclosed : sys.opendir (s.info.append "fd/".toList).path = none := hopen
    rw [hclosed]
    refine ⟨fun c hc ↦ ?_, ⟨rfl, rfl⟩⟩
    rw [List.mem_singleton.1 hc]
    exact ⟨rfl, rfl⟩
  · rw [getFds_of_open sys hopen]
    exact fdsLoop_keeps sys names (atFds s)

/-- The calls of `print_info`, step by step. -/
theorem dumpFiles_calls (stack : Stack) (s : State) : (dumpFiles sys stack s).1 =
    (getFile sys "cwd".toList s).1 ++ (getFile sys "root".toList (afterCwd sys s)).1 ++
      (getFile sys "exe".toList (afterRoot sys s)).1 ++
      (getMaps sys stack.pre_inode stack.pre_file (afterExe sys s)).1 ++
      ((getMaps sys stack.pre_inode stack.pre_file (afterExe sys s)).2.map fun s' ↦
        (getFds sys s').1).getD [] := by
  rcases hm : getMaps sys stack.pre_inode stack.pre_file (afterExe sys s) with ⟨maps, _ | s'⟩
  · rw [afterExe, afterRoot, afterCwd] at hm
    rw [dumpFiles]
    dsimp only
    rw [hm]
    exact (List.append_nil _).symm
  · rw [afterExe, afterRoot, afterCwd] at hm
    rw [dumpFiles]
    dsimp only
    rw [hm]
    rfl

/-- **The arrays through a scan.**  Every call of `print_info` finds the names as they were at the
start. -/
theorem dumpFiles_keeps (stack : Stack) (s : State) :
    ∀ c ∈ (dumpFiles sys stack s).1, SameNames c.info s.info := by
  obtain ⟨hcwd, h₁⟩ := getFile_keeps sys "cwd".toList s
  obtain ⟨hroot, h₂⟩ := getFile_keeps sys "root".toList (afterCwd sys s)
  obtain ⟨hexe, h₃⟩ := getFile_keeps sys "exe".toList (afterRoot sys s)
  obtain ⟨hmaps, h₄⟩ := getMaps_keeps sys stack.pre_inode stack.pre_file (afterExe sys s)
  have hr : SameNames (afterRoot sys s).info s.info := h₂.trans h₁
  have he : SameNames (afterExe sys s).info s.info := h₃.trans hr
  intro c hc
  rw [dumpFiles_calls] at hc
  simp only [List.mem_append] at hc
  rcases hc with (((hc | hc) | hc) | hc) | hc
  · exact hcwd c hc
  · exact (hroot c hc).trans h₁
  · exact (hexe c hc).trans hr
  · exact (hmaps c hc).trans he
  · rcases hs' : (getMaps sys stack.pre_inode stack.pre_file (afterExe sys s)).2 with _ | s'
    · rw [hs'] at hc
      exact absurd hc List.not_mem_nil
    · rw [hs'] at hc
      exact ((getFds_keeps sys s').1 c hc).trans ((h₄ s' hs').trans he)

/-! ## Reading the arrays -/

variable {sys} {pid : Int} {name rest : Text}

/-- A token of the line of the name, and what is read of it from ten bytes. -/
theorem cmdline_eq_iff {tok path : Text} (htok : nul ∉ tok) (hpre : tok <+: name) :
    cstr (strncpy 10 tok ++ path) = name.take 9 ↔
      tok.length ≤ 9 ∧ (tok = name ∨ tok.length = 9) := by
  obtain ⟨t, rfl⟩ := hpre
  rw [cstr_strncpy htok]
  by_cases hlen : tok.length < 10
  · rw [if_pos hlen]
    constructor
    · intro h
      refine ⟨by omega, ?_⟩
      have hlens := congrArg List.length h
      rw [List.length_take, List.length_append] at hlens
      by_cases hnine : tok.length = 9
      · exact .inr hnine
      · have ht : t = [] := List.length_eq_zero_iff.1 (by omega)
        exact .inl (by rw [ht, List.append_nil])
    · rintro ⟨hle, h | hnine⟩
      · rw [← h, List.take_of_length_le hle]
      · rw [List.take_left' hnine]
  · rw [if_neg hlen]
    refine iff_of_false (fun h ↦ ?_) fun h ↦ by omega
    have hlens := congrArg List.length h
    rw [List.length_append, List.length_take, List.length_take] at hlens
    omega

/-- The user, read from eleven bytes. -/
theorem user_eq_iff {pw_name path : Text} (h : nul ∉ pw_name) :
    cstr (strncpy 11 pw_name ++ path) = pw_name.take 10 ↔ pw_name.length ≤ 10 := by
  rw [cstr_strncpy h]
  by_cases hlen : pw_name.length < 11
  · rw [if_pos hlen, List.take_of_length_le (by omega)]
    exact iff_of_true rfl (by omega)
  · rw [if_neg hlen]
    refine iff_of_false (fun heq ↦ ?_) (by omega)
    have hlens := congrArg List.length heq
    rw [List.length_append, List.length_take, List.length_take] at hlens
    omega

/-- A text that is printed into the array with its null byte. -/
theorem cstr_printed {t array path : Text} (ht : nul ∉ t) (hlen : t.length ≤ 10) :
    cstr ((overwrite (t ++ [nul]) array).take 11 ++ path) = t := by
  have hsplit : (overwrite (t ++ [nul]) array).take 11 =
      t ++ nul :: (array.drop (t.length + 1)).take (10 - t.length) := by
    rw [overwrite, List.append_assoc, List.take_append, List.take_of_length_le (by omega)]
    obtain ⟨k, hk⟩ : ∃ k, 11 - t.length = k + 1 := ⟨10 - t.length, by omega⟩
    rw [hk, List.singleton_append, List.take_succ_cons, List.length_append, List.length_singleton,
      show 10 - t.length = k by omega]
  rw [hsplit, List.append_assoc, cstr_append ht, List.cons_append, cstr_nul, List.append_nil]

theorem nul_notMem_toText (n : Int) : nul ∉ toText n :=
  Lsof.notMem_toText (by decide) (by decide) n

/-! ## The line of the name -/

/-- The delimiters of the line. -/
def nameDelim : Text := "\t\n".toList

theorem tokens_status (hname : ∀ c ∈ name, c ≠ '\n' ∧ c ≠ nul) :
    (tokens nameDelim ((getlines (statusText name rest)).headD []))[1]? =
      (tokens nameDelim name).head? := by
  have hline : '\n' ∉ "Name:\t".toList ++ name := by
    rw [List.mem_append]
    exact fun h ↦ h.elim (by decide) fun h ↦ (hname _ h).1 rfl
  have hhead : (getlines (statusText name rest)).headD [] =
      "Name:".toList ++ '\t' :: (name ++ '\n' :: []) := by
    have hsplit : statusText name rest = "Name:\t".toList ++ name ++ '\n' :: rest :=
      (List.append_assoc _ _ _).symm
    rw [hsplit, getlines_cons hline]
    simp
  rw [hhead, tokens_between (by decide) (by simp [nameDelim]) (by decide),
    tokens_append (by decide), tokens_nil, List.append_nil, List.getElem?_cons_succ,
    List.head?_eq_getElem?]

/-- The token is what stands in front of the first tab. -/
theorem tokens_name (hname : ∀ c ∈ name, c ≠ '\n' ∧ c ≠ nul) (hstart : beforeTab name ≠ []) :
    (tokens nameDelim name).head? = some (beforeTab name) := by
  have hsplit : beforeTab name ++ name.dropWhile (· != '\t') = name :=
    List.takeWhile_append_dropWhile
  have hplain : ∀ c ∈ beforeTab name, c ∉ nameDelim := by
    intro c hc
    have htab : c ≠ '\t' := by simpa using List.mem_takeWhile_imp hc
    have hnewline := (hname c (List.takeWhile_prefix _ |>.subset hc)).1
    simp [nameDelim, htab, hnewline]
  rcases hdrop : name.dropWhile (· != '\t') with _ | ⟨c, post⟩
  · rw [hdrop, List.append_nil] at hsplit
    rw [← hsplit, hsplit, tokens_singleton (hsplit ▸ hstart) (hsplit ▸ hplain)]
    simp [hsplit]
  · have htab : c = '\t' := by
      have hstop := stops_of_dropWhile hdrop
      simpa using hstop
    have htokens : tokens nameDelim name = beforeTab name :: tokens nameDelim post := by
      conv_lhs => rw [← hsplit, hdrop]
      exact tokens_between hstart hplain (by rw [htab]; decide)
    rw [htokens]
    rfl

/-- For a name that starts with a tab something is read that does not; for an empty one there is no
token. -/
theorem tokens_of_tab (hname : ∀ c ∈ name, c ≠ '\n' ∧ c ≠ nul) (hstart : beforeTab name = [])
    {tok : Text} (htok : (tokens nameDelim name).head? = some tok) (path : Text) :
    cstr (strncpy 10 tok ++ path) ≠ name.take 9 := by
  have hsplit : name.takeWhile (· == '\t') ++ name.dropWhile (· == '\t') = name :=
    List.takeWhile_append_dropWhile
  have htabs : ∀ c ∈ name.takeWhile (· == '\t'), c ∈ nameDelim := by
    intro c hc
    have htab : c = '\t' := by simpa using List.mem_takeWhile_imp hc
    rw [htab]
    decide
  rw [← hsplit, tokens_skip htabs] at htok
  rcases hdrop : name.dropWhile (· == '\t') with _ | ⟨c, t⟩
  · rw [hdrop, tokens_nil] at htok
    exact absurd htok (by simp)
  · have hc : c ≠ '\t' := by
      have hstop := stops_of_dropWhile hdrop
      simpa using hstop
    have hmem := hname c ((List.dropWhile_suffix _).subset (hdrop ▸ List.mem_cons_self))
    have hplain : c ∉ nameDelim := by simp [nameDelim, hc, hmem.1]
    obtain ⟨tok', rfl⟩ : ∃ tok', tok = c :: tok' := by
      rw [hdrop, tokens_head? hplain, Option.some_inj,
        List.takeWhile_cons_of_pos (by simpa using hplain)] at htok
      exact ⟨_, htok.symm⟩
    obtain ⟨d, name', rfl⟩ : ∃ d name', name = d :: name' := by
      rcases name with _ | ⟨d, name'⟩
      · exact absurd hdrop (by simp)
      · exact ⟨d, name', rfl⟩
    have hd : d = '\t' := by
      by_contra hne
      rw [beforeTab, List.takeWhile_cons_of_pos (by simpa using hne)] at hstart
      exact absurd hstart (List.cons_ne_nil _ _)
    have hread : (cstr (strncpy 10 (c :: tok') ++ path)).head? = some c := by
      rw [strncpy, List.take_succ_cons, List.cons_append, List.cons_append, cstr,
        List.takeWhile_cons_of_pos (by simpa using hmem.2)]
      rfl
    intro heq
    rw [heq, List.take_succ_cons, List.head?_cons, Option.some_inj, hd] at hread
    exact hc hread.symm

/-! ## Main theorem -/

/-- `info` before the name is stored in it. -/
def unnamed (sys : Sys) (pid : Int) (info : PidInfo) : PidInfo :=
  let path := procPath pid
  (storeUser sys { info with pid := pid, path := path, parent_length := path.length }).append
    "status".toList

theorem fillInfo_eq (sys : Sys) (pid : Int) (info : PidInfo) (rest : Text)
    (hname : ∀ c ∈ name, c ≠ '\n' ∧ c ≠ nul) :
    fillInfo sys pid info (statusText name rest) =
      ((tokens nameDelim name).head?).map fun tok ↦
        PidInfo.cut { unnamed sys pid info with
          cmdline := strncpy 10 tok, cmdline_length := length_strncpy } := by
  have htokens : (tokens "\t\n".toList ((getlines (statusText name rest)).headD []))[1]? =
      (tokens nameDelim name).head? := tokens_status hname
  rw [fillInfo]
  dsimp only
  rw [storeCmdline, htokens]
  rcases (tokens nameDelim name).head? with _ | tok
  · rfl
  · rfl

/-- The user is shown right, whatever follows, if a name from the database is short enough. -/
theorem user_unnamed_iff (pid : Int) (info : PidInfo)
    (hpw : ∀ st pw_name, sys.getpwuid st = some pw_name → nul ∉ pw_name) (after : Text) :
    cstr ((unnamed sys pid info).user ++ after) = (userText sys pid).take 10 ↔
      ∀ st pw_name, sys.stat (procPath pid) = some st → sys.getpwuid st.st_uid = some pw_name →
        pw_name.length ≤ 10 := by
  rw [unnamed, userText, PidInfo.append, storeUser]
  rcases hstat : sys.stat (procPath pid) with _ | st
  · refine iff_of_true ?_ fun st pw_name h ↦ absurd h (by simp)
    exact cstr_printed (by decide) (by decide)
  · rcases hget : sys.getpwuid st.st_uid with _ | pw_name
    · simp only [hget, Option.getD_none]
      refine iff_of_true ?_ fun st' pw_name hst h ↦ ?_
      · exact cstr_printed (fun h ↦ nul_notMem_toText _ (List.mem_of_mem_take h))
          (List.length_take_le 10 _)
      · rw [← Option.some.inj hst, hget] at h
        exact absurd h (by simp)
    · simp only [hget, Option.getD_some]
      rw [user_eq_iff (hpw _ _ hget)]
      constructor
      · intro h st' pw' hst h'
        rw [← Option.some.inj hst, hget, Option.some_inj] at h'
        rwa [← h']
      · exact fun h ↦ h st pw_name rfl hget

/-- What the columns show, for any path. -/
theorem showsNames_iff (info : PidInfo) {tok user : Text} (path : Text) (htok : nul ∉ tok)
    (hpre : tok <+: name) :
    ShowsNames name user
        { info with cmdline := strncpy 10 tok, cmdline_length := length_strncpy, path := path } ↔
      (tok.length ≤ 9 ∧ (tok = name ∨ tok.length = 9)) ∧
        cstr (info.user ++ (strncpy 10 tok ++ (path ++ [nul]))) = user.take 10 := by
  rw [ShowsNames, PidInfo.cmdlineString, PidInfo.userString]
  exact and_congr_left' (cmdline_eq_iff htok hpre)

theorem SameNames.shows {i j : PidInfo} {user : Text} (h : SameNames i j)
    (hj : ShowsNames name user { j with path := i.path }) : ShowsNames name user i := by
  rw [ShowsNames, PidInfo.cmdlineString, PidInfo.userString] at hj ⊢
  rwa [h.1, h.2]

/-- The calls of a process whose `status` is read. -/
theorem lsofDumpinfo_calls {stack : Stack} {info : PidInfo} {status : Text}
    (hstatus : sys.fopen (procPath pid ++ "status".toList) = some status)
    (hfill : fillInfo sys pid stack.info status = some info) (fileBuff fdBuff : Text) :
    (lsofDumpinfo sys pid stack fileBuff fdBuff).1 =
      (dumpFiles sys stack ⟨info, fileBuff, fdBuff, true⟩).1 := by
  rw [lsofDumpinfo, hstatus]
  dsimp only
  rw [hfill]

/-- **When the columns are bounded and independent.**  For every name of a process and of a user,
and whatever the arrays hold at first. -/
theorem bounded_iff (stack : Stack) (hname : ∀ c ∈ name, c ≠ '\n' ∧ c ≠ nul)
    (hpw : ∀ st pw_name, sys.getpwuid st = some pw_name → nul ∉ pw_name)
    (hstatus : sys.fopen (procPath pid ++ "status".toList) = some (statusText name rest)) :
    Bounded sys pid stack name rest ↔ NamesFit sys pid name := by
  have htab : nul ∉ beforeTab name := fun h ↦
    (hname _ ((List.takeWhile_prefix _).subset h)).2 rfl
  have hpre : beforeTab name <+: name := List.takeWhile_prefix _
  have huser (after : Text) := user_unnamed_iff pid stack.info hpw after
  constructor
  · intro h
    obtain ⟨info, hfill, hshows⟩ := h.filled
    rw [fillInfo_eq sys pid stack.info rest hname] at hfill
    obtain ⟨tok, htok, rfl⟩ := Option.map_eq_some_iff.1 hfill
    have hstart : beforeTab name ≠ [] := fun hstart ↦
      tokens_of_tab hname hstart htok _ (hshows []).1
    rw [tokens_name hname hstart, Option.some_inj] at htok
    subst htok
    obtain ⟨hfits, hshown⟩ := (showsNames_iff _ _ htab hpre).1 (hshows [])
    exact ⟨hstart, hfits.1, hfits.2, (huser _).1 hshown⟩
  · intro h
    have hfill := fillInfo_eq sys pid stack.info rest hname
    rw [tokens_name hname h.start, Option.map_some] at hfill
    have hshows := fun path ↦ (showsNames_iff (unnamed sys pid stack.info).cut path htab hpre).2
      ⟨⟨h.short, h.whole⟩, (huser _).2 h.user⟩
    refine ⟨⟨_, hfill, hshows⟩, fun fileBuff fdBuff c hc ↦ ?_⟩
    rw [lsofDumpinfo_calls hstatus hfill] at hc
    exact (dumpFiles_keeps sys stack _ c hc).shows (hshows _)

/-! ### Some names -/

/-- A system with the process `name` of the user `pw_name`, whose links cannot be read. -/
def called (name pw_name : Text) : Sys where
  stat _ := some ⟨7, 0o40555, 0⟩
  readlink _ := none
  opendir _ := none
  fopen p := if p = "/proc/1/status".toList then some (statusText name []) else none
  getpwuid _ := some pw_name
  regexec _ _ := true

/-- Names that fit. -/
theorem bounded_iff_cat : Bounded (called "cat".toList "root".toList) 1 clear "cat".toList [] := by
  refine (bounded_iff clear (by simp [nul]) (fun st pw_name h ↦ ?_) rfl).2
    ⟨by decide, by decide, .inl (by decide), fun st pw_name _ h ↦ ?_⟩
  · rw [← Option.some.inj h]
    decide
  · rw [← Option.some.inj h]
    decide

/-- **A column that runs into the path.**  The name has eleven bytes; the first row of the process
shows ten of them and the path of the working directory. -/
theorem bounded_fails :
    ((lsofDumpinfo (called "kworker/0:1".toList "root".toList) 1 clear [] []).1.head?.map
      fun c ↦ c.info.cmdlineString) =
        some "kworker/0:/proc/1/cwd (Permission denied)".toList ∧
    ¬ Bounded (called "kworker/0:1".toList "root".toList) 1 clear "kworker/0:1".toList [] := by
  constructor
  · decide +kernel
  · intro h
    have hall : ∀ c ∈ (lsofDumpinfo (called "kworker/0:1".toList "root".toList) 1 clear [] []).1.map
        (fun c ↦ c.info.cmdlineString), c = "kworker/0".toList := by
      intro t ht
      obtain ⟨c, hc, rfl⟩ := List.mem_map.1 ht
      exact (h.printed [] [] c hc).1
    exact absurd hall (by decide +kernel)

end Dump
