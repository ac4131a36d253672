import NctuUnix.Hw1.Links

/-!
# The rows of the descriptors, in C

`get_fds` of `hw1.c` goes through `/proc/<pid>/fd`.  It ends at the first entry on which `stat`
fails, and takes a name from the buffer also where the link cannot be read; the null byte that is to
end the link is then written in front of the buffer.

## Main results

* `fdsLoop_paths` — the descriptors that are listed: those in front of the first one without `stat`.
* `fdName_view_iff` — when the name of a descriptor is made from its own link.
* `fdsLoop_own_iff` — when each row of the loop is its own, and all is written within the arrays.
* `getFds_contained_iff` — when every descriptor that can be listed is, too.
-/

set_option autoImplicit false

namespace Dump

open Input CString Leftover
open Lsof (typeOf toText)

/-! ## What is claimed

The claim has two sides: what can be listed is listed (`complete`), and what is listed is made from
the answers for its own entry (`own`).
-/

/-- The link can be read and `stat` succeeds. -/
def Sys.Good (sys : Sys) (path : Text) : Prop :=
  (sys.readlink path).isSome = true ∧ (sys.stat path).isSome = true

instance (sys : Sys) (path : Text) : Decidable (sys.Good path) :=
  inferInstanceAs (Decidable (_ ∧ _))

/-- The entries of a directory. -/
def entries (names : List Text) : List Text :=
  names.filter fun d ↦ decide (d ≠ ".".toList ∧ d ≠ "..".toList)

/-- The row of the descriptor `d`: NAME is made from the directory of its link. -/
def FromEntry (sys : Sys) (dir d : Text) (c : Call) : Prop :=
  ∃ link st, sys.readlink (dir ++ d) = some link ∧ FromStat sys (dir ++ d) st c ∧
    c.fd = d ++ access st.st_mode ∧ c.file = fdName (dirOf link) (typeOf st.st_mode) st

/-- The directory of the descriptors. -/
def fdPath (path : Text) : Text := path ++ "fd/".toList

/-- The descriptors that are due, for a process whose directory is `path`: a row for every entry
that is good, and each row made from its own entry. -/
structure ListsFds (sys : Sys) (path : Text) (calls : List Call) : Prop where
  complete : ∀ names, sys.opendir (fdPath path) = some names →
    (calls.map (·.info.path)).filter (fun p ↦ decide (sys.Good p)) =
      ((entries names).map fun d ↦ fdPath path ++ d).filter fun p ↦ decide (sys.Good p)
  own : ∀ c ∈ calls,
    (∃ names, sys.opendir (fdPath path) = some names ∧
      ∃ d ∈ entries names, FromEntry sys (fdPath path) d c) ∨
    sys.opendir (fdPath path) = none ∧ c.fd = "NOFD".toList ∧ c.info.path = fdPath path ++ denied

/-! ## When it is right

The conditions are about what the system answers for the entries, in the order in which `readdir`
returns them, and about what the buffer holds at first.
-/

/-- What is shown for a pipe. -/
def pipeName (st : Stat) : Text := "pipe:[".toList ++ inodeOf st ++ [']']

/-- The link of a descriptor, for what `stat` says: what is taken for its directory fits, and if it
is shown no slash stands behind the link, or the file is a socket, whose name is not from its link,
or what is taken for its directory is the name of the pipe. -/
def FdApart (x : Text × Option Stat) (rest : Text) : Prop :=
  fits (dirOf (x.1 ++ rest)) = true ∧ ∀ st, x.2 = some st →
    typeOf st.st_mode = "SOCK".toList ∨ '/' ∉ rest ∨
      typeOf st.st_mode = "FIFO".toList ∧
        ∃ base, '/' ∉ base ∧ x.1 ++ rest = pipeName st ++ '/' :: base

/-- The entries that are reached: up to the first one on which `stat` fails. -/
def reached (sys : Sys) (dir : Text) : List Text → List Text
  | [] => []
  | d :: ds => d :: if (sys.stat (dir ++ d)).isSome then reached sys dir ds else []

/-- The links of some entries that can be read, and what `stat` says. -/
def answers (sys : Sys) (dir : Text) (ds : List Text) : List (Text × Option Stat) :=
  ds.filterMap fun d ↦ (sys.readlink (dir ++ d)).map fun link ↦ (link, sys.stat (dir ++ d))

/-- The descriptors that do no damage, for what can be read in the buffer at first. -/
structure FdsUndamaged (sys : Sys) (dir : Text) (v : Nat → Text) (ds : List Text) : Prop where
  listed : ∀ pre d post, ds = pre ++ d :: post → sys.Good (dir ++ d) →
    ∀ d' ∈ pre, (sys.stat (dir ++ d')).isSome = true
  readable : ∀ d ∈ reached sys dir ds, (sys.readlink (dir ++ d)).isSome = true
  apart : Each FdApart Prod.fst v (answers sys dir (reached sys dir ds))

/-! ## The name

A row shows the directory of the link, but for sockets, which are shown by their inode, and for
pipes, whose link is a plain name.  So a pipe that has a slash behind its link can still be shown
correctly: if what is taken for its directory is just the name that is meant.
-/

variable {link buff : Text}

/-- The name of a pipe has no slash. -/
theorem slash_notMem_pipeName (st : Stat) : '/' ∉ pipeName st := by
  have hnode : '/' ∉ inodeOf st := Lsof.notMem_toText (by decide) (by decide) _
  change '/' ∉ "pipe:[".toList ++ inodeOf st ++ [']']
  rw [List.mem_append, List.mem_append]
  rintro ((h | h) | h)
  · exact absurd h (by decide)
  · exact hnode h
  · exact absurd h (by decide)

/-- The name that is shown for a pipe. -/
theorem fdName_of_fifo (path : Text) (st : Stat) : fdName path "FIFO".toList st =
    if path = ".".toList then pipeName st else path := by
  rw [fdName, if_neg (by decide)]
  by_cases hdot : path = ".".toList
  · rw [if_pos ⟨hdot, rfl⟩, if_pos hdot]
    rfl
  · rw [if_neg fun h ↦ hdot h.1, if_neg hdot]

/-- The name that is shown for everything else. -/
theorem fdName_of_plain {path type : Text} (st : Stat) (hsock : type ≠ "SOCK".toList)
    (hfifo : type ≠ "FIFO".toList) : fdName path type st = path := by
  rw [fdName, if_neg hsock, if_neg fun h ↦ hfifo h.2]

/-- The name of a descriptor is made from its own link: it is a socket, or no slash stands behind
the link, or what is taken for the directory happens to be the name of the pipe. -/
theorem fdName_view_iff (hbuff : Clean buff) (hlink : Target link) (type : Text) (st : Stat) :
    fdName (dirOf (link ++ view buff link.length)) type st = fdName (dirOf link) type st ↔
      type = "SOCK".toList ∨ '/' ∉ view buff link.length ∨
        type = "FIFO".toList ∧ ∃ base, '/' ∉ base ∧
          link ++ view buff link.length = pipeName st ++ '/' :: base := by
  by_cases hsock : type = "SOCK".toList
  · rw [fdName, fdName, if_pos hsock, if_pos hsock]
    exact iff_of_true rfl (.inl hsock)
  by_cases hslash : '/' ∉ view buff link.length
  · rw [(dirOf_view_iff hbuff hlink).2 hslash]
    exact iff_of_true rfl (.inr (.inl hslash))
  rw [or_iff_right hsock, or_iff_right hslash]
  have hne := fun h ↦ hslash ((dirOf_view_iff hbuff hlink).1 h)
  by_cases hfifo : type = "FIFO".toList
  · rw [and_iff_right hfifo, hfifo, fdName_of_fifo, fdName_of_fifo]
    obtain ⟨a, b, hab, hb⟩ := exists_last_slash (not_not.1 hslash)
    have hdir := dirOf_view_of_split hbuff hlink hab hb
    have hdot : link ++ a ≠ ".".toList := hlink.append_ne_dot
    rw [hdir] at hne
    rw [hdir, if_neg hdot, hab, ← List.append_assoc]
    constructor
    · intro heq
      by_cases hown : dirOf link = ".".toList
      · rw [if_pos hown] at heq
        exact ⟨b, hb, by rw [heq]⟩
      · rw [if_neg hown] at heq
        exact absurd heq hne
    · rintro ⟨base, hbase, hpipe⟩
      -- the slash of the pipe is the last one
      obtain ⟨hname, -, -⟩ := (List.append_cons_inj_of_notMem (slash_notMem_pipeName st) hbase).1
        hpipe.symm
      have hplain : '/' ∉ link := fun h ↦
        slash_notMem_pipeName st (hname ▸ List.mem_append_left a h)
      rw [if_pos (dirOf_of_notMem hplain), hname]
  · rw [fdName_of_plain st hsock hfifo, fdName_of_plain st hsock hfifo]
    exact iff_of_false hne fun h ↦ hfifo h.1

/-! ## The loop over the descriptors

A round takes an entry, leaves something in the buffer, and ends the loop if `stat` fails.  The path
is restored by the round itself, since the loop knows where the name of the entry starts.
-/

variable {sys : Sys} {s : State}

/-- The state after an entry on which `stat` succeeds. -/
def State.afterFd (s : State) (o : Option Text) : State :=
  { s with fdBuff := (readFd s.fdBuff o).2.1, inside := s.inside && (readFd s.fdBuff o).2.2 }

/-- The row of an entry. -/
def fdCall (s : State) (d : Text) (o : Option Text) (st : Stat) : Call :=
  ⟨s.info.append d, d ++ access st.st_mode, typeOf st.st_mode, inodeOf st,
    fdName (readFd s.fdBuff o).1 (typeOf st.st_mode) st⟩

/-! ### One round of the loop -/

variable {d : Text} {names : List Text}

/-- The two entries that are passed over. -/
theorem fdsLoop_dots (h : d = ".".toList ∨ d = "..".toList) (s : State) :
    fdsLoop sys s (d :: names) = fdsLoop sys s names := if_pos h

/-- An entry on which `stat` fails: the link has been read all the same. -/
theorem fdsLoop_stop (h : ¬ (d = ".".toList ∨ d = "..".toList))
    (hstat : sys.stat (s.info.path ++ d) = none) : fdsLoop sys s (d :: names) =
      ([], { s.afterFd (sys.readlink (s.info.path ++ d)) with info := s.info.append d }) := by
  have hstat' : sys.stat (s.info.append d).path = none := hstat
  rw [fdsLoop, if_neg h]
  dsimp only
  rw [hstat']
  rfl

/-- An entry that gets its row. -/
theorem fdsLoop_next (h : ¬ (d = ".".toList ∨ d = "..".toList)) {st : Stat}
    (hstat : sys.stat (s.info.path ++ d) = some st) : fdsLoop sys s (d :: names) =
      (fdCall s d (sys.readlink (s.info.path ++ d)) st ::
          (fdsLoop sys (s.afterFd (sys.readlink (s.info.path ++ d))) names).1,
        (fdsLoop sys (s.afterFd (sys.readlink (s.info.path ++ d))) names).2) := by
  have hstat' : sys.stat (s.info.append d).path = some st := hstat
  have hcut : (s.info.append d).cutAt s.info.path.length = s.info := by
    have hpath : (s.info.path ++ d).take s.info.path.length = s.info.path := List.take_left' rfl
    rw [PidInfo.cutAt]
    simp only [PidInfo.append, hpath]
  rw [fdsLoop, if_neg h]
  dsimp only
  rw [hstat']
  dsimp only
  rw [hcut]
  rfl

/-- What is passed over is no entry. -/
theorem entries_cons_of_dots (h : d = ".".toList ∨ d = "..".toList) :
    entries (d :: names) = entries names :=
  List.filter_cons_of_neg fun hd ↦
    h.elim (of_decide_eq_true hd).1 (of_decide_eq_true hd).2

/-- Everything else is one. -/
theorem entries_cons_of_not_dots (h : ¬ (d = ".".toList ∨ d = "..".toList)) :
    entries (d :: names) = d :: entries names :=
  List.filter_cons_of_pos (decide_eq_true (not_or.1 h))

/-! ### Through the entries -/

/-- **The descriptors that are listed**: those in front of the first one on which `stat` fails. -/
theorem fdsLoop_paths (names : List Text) : ∀ s : State,
    (fdsLoop sys s names).1.map (·.info.path) = ((entries names).takeWhile fun d ↦
      (sys.stat (s.info.path ++ d)).isSome).map (s.info.path ++ ·) := by
  induction names with
  | nil => exact fun _ ↦ rfl
  | cons d names ih =>
    intro s
    by_cases hdots : d = ".".toList ∨ d = "..".toList
    · rw [fdsLoop_dots hdots, entries_cons_of_dots hdots, ih]
    · rw [entries_cons_of_not_dots hdots]
      rcases hstat : sys.stat (s.info.path ++ d) with _ | st
      · rw [fdsLoop_stop hdots hstat, List.takeWhile_cons_of_neg (by simp [hstat])]
        rfl
      · rw [fdsLoop_next hdots hstat, List.map_cons, ih,
          List.takeWhile_cons_of_pos (by simp [hstat]), List.map_cons]
        rfl

/-- Each row is about an entry. -/
theorem exists_entry_of_mem {s : State} {c : Call} (hc : c ∈ (fdsLoop sys s names).1) :
    ∃ d ∈ entries names, c.info.path = s.info.path ++ d := by
  have hpath := List.mem_map_of_mem (f := fun c : Call ↦ c.info.path) hc
  rw [fdsLoop_paths] at hpath
  obtain ⟨d, hd, heq⟩ := List.mem_map.1 hpath
  exact ⟨d, (List.takeWhile_prefix _).subset hd, heq.symm⟩

/-- A byte that has been written outside stays written. -/
theorem fdsLoop_inside (names : List Text) : ∀ s : State,
    (fdsLoop sys s names).2.inside = true → s.inside = true := by
  induction names with
  | nil => exact fun _ h ↦ h
  | cons d names ih =>
    intro s h
    by_cases hdots : d = ".".toList ∨ d = "..".toList
    · rw [fdsLoop_dots hdots] at h
      exact ih s h
    · rcases hstat : sys.stat (s.info.path ++ d) with _ | st
      · rw [fdsLoop_stop hdots hstat] at h
        exact (Bool.and_eq_true_iff.1 h).1
      · rw [fdsLoop_next hdots hstat] at h
        exact (Bool.and_eq_true_iff.1 (ih _ h)).1

/-- The link of the first entry. -/
theorem answers_cons {dir link : Text} {ds : List Text} (h : sys.readlink (dir ++ d) = some link) :
    answers sys dir (d :: ds) = (link, sys.stat (dir ++ d)) :: answers sys dir ds :=
  List.filterMap_cons_some (by rw [h]; rfl)

/-- The first entry is reached, and the others if `stat` succeeds on it. -/
theorem forall_mem_reached_cons {dir : Text} {ds : List Text} {p : Text → Prop} :
    (∀ x ∈ reached sys dir (d :: ds), p x) ↔
      p d ∧ ((sys.stat (dir ++ d)).isSome = true → ∀ x ∈ reached sys dir ds, p x) := by
  rw [reached, List.forall_mem_cons]
  refine and_congr_right fun _ ↦ ?_
  by_cases hstat : (sys.stat (dir ++ d)).isSome = true
  · rw [if_pos hstat]
    exact ⟨fun h _ ↦ h, fun h ↦ h hstat⟩
  · rw [if_neg hstat]
    exact iff_of_true (fun x hx ↦ absurd hx List.not_mem_nil) fun h ↦ absurd h hstat

/-- The row of an entry whose link is read is its own exactly if the link is told apart. -/
theorem fdCall_own_iff {dir link : Text} {st : Stat} (htarget : Target link)
    (hdir : s.info.path = dir) (hlink : sys.readlink (dir ++ d) = some link)
    (hstat : sys.stat (dir ++ d) = some st) :
    FromEntry sys dir d (fdCall s d (some link) st) ↔
      fdName (dirOf (link ++ view s.fdBuff link.length)) (typeOf st.st_mode) st =
        fdName (dirOf link) (typeOf st.st_mode) st := by
  have hname : (readInto link s.fdBuff).1 = dirOf (link ++ view s.fdBuff link.length) :=
    readInto_fst htarget.plain
  rw [← hname]
  constructor
  · rintro ⟨link', st', hlink', ⟨hstat', -⟩, -, hfile⟩
    rw [hlink] at hlink'
    rw [hstat] at hstat'
    obtain rfl := Option.some.inj hlink'
    obtain rfl := Option.some.inj hstat'
    exact hfile
  · intro h
    exact ⟨link, st, hlink, ⟨hstat, congrArg (· ++ d) hdir, rfl, rfl⟩, rfl, h⟩

/-- A row of the loop behind an entry is not the row of this entry unless it is there once more. -/
theorem forall_own_cons {s : State} {ds : List Text} {calls : List Call}
    (hcalls : ∀ c ∈ calls, ∃ d' ∈ ds, c.info.path = s.info.path ++ d') :
    (∀ c ∈ calls, ∃ d' ∈ d :: ds, FromEntry sys s.info.path d' c) ↔
      ∀ c ∈ calls, ∃ d' ∈ ds, FromEntry sys s.info.path d' c := by
  refine forall₂_congr fun c hc ↦ ⟨?_, fun ⟨d', hd', h⟩ ↦ ⟨d', List.mem_cons_of_mem d hd', h⟩⟩
  rintro ⟨d', hd', h⟩
  obtain ⟨link, st, hlink, ⟨hstat, hpath, hrest⟩, hrow⟩ := h
  obtain ⟨d'', hd'', hpath'⟩ := hcalls c hc
  have heq : d'' = d' := List.append_cancel_left (hpath'.symm.trans hpath)
  subst heq
  exact ⟨d'', hd'', link, st, hlink, ⟨hstat, hpath, hrest⟩, hrow⟩

/-- The row of an entry is the row of no other entry: its path tells the entry. -/
theorem exists_own_head {s : State} {ds : List Text} {o : Option Text} {st : Stat} :
    (∃ d' ∈ d :: ds, FromEntry sys s.info.path d' (fdCall s d o st)) ↔
      FromEntry sys s.info.path d (fdCall s d o st) := by
  refine ⟨?_, fun h ↦ ⟨d, List.mem_cons_self, h⟩⟩
  rintro ⟨d', -, h⟩
  obtain ⟨-, -, -, ⟨-, hpath, -⟩, -⟩ := id h
  have hsame : d' = d := (List.append_cancel_left hpath).symm
  rwa [hsame] at h

/-- Behind a link that is read, all is within the arrays if it was before and the name fits. -/
theorem afterFd_inside_iff {s : State} {link : Text} (htarget : Target link) :
    (s.afterFd (some link)).inside = true ↔
      s.inside = true ∧ fits (dirOf (link ++ view s.fdBuff link.length)) = true := by
  rw [← readInto_fst htarget.plain]
  exact Bool.and_eq_true_iff

/-- A link that cannot be read puts the null byte in front of the buffer. -/
theorem fdsLoop_outside {s : State} {names : List Text}
    (hdots : ¬ (d = ".".toList ∨ d = "..".toList))
    (hlink : sys.readlink (s.info.path ++ d) = none) :
    ¬ (fdsLoop sys s (d :: names)).2.inside = true := by
  have hout : ¬ (s.afterFd none).inside = true := by simp [State.afterFd, readFd]
  intro h
  rcases hstat : sys.stat (s.info.path ++ d) with _ | st
  · rw [fdsLoop_stop hdots hstat, hlink] at h
    exact hout h
  · rw [fdsLoop_next hdots hstat, hlink] at h
    exact hout (fdsLoop_inside names _ h)

/-- **Each row is made from its own entry**, and all is written within the arrays, exactly if the
links of the entries that are reached can be read and are told apart. -/
theorem fdsLoop_own_iff (hlinks : sys.KernelLinks) (names : List Text) : ∀ s : State,
    Clean s.fdBuff →
    (((∀ c ∈ (fdsLoop sys s names).1, ∃ d ∈ entries names, FromEntry sys s.info.path d c) ∧
        (fdsLoop sys s names).2.inside = true) ↔
      s.inside = true ∧
        (∀ d ∈ reached sys s.info.path (entries names),
          (sys.readlink (s.info.path ++ d)).isSome = true) ∧
        Each FdApart Prod.fst (view s.fdBuff)
          (answers sys s.info.path (reached sys s.info.path (entries names)))) := by
  induction names with
  | nil =>
    intro s hclean
    exact ⟨fun h ↦ ⟨h.2, fun d hd ↦ absurd hd List.not_mem_nil, trivial⟩,
      fun h ↦ ⟨fun c hc ↦ absurd hc List.not_mem_nil, h.1⟩⟩
  | cons d names ih =>
    intro s hclean
    by_cases hdots : d = ".".toList ∨ d = "..".toList
    · rw [fdsLoop_dots hdots, entries_cons_of_dots hdots]
      exact ih s hclean
    · rw [entries_cons_of_not_dots hdots, forall_mem_reached_cons]
      rcases hlink : sys.readlink (s.info.path ++ d) with _ | link
      · exact iff_of_false (fun h ↦ fdsLoop_outside hdots hlink h.2)
          fun h ↦ absurd h.2.1.1 (by simp)
      · have htarget := hlinks _ link hlink
        have hinside := afterFd_inside_iff (s := s) htarget
        rw [reached, answers_cons hlink]
        rcases hstat : sys.stat (s.info.path ++ d) with _ | st
        · rw [fdsLoop_stop hdots hstat, hlink]
          constructor
          · intro h
            obtain ⟨hin, hfits⟩ := hinside.1 h.2
            exact ⟨hin, ⟨rfl, fun h ↦ absurd h (by simp)⟩,
              ⟨hfits, fun st h ↦ absurd h (by simp)⟩, trivial⟩
          · intro h
            exact ⟨fun c hc ↦ absurd hc List.not_mem_nil, hinside.2 ⟨h.1, h.2.2.1.1⟩⟩
        · have hview : view (s.afterFd (some link)).fdBuff = behind (view s.fdBuff) link :=
            funext (view_readInto htarget.plain)
          have hrec := ih (s.afterFd (some link)) (clean_readInto hclean htarget)
          rw [hview, hinside] at hrec
          have hown := fdCall_own_iff htarget rfl hlink hstat
          rw [fdName_view_iff hclean htarget] at hown
          have hrows : (∀ c ∈ (fdsLoop sys (s.afterFd (some link)) names).1,
              ∃ d' ∈ d :: entries names, FromEntry sys s.info.path d' c) ↔
                ∀ c ∈ (fdsLoop sys (s.afterFd (some link)) names).1,
                  ∃ d' ∈ entries names, FromEntry sys s.info.path d' c :=
            forall_own_cons (s := s.afterFd (some link)) fun c hc ↦ exists_entry_of_mem hc
          rw [fdsLoop_next hdots hstat, hlink, List.forall_mem_cons, hrows, and_assoc,
            exists_own_head, hown]
          constructor
          · rintro ⟨hrow, hrest⟩
            obtain ⟨⟨hin, hfits⟩, hread, hapart⟩ := hrec.1 hrest
            refine ⟨hin, ⟨rfl, fun _ ↦ hread⟩, ⟨hfits, fun st' hst' ↦ ?_⟩, hapart⟩
            rw [← Option.some.inj hst']
            exact hrow
          · rintro ⟨hin, ⟨-, hread⟩, ⟨hfits, hrow⟩, hapart⟩
            exact ⟨hrow st rfl, hrec.2 ⟨⟨hin, hfits⟩, hread rfl, hapart⟩⟩

/-- What is kept of a list that is cut short: everything, unless something comes after the cut. -/
theorem filter_takeWhile_eq_iff {α : Type} {p q : α → Bool} (h : ∀ a, p a = true → q a = true)
    (l : List α) : (l.takeWhile q).filter p = l.filter p ↔
      ∀ pre a post, l = pre ++ a :: post → p a = true → ∀ b ∈ pre, q b = true := by
  induction l with
  | nil => simp
  | cons a l ih =>
    have hsplit : (∀ pre x post, a :: l = pre ++ x :: post → p x = true → ∀ b ∈ pre, q b = true) ↔
        ∀ pre x post, l = pre ++ x :: post → p x = true → q a = true ∧ ∀ b ∈ pre, q b = true := by
      constructor
      · intro hall pre x post heq hx
        simpa using hall (a :: pre) x post (by rw [heq]; rfl) hx
      · rintro hall (_ | ⟨b, pre⟩) x post heq hx
        · exact fun b hb ↦ absurd hb List.not_mem_nil
        · obtain ⟨rfl, htail⟩ := List.cons.inj heq
          simpa using hall pre x post htail hx
    rw [hsplit]
    by_cases hq : q a = true
    · rw [List.takeWhile_cons_of_pos hq]
      by_cases hp : p a = true
      · rw [List.filter_cons_of_pos hp, List.filter_cons_of_pos hp, List.cons.injEq,
          and_iff_right rfl, ih]
        simp [hq]
      · rw [List.filter_cons_of_neg hp, List.filter_cons_of_neg hp, ih]
        simp [hq]
    · rw [List.takeWhile_cons_of_neg hq, List.filter_nil,
        List.filter_cons_of_neg fun hp ↦ hq (h a hp), eq_comm, List.filter_eq_nil_iff]
      constructor
      · intro hnone pre x post heq hx
        exact absurd hx (hnone x (by rw [heq]; simp))
      · intro hall x hx hpx
        obtain ⟨pre, post, rfl⟩ := List.append_of_mem hx
        exact hq (hall pre x post rfl hpx).1

/-! ### The directory

The names that are lost are those behind the first failure of `stat`, so nothing is lost if only
names on which something fails come there.
-/

variable (sys)

/-- The state in which `get_fds` reads the directory. -/
def atFds (s : State) : State :=
  { s with info := { s.info.append "fd/".toList with
    parent_length := s.info.parent_length + 3 } }

/-- A directory that can be opened. -/
theorem getFds_of_open {names : List Text} (h : sys.opendir (fdPath s.info.path) = some names) :
    getFds sys s = fdsLoop sys (atFds s) names := by
  have hopen : sys.opendir (s.info.append "fd/".toList).path = some names := h
  rw [getFds]
  dsimp only
  rw [hopen]
  rfl

/-- One that cannot: there is a row for it, and nothing is written. -/
theorem getFds_of_closed (h : sys.opendir (fdPath s.info.path) = none) :
    (getFds sys s).1 = [⟨(atFds s).info.append denied, "NOFD".toList, [], [],
        ((atFds s).info.append denied).path⟩] ∧
      (getFds sys s).2.inside = s.inside := by
  have hopen : sys.opendir (s.info.append "fd/".toList).path = none := h
  rw [getFds]
  dsimp only
  rw [hopen]
  exact ⟨rfl, rfl⟩

/-- Nothing that can be listed is lost exactly if it comes before what `stat` fails on. -/
theorem listed_iff (path : Text) (l : List Text) :
    (((l.takeWhile fun d ↦ (sys.stat (path ++ d)).isSome).map (path ++ ·)).filter
        (fun p ↦ decide (sys.Good p)) =
      (l.map (path ++ ·)).filter fun p ↦ decide (sys.Good p)) ↔
      ∀ pre d post, l = pre ++ d :: post → sys.Good (path ++ d) →
        ∀ d' ∈ pre, (sys.stat (path ++ d')).isSome = true := by
  have hgood : ∀ d, decide (sys.Good (path ++ d)) = true → (sys.stat (path ++ d)).isSome = true :=
    fun d hd ↦ (of_decide_eq_true hd).2
  rw [List.filter_map, List.filter_map,
    (List.map_injective_iff.2 (List.append_right_injective path)).eq_iff]
  refine (filter_takeWhile_eq_iff hgood l).trans ?_
  simp only [decide_eq_true_eq]

/-- **When `get_fds` does no damage.** -/
theorem getFds_contained_iff (hlinks : sys.KernelLinks) (hclean : Clean s.fdBuff) :
    (ListsFds sys s.info.path (getFds sys s).1 ∧ (getFds sys s).2.inside = true) ↔
      s.inside = true ∧ ∀ names, sys.opendir (fdPath s.info.path) = some names →
        FdsUndamaged sys (fdPath s.info.path) (view s.fdBuff) (entries names) := by
  rcases hopen : sys.opendir (fdPath s.info.path) with _ | names
  · obtain ⟨hcalls, hinside⟩ := getFds_of_closed sys hopen
    rw [hcalls, hinside]
    refine ⟨fun h ↦ ⟨h.2, fun names h ↦ absurd h (by simp)⟩, fun h ↦ ⟨⟨fun names h ↦ ?_, ?_⟩, h.1⟩⟩
    · rw [hopen] at h
      exact absurd h (by simp)
    · intro c hc
      rw [List.mem_singleton.1 hc]
      exact .inr ⟨hopen, rfl, rfl⟩
  · have hlist : (fdsLoop sys (atFds s) names).1.map (·.info.path) = _ :=
      fdsLoop_paths names (atFds s)
    have hpaths := congrArg (List.filter fun p ↦ decide (sys.Good p)) hlist
    have hlisted := listed_iff sys (fdPath s.info.path) (entries names)
    have hown := fdsLoop_own_iff hlinks names (atFds s) hclean
    rw [getFds_of_open sys hopen]
    constructor
    · rintro ⟨hlists, hinside⟩
      have hrows : ∀ c ∈ (fdsLoop sys (atFds s) names).1,
          ∃ d ∈ entries names, FromEntry sys (fdPath s.info.path) d c := by
        intro c hc
        obtain ⟨names', hnames, hrow⟩ | ⟨hnone, -⟩ := hlists.own c hc
        · rw [hopen] at hnames
          obtain rfl := Option.some.inj hnames
          exact hrow
        · rw [hopen] at hnone
          exact absurd hnone (by simp)
      obtain ⟨hin, hread, hapart⟩ := hown.1 ⟨hrows, hinside⟩
      refine ⟨hin, fun names' hnames ↦ ?_⟩
      obtain rfl := Option.some.inj hnames
      exact ⟨hlisted.1 (hpaths.symm.trans (hlists.complete names hopen)), hread, hapart⟩
    · rintro ⟨hin, hall⟩
      obtain ⟨hall, hread, hapart⟩ := hall names rfl
      obtain ⟨hrows, hinside⟩ := hown.2 ⟨hin, hread, hapart⟩
      refine ⟨⟨fun names' hnames ↦ ?_, fun c hc ↦ .inl ⟨names, hopen, hrows c hc⟩⟩, hinside⟩
      rw [hopen] at hnames
      obtain rfl := Option.some.inj hnames
      exact hpaths.trans (hlisted.2 hall)

/-- A byte that has been written outside stays written. -/
theorem getFds_inside (h : (getFds sys s).2.inside = true) : s.inside = true := by
  rcases hopen : sys.opendir (fdPath s.info.path) with _ | names
  · rwa [(getFds_of_closed sys hopen).2] at h
  · rw [getFds_of_open sys hopen] at h
    exact fdsLoop_inside names (atFds s) h

end Dump
