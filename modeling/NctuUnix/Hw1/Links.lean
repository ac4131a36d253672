import NctuUnix.Lib.Leftover
import NctuUnix.Hw1.Dumpinfo

/-!
# The rows of three links, in C

`get_file` of `hw1.c` prints a row for `cwd`, `root` and `exe`.  It puts the name of the file behind
the path of the process and is to take it off again, on each of the ways it can end.  The name in
the last column is taken from the target of the link, which is read into a buffer that is used for
all links and gets its null byte only after `dirname` has looked at it.

## Main results

* `view_readInto` — the buffer after a link, in the terms of `Leftover`.
* `dirOf_view_iff` — the directory that is taken is that of the link exactly if no slash stands
  behind it.
* `getFile_contained_iff` — when a link does no damage: the path is back and the row is its own.
* `linksOwn_iff` — when no link of some does, one after the other.
-/

set_option autoImplicit false

namespace Dump

open Input CString Leftover
open Lsof (typeOf)

/-! ## What is claimed -/

/-- The row is about the file at `path`: this is `info->path`, and TYPE and NODE are from `stat`. -/
def FromStat (sys : Sys) (path : Text) (st : Stat) (c : Call) : Prop :=
  sys.stat path = some st ∧ c.info.path = path ∧ c.type = typeOf st.st_mode ∧ c.inode = inodeOf st

/-- The row of one of the three links, with the column FD: NAME is the directory of the link, or it
says that the link cannot be read. -/
def FromLink (sys : Sys) (path fd : Text) (c : Call) : Prop :=
  c.fd = fd ∧
    ((∃ link st, sys.readlink path = some link ∧ FromStat sys path st c ∧ c.file = dirOf link) ∨
      sys.readlink path = none ∧ c.info.path = path ++ denied ∧ c.type = "unknown".toList ∧
        c.inode = [] ∧ c.file = path ++ denied)

/-! ## When it is right -/

/-- The link is not read while `stat` fails. -/
def Sys.Sound (sys : Sys) (path : Text) : Prop :=
  (sys.readlink path).isSome = true → (sys.stat path).isSome = true

/-- No slash stands behind the link, and its directory fits. -/
def FileApart (link rest : Text) : Prop := '/' ∉ rest ∧ fits (dirOf link) = true

/-- Links are as the kernel makes them. -/
def Sys.KernelLinks (sys : Sys) : Prop :=
  ∀ path link, sys.readlink path = some link → Target link

/-! ## The buffers

`get_file` and `get_fds` have a static buffer each.  Reading a link into one and taking its
directory is what `Leftover` is about, and the lemmas here say so for the functions of the program.
-/

variable {link buff rest : Text}

/-- The string `dirname` is given. -/
theorem cstr_overwrite (h : nul ∉ link) :
    cstr (overwrite link buff) = link ++ view buff link.length := by
  have hview : view (overwrite link buff) 0 = _ := view_overwrite h
  rwa [if_pos (Nat.zero_le _), List.drop_zero] at hview

/-- The name that is taken. -/
theorem readInto_fst (h : nul ∉ link) :
    (readInto link buff).1 = dirOf (link ++ view buff link.length) := by
  rw [readInto, dirname, cstr_overwrite h, dirOf]
  rcases dirnamePrefix (link ++ view buff link.length) with _ | dir
  · rfl
  · rfl

/-- **The buffer after a link.** -/
theorem view_readInto (h : nul ∉ link) (n : Nat) :
    view (readInto link buff).2 n = behind (view buff) link n := by
  have hseen : clip n link.length (view (overwrite link buff) n) = seen (view buff) link n := by
    rw [view_overwrite h, seen, clip]
    by_cases hn : n ≤ link.length
    · rw [if_pos hn, if_pos hn, if_pos hn, List.take_left' (by rw [List.length_drop])]
    · rw [if_neg hn, if_neg hn, if_neg hn]
  rw [readInto, dirname, cstr_overwrite h, behind]
  rcases dirnamePrefix (link ++ view buff link.length) with _ | dir
  · exact view_set_nul.trans hseen
  · dsimp only
    rw [view_set_nul, view_set_nul, ← hseen, clip_comm]

/-- The buffer when nothing is read into it. -/
theorem view_dirname {n : Nat} (hn : 1 ≤ n) :
    view (dirname buff).2 n = behind (view buff) [] n := by
  have hseen : seen (view buff) [] n = view buff n :=
    if_neg (by rw [List.length_nil]; omega)
  have htext : cstr buff = [] ++ view buff ([] : Text).length := rfl
  rw [dirname, behind, hseen, htext]
  rcases dirnamePrefix ([] ++ view buff ([] : Text).length) with _ | dir
  · rfl
  · exact view_set_nul

/-- A link leaves the buffer clean. -/
theorem clean_readInto (hbuff : Clean buff) (hlink : Target link) :
    Clean (Dump.readInto link buff).2 :=
  hbuff.behind (.inr hlink) fun n _ ↦ view_readInto hlink.plain n

/-- So does an entry without one, for which `dirname` is given what is there. -/
theorem clean_readFd (hbuff : Clean buff) (o : Option Text)
    (ho : ∀ link, o = some link → Target link) : Clean (Dump.readFd buff o).2.1 := by
  rcases o with _ | link
  · exact hbuff.behind (.inl rfl) fun n hn ↦ view_dirname hn
  · exact clean_readInto hbuff (ho link rfl)

/-- The directory that is taken in a clean buffer is that of the link exactly if no slash stands
behind it. -/
theorem dirOf_view_iff (hbuff : Clean buff) (hlink : Target link) :
    dirOf (link ++ view buff link.length) = dirOf link ↔ '/' ∉ view buff link.length :=
  dirOf_append_eq_iff hlink (hbuff.named (List.length_pos_iff.2 hlink.nonempty)) hbuff.head

/-- Otherwise the directory that is taken goes on to the last slash that is left. -/
theorem dirOf_view_of_split (hbuff : Clean buff) (hlink : Target link) {a b : Text}
    (hab : view buff link.length = a ++ '/' :: b) (hb : '/' ∉ b) :
    dirOf (link ++ view buff link.length) = link ++ a := by
  have hnamed := hbuff.named (List.length_pos_iff.2 hlink.nonempty)
  have hhead : link.length = 1 → (view buff link.length).head? ≠ some '/' := hbuff.head
  rw [hab] at hnamed hhead ⊢
  exact dirOf_append_slash hlink hnamed hb hhead

/-! ## The links

`get_file` can end in three ways.  If the link cannot be read there is a row that says so; if it can
and `stat` fails there is none, and the path is not restored; the third way is the usual one.
-/

variable (sys : Sys) {s : State}

/-- `parent_length` is the length of the path. -/
def State.AtParent (s : State) : Prop := s.info.parent_length = s.info.path.length

/-- A name that is put behind the path is taken off. -/
theorem cut_append {info : PidInfo} (h : info.parent_length = info.path.length) (t : Text) :
    (info.append t).cut = info := by
  have hpath : (info.path ++ t).take info.parent_length = info.path := by
    rw [h, List.take_left']
    rfl
  rw [PidInfo.cut, PidInfo.cutAt]
  simp only [PidInfo.append, hpath]

/-- So are two of them. -/
theorem cut_append_append {info : PidInfo} (h : info.parent_length = info.path.length)
    (t t' : Text) : ((info.append t).append t').cut = info := by
  have happ : (info.append t).append t' = info.append (t ++ t') := by
    simp only [PidInfo.append, List.append_assoc]
  rw [happ, cut_append h]

/-- The three files with their column FD. -/
def fileColumns : List (Text × Text) :=
  [("cwd".toList, "cwd".toList), ("root".toList, "rtd".toList), ("exe".toList, "txt".toList)]

theorem cwd_mem : ("cwd".toList, "cwd".toList) ∈ fileColumns := .head _

theorem root_mem : ("root".toList, "rtd".toList) ∈ fileColumns := .tail _ (.head _)

theorem exe_mem : ("exe".toList, "txt".toList) ∈ fileColumns := .tail _ (.tail _ (.head _))

/-- The three branches of `get_file` differ in the column FD. -/
theorem getFile_eq {file fd : Text} (h : (file, fd) ∈ fileColumns) (s : State) :
    getFile sys file s = fileBranch sys fd { s with info := s.info.append file } := by
  have hcases : file = "cwd".toList ∧ fd = "cwd".toList ∨
      file = "root".toList ∧ fd = "rtd".toList ∨ file = "exe".toList ∧ fd = "txt".toList := by
    simpa [fileColumns] using h
  obtain ⟨rfl, rfl⟩ | ⟨rfl, rfl⟩ | ⟨rfl, rfl⟩ := hcases
  · rfl
  · rfl
  · rfl

/-- The state after a link, if the path is restored: of the link there is what is left in the
buffer. -/
def State.afterLink (s : State) : Option Text → State
  | none => s
  | some link =>
    { s with
      fileBuff := (readInto link s.fileBuff).2
      inside := s.inside && fits (readInto link s.fileBuff).1 }

/-- The path is back. -/
theorem State.afterLink_info (s : State) (o : Option Text) : (s.afterLink o).info = s.info := by
  rcases o with _ | link
  · rfl
  · rfl

theorem State.AtParent.afterLink (h : s.AtParent) (o : Option Text) : (s.afterLink o).AtParent := by
  rw [State.AtParent, State.afterLink_info]
  exact h

/-- The buffer of the descriptors is another one. -/
theorem State.afterLink_fdBuff (s : State) (o : Option Text) :
    (s.afterLink o).fdBuff = s.fdBuff := by
  rcases o with _ | link
  · rfl
  · rfl

variable {sys} {file fd : Text}

/-- The buffer stays clean. -/
theorem clean_afterLink (hclean : Clean s.fileBuff) (o : Option Text)
    (ho : ∀ link, o = some link → Target link) : Clean (s.afterLink o).fileBuff := by
  rcases o with _ | link
  · exact hclean
  · exact clean_readInto hclean (ho link rfl)

/-- What a link leaves behind. -/
theorem view_afterLink (o : Option Text) (ho : ∀ link, o = some link → Target link) :
    view (s.afterLink o).fileBuff = behindLink (view s.fileBuff) o := by
  rcases o with _ | link
  · rfl
  · exact funext (view_readInto (ho link rfl).plain)

/-! ### What `get_file` does, for each pair of answers -/

/-- The link cannot be read. -/
theorem getFile_denied (hs : s.AtParent) (hfile : (file, fd) ∈ fileColumns)
    (hlink : sys.readlink (s.info.path ++ file) = none) :
    getFile sys file s = ([⟨(s.info.append file).append denied, fd, "unknown".toList, [],
      s.info.path ++ file ++ denied⟩], s) := by
  have hlink' : sys.readlink (s.info.append file).path = none := hlink
  rw [getFile_eq sys hfile, fileBranch, hlink']
  dsimp only
  rw [cut_append_append hs]
  rfl

/-- The link can be read and `stat` fails: there is no row, and the path stays as it is. -/
theorem getFile_lost (hfile : (file, fd) ∈ fileColumns) {link : Text}
    (hlink : sys.readlink (s.info.path ++ file) = some link)
    (hstat : sys.stat (s.info.path ++ file) = none) :
    getFile sys file s = ([], { s.afterLink (some link) with info := s.info.append file }) := by
  have hlink' : sys.readlink (s.info.append file).path = some link := hlink
  have hstat' : sys.stat (s.info.append file).path = none := hstat
  rw [getFile_eq sys hfile, fileBranch, hlink']
  dsimp only
  rw [hstat']
  rfl

/-- Both succeed. -/
theorem getFile_read (hs : s.AtParent) (hfile : (file, fd) ∈ fileColumns) {link : Text} {st : Stat}
    (hlink : sys.readlink (s.info.path ++ file) = some link)
    (hstat : sys.stat (s.info.path ++ file) = some st) :
    getFile sys file s = ([⟨s.info.append file, fd, typeOf st.st_mode, inodeOf st,
      (readInto link s.fileBuff).1⟩], s.afterLink (some link)) := by
  have hlink' : sys.readlink (s.info.append file).path = some link := hlink
  have hstat' : sys.stat (s.info.append file).path = some st := hstat
  rw [getFile_eq sys hfile, fileBranch, hlink']
  dsimp only
  rw [hstat']
  dsimp only
  rw [cut_append hs]
  rfl

/-- The path is back, and nothing else is changed but the buffer. -/
theorem getFile_of_sound (hs : s.AtParent) (hfile : (file, fd) ∈ fileColumns)
    (hsound : sys.Sound (s.info.path ++ file)) :
    (getFile sys file s).2 = s.afterLink (sys.readlink (s.info.path ++ file)) := by
  rcases hlink : sys.readlink (s.info.path ++ file) with _ | link
  · rw [getFile_denied hs hfile hlink]
    rfl
  · obtain ⟨st, hstat⟩ := Option.isSome_iff_exists.1 (hsound (by rw [hlink]; rfl))
    rw [getFile_read hs hfile hlink hstat]

/-- A byte that has been written outside stays written. -/
theorem getFile_inside (s : State) (hfile : (file, fd) ∈ fileColumns)
    (h : (getFile sys file s).2.inside = true) : s.inside = true := by
  rw [getFile_eq sys hfile, fileBranch] at h
  dsimp only at h
  rcases hlink : sys.readlink (s.info.append file).path with _ | link
  · rw [hlink] at h
    exact h
  · rw [hlink] at h
    dsimp only at h
    rcases hstat : sys.stat (s.info.append file).path with _ | st
    · rw [hstat] at h
      exact (Bool.and_eq_true_iff.1 h).1
    · rw [hstat] at h
      exact (Bool.and_eq_true_iff.1 h).1

/-- **When `get_file` does no damage.** -/
theorem getFile_contained_iff (hlinks : sys.KernelLinks) (hclean : Clean s.fileBuff)
    (hs : s.AtParent) (hfile : (file, fd) ∈ fileColumns) :
    ((getFile sys file s).2.info.path = s.info.path ∧
      (∀ c ∈ (getFile sys file s).1, FromLink sys (s.info.path ++ file) fd c) ∧
      (getFile sys file s).2.inside = true) ↔
    s.inside = true ∧ sys.Sound (s.info.path ++ file) ∧
      ∀ link, sys.readlink (s.info.path ++ file) = some link →
        FileApart link (view s.fileBuff link.length) := by
  rcases hlink : sys.readlink (s.info.path ++ file) with _ | link
  · have hsound : sys.Sound (s.info.path ++ file) := fun h ↦ by
      rw [hlink] at h
      exact absurd h (by simp)
    rw [getFile_denied hs hfile hlink]
    constructor
    · exact fun h ↦ ⟨h.2.2, hsound, fun link h ↦ absurd h (by simp)⟩
    · refine fun h ↦ ⟨rfl, fun c hc ↦ ?_, h.1⟩
      rw [List.mem_singleton.1 hc]
      exact ⟨rfl, .inr ⟨hlink, rfl, rfl, rfl, rfl⟩⟩
  · have htarget := hlinks _ link hlink
    rcases hstat : sys.stat (s.info.path ++ file) with _ | st
    · have hsound : ¬ sys.Sound (s.info.path ++ file) := fun h ↦ by
        have hsome := h (by rw [hlink]; rfl)
        rw [hstat] at hsome
        exact absurd hsome (by simp)
      rw [getFile_lost hfile hlink hstat]
      refine iff_of_false (fun h ↦ ?_) fun h ↦ hsound h.2.1
      have hnil := List.append_right_eq_self.1 h.1
      rw [hnil] at hfile
      exact absurd hfile (by simp [fileColumns])
    · have hsound : sys.Sound (s.info.path ++ file) := fun _ ↦ by rw [hstat]; rfl
      have hname : (readInto link s.fileBuff).1 =
          dirOf (link ++ view s.fileBuff link.length) := readInto_fst htarget.plain
      have hapart := dirOf_view_iff hclean htarget
      have hinside : (s.afterLink (some link)).inside = true ↔
          s.inside = true ∧ fits (readInto link s.fileBuff).1 = true := Bool.and_eq_true_iff
      rw [getFile_read hs hfile hlink hstat]
      dsimp only
      rw [hinside, hname]
      constructor
      · rintro ⟨-, hrow, hin, hfits⟩
        refine ⟨hin, hsound, fun l hl ↦ ?_⟩
        obtain rfl := Option.some.inj hl
        obtain ⟨-, ⟨l, st', hl', -, hfile'⟩ | ⟨hnone, -⟩⟩ := hrow _ (List.mem_singleton_self _)
        · rw [hlink] at hl'
          obtain rfl := Option.some.inj hl'
          have hdir : dirOf (link ++ view s.fileBuff link.length) = dirOf link := hfile'
          rw [hdir] at hfits
          exact ⟨hapart.1 hdir, hfits⟩
        · rw [hlink] at hnone
          exact absurd hnone (by simp)
      · rintro ⟨hin, -, htold⟩
        obtain ⟨hplain, hfits⟩ := htold link rfl
        refine ⟨rfl, fun c hc ↦ ?_, hin, ?_⟩
        · rw [List.mem_singleton.1 hc]
          exact ⟨rfl, .inl ⟨link, st, hlink, ⟨hstat, rfl, rfl, rfl⟩, hapart.2 hplain⟩⟩
        · rw [hapart.2 hplain]
          exact hfits

/-! ### One link after the other -/

/-- The state after some links. -/
def afterLinks (sys : Sys) (s : State) (files : List (Text × Text)) : State :=
  files.foldl (fun s x ↦ (getFile sys x.1 s).2) s

/-- After every link the path is back, and the rows are its own. -/
def LinksOwn (sys : Sys) (path : Text) : State → List (Text × Text) → Prop
  | _, [] => True
  | s, x :: files =>
    ((getFile sys x.1 s).2.info.path = path ∧
      ∀ c ∈ (getFile sys x.1 s).1, FromLink sys (path ++ x.1) x.2 c) ∧
    LinksOwn sys path (getFile sys x.1 s).2 files

/-- So it does after some links. -/
theorem afterLinks_inside (files : List (Text × Text)) (h : ∀ x ∈ files, x ∈ fileColumns) :
    ∀ s : State, (afterLinks sys s files).inside = true → s.inside = true := by
  induction files with
  | nil => exact fun _ hin ↦ hin
  | cons x files ih =>
    exact fun s hin ↦ getFile_inside s (h x List.mem_cons_self)
      (ih (fun y hy ↦ h y (List.mem_cons_of_mem x hy)) _ hin)

/-- **When some links do no damage.** -/
theorem linksOwn_iff (hlinks : sys.KernelLinks) (files : List (Text × Text))
    (h : ∀ x ∈ files, x ∈ fileColumns) : ∀ s : State, Clean s.fileBuff → s.AtParent →
    ((LinksOwn sys s.info.path s files ∧ (afterLinks sys s files).inside = true) ↔
      s.inside = true ∧ (∀ x ∈ files, sys.Sound (s.info.path ++ x.1)) ∧
        Each FileApart id (view s.fileBuff)
          ((files.map Prod.fst).filterMap fun f ↦ sys.readlink (s.info.path ++ f))) := by
  induction files with
  | nil =>
    intro s _ _
    exact ⟨fun hin ↦ ⟨hin.2, fun x hx ↦ absurd hx List.not_mem_nil, trivial⟩,
      fun hin ↦ ⟨trivial, hin.1⟩⟩
  | cons x files ih =>
    intro s hclean hs
    have hx := h x List.mem_cons_self
    have hrest : ∀ y ∈ files, y ∈ fileColumns := fun y hy ↦ h y (List.mem_cons_of_mem x hy)
    have hstep := getFile_contained_iff hlinks hclean hs hx
    rw [List.map_cons, each_filterMap_cons, List.forall_mem_cons]
    by_cases hsound : sys.Sound (s.info.path ++ x.1)
    · have hafter := getFile_of_sound hs hx hsound
      have hrec := ih hrest (s.afterLink (sys.readlink (s.info.path ++ x.1)))
        (clean_afterLink hclean _ (hlinks _)) (hs.afterLink _)
      rw [State.afterLink_info, view_afterLink _ (hlinks _)] at hrec
      rw [LinksOwn, afterLinks, List.foldl_cons, hafter]
      rw [hafter] at hstep
      constructor
      · rintro ⟨⟨⟨hpath, hrows⟩, hown⟩, hin⟩
        obtain ⟨hin', hsounds, hapart⟩ := hrec.1 ⟨hown, hin⟩
        obtain ⟨hin₀, -, hx'⟩ := hstep.1 ⟨hpath, hrows, hin'⟩
        exact ⟨hin₀, ⟨hsound, hsounds⟩, hx', hapart⟩
      · rintro ⟨hin₀, ⟨-, hsounds⟩, hx', hapart⟩
        obtain ⟨hpath, hrows, hin'⟩ := hstep.2 ⟨hin₀, hsound, hx'⟩
        obtain ⟨hown, hin⟩ := hrec.2 ⟨hin', hsounds, hapart⟩
        exact ⟨⟨⟨hpath, hrows⟩, hown⟩, hin⟩
    · refine iff_of_false (fun hown ↦ hsound ?_) fun hall ↦ hsound hall.2.1.1
      have hin := afterLinks_inside files hrest _ hown.2
      exact (hstep.1 ⟨hown.1.1.1, hown.1.1.2, hin⟩).2.1

/-- Then the process is as it was, for the next step. -/
theorem afterLinks_of_sound (files : List (Text × Text)) (h : ∀ x ∈ files, x ∈ fileColumns) :
    ∀ s : State, s.AtParent → (∀ x ∈ files, sys.Sound (s.info.path ++ x.1)) →
      (afterLinks sys s files).info = s.info ∧ (afterLinks sys s files).fdBuff = s.fdBuff := by
  induction files with
  | nil => exact fun s _ _ ↦ ⟨rfl, rfl⟩
  | cons x files ih =>
    intro s hs hsound
    have hafter := getFile_of_sound hs (h x List.mem_cons_self) (hsound x List.mem_cons_self)
    have hrec := ih (fun y hy ↦ h y (List.mem_cons_of_mem x hy))
      (s.afterLink (sys.readlink (s.info.path ++ x.1)))
      (hs.afterLink _)
      (by
        rw [State.afterLink_info]
        exact fun y hy ↦ hsound y (List.mem_cons_of_mem x hy))
    rw [State.afterLink_info, State.afterLink_fdBuff] at hrec
    rw [afterLinks, List.foldl_cons, hafter]
    exact hrec

end Dump
