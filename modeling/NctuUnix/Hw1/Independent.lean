import NctuUnix.Hw1.Answers

/-!
# Processes are listed independently?

The rows of a process should not depend on the other processes of the list.  Three things go from
one process to another: `errno`, which `file_fd` reads although its `opendir` did not fail; the end
of the program, which a process causes whose stat file or whose directory of descriptors cannot be
read; and the buffer of `stdout`, which is lost with what the processes before have printed where
the program crashes.

A process sets `errno` to a value of its own if one of its calls fails before `opendir` is done
(`Proc.Fails`); otherwise what is left over decides between the row `NOFD` and the descriptors.

## Main results

* `independent_iff` — every process of a list is shown as it would be shown alone, if and only if
  none is disturbed (`Undisturbed`); then what is seen of the list is what is seen of its processes,
  one after the other.
* `independent_fails` — an `errno` that is left over, a process that has vanished, and a crash.
-/

set_option autoImplicit false

namespace Lsof

open Input

variable {regex : Regex} (libc : Libc) (F : Filters regex)

/-! ## What is claimed -/

/-- The rows printed for `p` after the processes of `pre`. -/
def rowsAfter (pre : List Proc) (p : Proc) (errno : Errno) : List Row :=
  match (scan libc pre errno).2 with
  | .ok errno => rows libc F [p] errno
  | .error _ => []

/-- What can be seen of the rows of `p`, between those of `pre` and those of `post`. -/
def Shown (pre : List Proc) (p : Proc) (post : List Proc) (errno : Errno) (out : List Row) : Prop :=
  ∃ whole, Output libc F (pre ++ p :: post) errno whole ∧
    out = (whole.drop (rows libc F pre errno).length).take (rowsAfter libc F pre p errno).length

/-- Every process is shown as if it were alone. -/
def Independent (ps : List Proc) (errno : Errno) : Prop :=
  ∀ pre p post, ps = pre ++ p :: post →
    ∀ out, Shown libc F pre p post errno out ↔ Shown libc F [] p [] errno out

/-- What can be seen of each of some processes, if it is alone. -/
def Alone (ps : List Proc) (errno : Errno) (outs : List (List Row)) : Prop :=
  List.Forall₂ (fun p out ↦ Output libc F [p] errno out) ps outs

/-- The other processes do not show in what is shown of `p`. -/
structure Undisturbed (pre : List Proc) (p : Proc) (post : List Proc) (errno : Errno) : Prop where
  /-- Where one of those before ends the program, there is nothing to show of `p`. -/
  reached : (∃ q ∈ pre, q.ending? ≠ none) → p.Quiet libc F errno
  /-- What they leave in `errno` is `EACCES` if it was that at first, or `p` sets it itself, or it
  does not show. -/
  carried : (∀ q ∈ pre, q.ending? = none) →
    (left pre errno = EACCES ↔ errno = EACCES) ∨ p.Fails ∨ p.FdQuiet libc F
  /-- Where the first one behind that ends the program crashes, there is nothing to show of `p`,
  unless `p` itself has ended it. -/
  kept : (∀ q ∈ pre, q.ending? = none) → p.ending? = none →
    post.findSome? Proc.ending? = some .crashes → p.Quiet libc F errno

/-! ## What `errno` changes -/

theorem typeOf_ne_nil (m : Nat) : typeOf m ≠ [] := by
  rw [typeOf]
  repeat' split
  all_goals decide

theorem Process.type_stated (file : Process) (a : Answer Stat) : (file.stated a).type ≠ [] := by
  rcases a with c | info
  · exact List.cons_ne_nil _ _
  · exact typeOf_ne_nil _

/-- The record of a descriptor has a type. -/
theorem type_of_mem_fdLoop {f : Process} (es : List Entry) : ∀ (file : Process) (e : Errno),
    f ∈ (fdLoop file e es).1 → f.type ≠ [] := by
  induction es with
  | nil => exact fun _ _ h ↦ absurd h List.not_mem_nil
  | cons dirp rest ih =>
    intro file e h
    rw [fdLoop] at h
    split at h
    · exact ih _ _ h
    · split at h
      · exact ih _ _ h
      · rename_i buf _
        rcases List.mem_cons.1 h with rfl | h
        · have htype := Process.type_stated { file with name := buf } dirp.stat
          rcases dirp.lstat with c | info
          · exact htype
          · exact htype
        · exact ih _ _ h

theorem type_display {file : Process} (h : file.type ≠ []) : (display file).type ≠ [] := by
  rw [display]
  dsimp only
  split
  · exact List.cons_ne_nil _ _
  · exact h

variable {libc F}

/-- The row of a directory that is not opened has no type. -/
theorem type_display_noFd (p : Proc) (cmd : Text) :
    (display (noFd libc { p.file cmd with dir := "fd".toList })).type = [] := by
  have hname : (noFd libc { p.file cmd with dir := "fd".toList }).name
      = ("/proc/".toList ++ toText p.pid ++ "/fd ".toList) ++
        "(opendir: Permission denied)".toList := by
    rw [noFd]
    dsimp only [Proc.file]
    rw [libc.strerror_eacces]
    simp
  have hhead : '(' ∉ "/proc/".toList ++ toText p.pid ++ "/fd ".toList := by
    simp only [List.mem_append, not_or]
    exact ⟨⟨by decide, notMem_toText (by decide) (by decide) _⟩, by decide⟩
  have hclean : ¬ deleted <:+: (noFd libc { p.file cmd with dir := "fd".toList }).name := by
    rw [hname, show deleted = '(' :: "deleted)".toList from rfl, Erase.infix_append_of_head hhead]
    decide
  rw [(display_of_not_deleted hclean).1]
  rfl

theorem eq_display_of_printResult {file : Process} {r : Row} (h : printResult F file = some r) :
    r = display file := by
  rw [printResult] at h
  split at h
  · exact (Option.some.inj h).symm
  · exact absurd h (by simp)

/-- The row for a closed directory is not the row of a descriptor, so the two give the same rows
only where the filters let neither through. -/
theorem noFd_rows_iff (p : Proc) (cmd : Text) (es : List Entry) (file : Process) (e : Errno) :
    [noFd libc { p.file cmd with dir := "fd".toList }].filterMap (printResult F)
        = (fdLoop file e es).1.filterMap (printResult F) ↔
      Silent F (noFd libc { p.file cmd with dir := "fd".toList } :: (fdLoop file e es).1) := by
  rw [silent_iff]
  constructor
  · intro h
    rcases hno : printResult F (noFd libc { p.file cmd with dir := "fd".toList }) with _ | r
    · rw [List.filterMap_cons_none hno, ← h, List.filterMap_cons_none hno, List.filterMap_nil]
    · rw [List.filterMap_cons_some hno, List.filterMap_nil] at h
      have hr : r ∈ (fdLoop file e es).1.filterMap (printResult F) := by
        rw [← h]
        exact List.mem_singleton_self r
      obtain ⟨f, hf, hprint⟩ := List.mem_filterMap.1 hr
      have htype : (display f).type ≠ [] := type_display (type_of_mem_fdLoop es file e hf)
      rw [← eq_display_of_printResult hprint, eq_display_of_printResult hno] at htype
      exact absurd (type_display_noFd p cmd) htype
  · intro h
    rw [List.filterMap_cons] at h
    rcases hno : printResult F (noFd libc { p.file cmd with dir := "fd".toList }) with _ | r
    · rw [hno] at h
      rw [List.filterMap_cons_none hno, List.filterMap_nil]
      exact h.symm
    · rw [hno] at h
      exact absurd h (List.cons_ne_nil _ _)

/-- **What `errno` changes.**  A process is printed the same with two values of `errno` unless one
of them is `EACCES`, the other is not, no call sets `errno` and the filters let the difference
show. -/
theorem rows_singleton_eq_iff (p : Proc) (e e' : Errno) :
    rows libc F [p] e = rows libc F [p] e' ↔
      (e = EACCES ↔ e' = EACCES) ∨ p.Fails ∨ p.FdQuiet libc F := by
  rw [rows_singleton, rows_singleton]
  rcases hcmd : p.cmd? with _ | cmd
  · rw [lsof_of_no_cmd libc hcmd, lsof_of_no_cmd libc hcmd]
    exact iff_of_true rfl (.inr (.inr fun _ h ↦ absurd (hcmd.symm.trans h) (by simp)))
  · rw [lsof_of_cmd libc hcmd, lsof_of_cmd libc hcmd]
    simp only [List.filterMap_append, List.append_cancel_left_eq]
    rcases hfail : p.failure with _ | c
    · rcases hfd : p.fd with c | d
      · exact iff_of_true rfl (.inr (.inl (.inr (by rw [hfd]; rfl))))
      · have hfails : ¬ p.Fails := by
          rw [Proc.Fails, hfail, hfd]
          simp [Answer.error?]
        have hquiet : p.FdQuiet libc F ↔
            Silent F (noFd libc { p.file cmd with dir := "fd".toList } ::
              (fdLoop { p.file cmd with dir := "fd".toList } 0 d.entries).1) := by
          have hopen : p.OpenQuiet F cmd ↔ ∀ d' ∈ d.entries, d'.Quiet F cmd := by
            simp [Proc.OpenQuiet, hfd]
          rw [silent_cons, silent_noFd, silent_fdLoop]
          refine ⟨fun h ↦ ⟨(h cmd hcmd).1, hopen.1 (h cmd hcmd).2⟩, fun h cmd' hcmd' ↦ ?_⟩
          obtain rfl := Option.some.inj (hcmd.symm.trans hcmd')
          exact ⟨h.1, hopen.2 h.2⟩
        have hloop (a b : Errno) := fdLoop_fst d.entries
          { p.file cmd with dir := "fd".toList } a b
        simp only [fileFd_of_ok, Option.getD_none, hfails, hquiet, false_or]
        by_cases he : e = EACCES
        · by_cases he' : e' = EACCES
          · simp only [he, he', true_or]
          · simp only [he, he', if_true, if_false]
            rw [hloop e' 0, noFd_rows_iff]
            simp
        · by_cases he' : e' = EACCES
          · simp only [he, he', if_true, if_false]
            rw [hloop e 0, eq_comm, noFd_rows_iff]
            simp
          · simp only [he, he', if_false]
            rw [hloop e e']
            simp
    · exact iff_of_true rfl (.inr (.inl (.inl (by rw [hfail]; rfl))))

/-! ## A list of processes -/

/-- The rows of a list are those of its first process and those of the others after it. -/
theorem rows_cons (p : Proc) (ps : List Proc) (e : Errno) :
    rows libc F (p :: ps) e = rows libc F [p] e ++
      p.ending?.elim (rows libc F ps (p.leaves e)) fun _ ↦ [] := by
  have hp := lsof_status libc p e
  rw [rows_singleton, rows, scan]
  rcases hlsof : lsof libc p e with ⟨files, ending | e'⟩
  · rw [hlsof, Proc.status] at hp
    rcases hend : p.ending? with _ | x
    · rw [hend] at hp
      exact absurd hp (by simp)
    · simp
  · rw [hlsof, Proc.status] at hp
    rcases hend : p.ending? with _ | x
    · rw [hend] at hp
      obtain rfl := Except.ok.inj hp
      simp [rows]
    · rw [hend] at hp
      exact absurd hp (by simp)

/-- The rows of a list, process by process. -/
theorem rows_append (ps : List Proc) : ∀ (qs : List Proc) (e : Errno),
    rows libc F (ps ++ qs) e = rows libc F ps e ++
      (ps.findSome? Proc.ending?).elim (rows libc F qs (left ps e)) fun _ ↦ [] := by
  induction ps with
  | nil => exact fun qs e ↦ rfl
  | cons p ps ih =>
    intro qs e
    rw [List.cons_append, rows_cons, rows_cons p ps, List.findSome?_cons]
    rcases hend : p.ending? with _ | x
    · rw [Option.elim_none, Option.elim_none, ih, List.append_assoc]
      rfl
    · simp

theorem rowsAfter_eq (pre : List Proc) (p : Proc) (e : Errno) : rowsAfter libc F pre p e =
    (pre.findSome? Proc.ending?).elim (rows libc F [p] (left pre e)) fun _ ↦ [] := by
  rw [rowsAfter, scan_status]
  rcases pre.findSome? Proc.ending? with _ | x <;> rfl

theorem rows_concat (ps : List Proc) (p : Proc) (e : Errno) :
    rows libc F (ps ++ [p]) e = rows libc F ps e ++ rowsAfter libc F ps p e := by
  rw [rows_append, rowsAfter_eq]

/-- The rows of one process stand behind those of the processes before it. -/
theorem exists_rows_append (pre : List Proc) (p : Proc) (post : List Proc) (e : Errno) :
    ∃ behind, rows libc F (pre ++ p :: post) e =
      rows libc F pre e ++ (rowsAfter libc F pre p e ++ behind) := by
  have hsplit : pre ++ p :: post = (pre ++ [p]) ++ post := by simp
  rw [hsplit, rows_append, rows_concat, List.append_assoc]
  exact ⟨_, rfl⟩

/-! ## What is seen -/

/-- The list ends in a crash. -/
def Crash (ps : List Proc) : Prop := ps.findSome? Proc.ending? = some .crashes

instance (ps : List Proc) : Decidable (Crash ps) := inferInstanceAs (Decidable (_ = _))

theorem output_iff (ps : List Proc) (e : Errno) (out : List Row) : Output libc F ps e out ↔
    (Crash ps ∧ out <+: rows libc F ps e) ∨ (¬ Crash ps ∧ out = rows libc F ps e) := by
  rw [Output, scan_status, Crash]
  rcases ps.findSome? Proc.ending? with _ | _ | _ <;> simp

/-- All of the rows of a process are seen, or as many as there may be if the program crashes. -/
theorem shown_iff (pre : List Proc) (p : Proc) (post : List Proc) (e : Errno) (out : List Row) :
    Shown libc F pre p post e out ↔
      (Crash (pre ++ p :: post) ∧ out <+: rowsAfter libc F pre p e) ∨
        (¬ Crash (pre ++ p :: post) ∧ out = rowsAfter libc F pre p e) := by
  obtain ⟨behind, hrows⟩ : ∃ behind, rows libc F (pre ++ p :: post) e =
      rows libc F pre e ++ (rowsAfter libc F pre p e ++ behind) := exists_rows_append pre p post e
  have hcut : ((rows libc F pre e ++ (rowsAfter libc F pre p e ++ behind)).drop
      (rows libc F pre e).length).take (rowsAfter libc F pre p e).length =
        rowsAfter libc F pre p e := by
    rw [List.drop_left, List.take_left]
  rw [Shown]
  simp only [output_iff, hrows]
  constructor
  · rintro ⟨whole, ⟨hcrash, hout⟩ | ⟨hcrash, rfl⟩, rfl⟩
    · have hpart := (hout.drop (rows libc F pre e).length).take
        (rowsAfter libc F pre p e).length
      rw [hcut] at hpart
      exact .inl ⟨hcrash, hpart⟩
    · exact .inr ⟨hcrash, hcut⟩
  · rintro (⟨hcrash, hout⟩ | ⟨hcrash, rfl⟩)
    · refine ⟨rows libc F pre e ++ out, .inl ⟨hcrash, ?_⟩, ?_⟩
      · exact (List.prefix_append_right_inj _).2 (hout.trans (List.prefix_append _ _))
      · rw [List.drop_left, List.take_of_length_le hout.length_le]
    · exact ⟨_, .inr ⟨hcrash, rfl⟩, hcut.symm⟩

/-- Two lists of rows of which the same can be seen. -/
theorem seen_eq_iff {C C' : Prop} {a b : List Row} :
    (∀ out, (C ∧ out <+: a ∨ ¬ C ∧ out = a) ↔ (C' ∧ out <+: b ∨ ¬ C' ∧ out = b)) ↔
      a = b ∧ ((C ↔ C') ∨ b = []) := by
  by_cases hC : C
  · by_cases hC' : C'
    · simp only [hC, hC', true_and, not_true_eq_false, false_and, or_false, true_or, and_true]
      refine ⟨fun h ↦ ?_, fun h out ↦ by rw [h]⟩
      exact ((h a).1 (List.prefix_refl a)).eq_of_length_le ((h b).2 (List.prefix_refl b)).length_le
    · simp only [hC, hC', true_and, not_true_eq_false, not_false_eq_true, false_and, or_false,
        false_or, iff_false]
      refine ⟨fun h ↦ ?_, fun h out ↦ ?_⟩
      · have hb : b = [] := ((h []).1 (List.nil_prefix)).symm
        exact ⟨(h a).1 (List.prefix_refl a), hb⟩
      · rw [h.1, h.2, List.prefix_nil]
  · by_cases hC' : C'
    · simp only [hC, hC', true_and, not_true_eq_false, not_false_eq_true, false_and, or_false,
        false_or, iff_true]
      refine ⟨fun h ↦ ?_, fun h out ↦ ?_⟩
      · have ha : [] = a := (h []).2 List.nil_prefix
        have hb : b = a := (h b).2 (List.prefix_refl b)
        exact ⟨hb.symm, hb.trans ha.symm⟩
      · rw [h.1, h.2, List.prefix_nil]
    · simp only [hC, hC', true_and, not_false_eq_true, false_and, false_or, true_or, and_true]
      refine ⟨fun h ↦ (h a).1 rfl, fun h out ↦ by rw [h]⟩

/-- A process is shown as if it were alone exactly if it is not disturbed. -/
theorem shown_eq_iff (pre : List Proc) (p : Proc) (post : List Proc) (e : Errno) :
    (∀ out, Shown libc F pre p post e out ↔ Shown libc F [] p [] e out) ↔
      Undisturbed libc F pre p post e := by
  have halone : rowsAfter libc F [] p e = rows libc F [p] e := rfl
  have hnone : (∀ q ∈ pre, q.ending? = none) ↔ pre.findSome? Proc.ending? = none :=
    List.findSome?_eq_none_iff.symm
  simp only [shown_iff, seen_eq_iff, halone]
  rcases hpre : pre.findSome? Proc.ending? with _ | x
  · have hall := hnone.2 hpre
    have hreach : ¬ ∃ q ∈ pre, q.ending? ≠ none := fun ⟨q, hq, hne⟩ ↦ hne (hall q hq)
    have hsame : rowsAfter libc F pre p e = rows libc F [p] (left pre e) := by
      rw [rowsAfter_eq, hpre, Option.elim_none]
    have hcrash : Crash (pre ++ p :: post) ↔ Crash (p :: post) := by
      rw [Crash, List.findSome?_append, hpre, Option.none_or, Crash]
    rw [hsame, rows_singleton_eq_iff, rows_eq_nil_iff, hcrash, List.nil_append, Crash, Crash,
      List.findSome?_cons, List.findSome?_cons]
    rcases hend : p.ending? with _ | x
    · simp only [List.findSome?_nil, reduceCtorEq, iff_false]
      refine ⟨fun h ↦ ⟨fun hq ↦ absurd hq hreach, fun _ ↦ h.1, fun _ _ hpost ↦ ?_⟩,
        fun h ↦ ⟨h.carried hall, ?_⟩⟩
      · exact h.2.resolve_left fun hno ↦ hno hpost
      · by_cases hpost : post.findSome? Proc.ending? = some .crashes
        · exact .inr (h.kept hall hend hpost)
        · exact .inl hpost
    · simp only [true_or, and_true]
      refine ⟨fun h ↦ ⟨fun hq ↦ absurd hq hreach, fun _ ↦ h, fun _ hp ↦ ?_⟩,
        fun h ↦ h.carried hall⟩
      exact absurd (hend.symm.trans hp) (by simp)
  · have hreach : ∃ q ∈ pre, q.ending? ≠ none := by
      by_contra hno
      push Not at hno
      exact absurd (hpre.symm.trans (hnone.1 hno)) (by simp)
    have hall : ¬ ∀ q ∈ pre, q.ending? = none := fun h ↦ hreach.elim fun q hq ↦ hq.2 (h q hq.1)
    have hgone : rowsAfter libc F pre p e = [] := by rw [rowsAfter_eq, hpre, Option.elim_some]
    rw [hgone, rows_eq_nil_iff, eq_comm, rows_eq_nil_iff]
    constructor
    · exact fun h ↦ ⟨fun _ ↦ h.1, fun hno ↦ absurd hno hall, fun hno ↦ absurd hno hall⟩
    · exact fun h ↦ ⟨h.reached hreach, .inr (h.reached hreach)⟩

/-! ## One after the other -/

theorem rows_eq_flatMap {ps : List Proc} {e : Errno} (h : ∀ pre p post, ps = pre ++ p :: post →
    rowsAfter libc F pre p e = rows libc F [p] e) :
    rows libc F ps e = ps.flatMap fun p ↦ rows libc F [p] e := by
  induction ps using List.reverseRecOn with
  | nil => rfl
  | append_singleton ps p ih =>
    have hps : ∀ pre q post, ps = pre ++ q :: post →
        rowsAfter libc F pre q e = rows libc F [q] e := fun pre q post hq ↦
      h pre q (post ++ [p]) (by rw [hq, List.append_assoc, List.cons_append])
    rw [rows_concat, ih hps, h ps p [] rfl, List.flatMap_append, List.flatMap_singleton]

theorem output_of_certain {p : Proc} {e : Errno}
    (h : ¬ Crash [p] ∨ rows libc F [p] e = []) (out : List Row) :
    Output libc F [p] e out ↔ out = rows libc F [p] e := by
  rw [output_iff]
  rcases h with h | h
  · simp [h]
  · rw [h, List.prefix_nil]
    by_cases hcrash : Crash [p] <;> simp [hcrash]

/-- Where no process crashes, or what does has no rows, all rows are seen. -/
theorem alone_of_certain {ps : List Proc} {e : Errno}
    (h : ∀ p ∈ ps, ¬ Crash [p] ∨ rows libc F [p] e = []) (outs : List (List Row)) :
    Alone libc F ps e outs ↔ outs = ps.map fun p ↦ rows libc F [p] e := by
  induction ps generalizing outs with
  | nil => exact List.forall₂_nil_left_iff
  | cons p ps ih =>
    rw [List.forall_mem_cons] at h
    rw [Alone, List.forall₂_cons_left_iff]
    constructor
    · rintro ⟨out, outs, hout, houts, rfl⟩
      rw [(output_of_certain h.1 out).1 hout, (ih h.2 outs).1 houts, List.map_cons]
    · rintro rfl
      exact ⟨_, _, (output_of_certain h.1 _).2 rfl, (ih h.2 _).2 rfl, rfl⟩

/-- Where only one process has rows, what is seen of it is all there is. -/
theorem flatten_alone_iff {pre post : List Proc} {c : Proc} {e : Errno}
    (hpre : ∀ p ∈ pre, rows libc F [p] e = []) (hpost : ∀ p ∈ post, rows libc F [p] e = [])
    (out : List Row) : (∃ outs, Alone libc F (pre ++ c :: post) e outs ∧ out = outs.flatten) ↔
      Output libc F [c] e out := by
  induction pre generalizing out with
  | nil =>
    have hrest (outs : List (List Row)) (h : Alone libc F post e outs) : outs.flatten = [] := by
      rw [(alone_of_certain (fun p hp ↦ .inr (hpost p hp)) outs).1 h, List.map_congr_left hpost]
      simp
    constructor
    · rintro ⟨outs, halone, rfl⟩
      obtain ⟨out, outs, hout, houts, rfl⟩ := List.forall₂_cons_left_iff.1 halone
      rwa [List.flatten_cons, hrest outs houts, List.append_nil]
    · intro hout
      have halone := (alone_of_certain (fun p hp ↦ .inr (hpost p hp)) _).2 rfl
      exact ⟨_, .cons hout halone, by rw [List.flatten_cons, hrest _ halone, List.append_nil]⟩
  | cons p pre ih =>
    rw [List.forall_mem_cons] at hpre
    have hnone (out : List Row) : Output libc F [p] e out ↔ out = [] := by
      rw [output_of_certain (.inr hpre.1), hpre.1]
    rw [← ih hpre.2]
    constructor
    · rintro ⟨outs, halone, rfl⟩
      obtain ⟨out, outs, hout, houts, rfl⟩ := List.forall₂_cons_left_iff.1 halone
      exact ⟨outs, houts, by rw [(hnone out).1 hout, List.flatten_cons, List.nil_append]⟩
    · rintro ⟨outs, halone, rfl⟩
      exact ⟨[] :: outs, .cons ((hnone []).2 rfl) halone, rfl⟩

/-- What is seen of a list is what is seen of its processes, one after the other. -/
theorem output_of_independent {ps : List Proc} {e : Errno} (h : Independent libc F ps e)
    (out : List Row) : Output libc F ps e out ↔
      ∃ outs, Alone libc F ps e outs ∧ out = outs.flatten := by
  have hsplit : ∀ pre p post, ps = pre ++ p :: post → rowsAfter libc F pre p e = rows libc F [p] e ∧
      ((Crash ps ↔ Crash [p]) ∨ rows libc F [p] e = []) := by
    intro pre p post hps
    have hsame := h pre p post hps
    simp only [shown_iff, seen_eq_iff] at hsame
    rw [hps]
    exact hsame
  have hrows := rows_eq_flatMap fun pre p post hps ↦ (hsplit pre p post hps).1
  rw [output_iff]
  by_cases hcrash : Crash ps
  · -- those before the process that crashes have no rows, and those behind it are not printed
    obtain ⟨pre, c, post, rfl, hc, hpre⟩ := List.findSome?_eq_some_iff.1 hcrash
    have hquiet : ∀ p ∈ pre, rows libc F [p] e = [] := by
      intro p hp
      obtain ⟨before, behind, rfl⟩ := List.append_of_mem hp
      refine ((hsplit before p (behind ++ c :: post) (by simp)).2).resolve_left fun hiff ↦ ?_
      have hone := hiff.1 hcrash
      rw [Crash, List.findSome?_cons, hpre p hp] at hone
      exact absurd hone (by simp)
    have hlost : ∀ p ∈ post, rows libc F [p] e = [] := by
      intro p hp
      obtain ⟨before, behind, rfl⟩ := List.append_of_mem hp
      rw [← (hsplit (pre ++ c :: before) p behind (by simp)).1, rowsAfter_eq,
        List.findSome?_append, List.findSome?_eq_none_iff.2 hpre, Option.none_or,
        List.findSome?_cons, hc]
      rfl
    have hall : rows libc F (pre ++ c :: post) e = rows libc F [c] e := by
      rw [hrows, List.flatMap_append, List.flatMap_cons, List.flatMap_eq_nil_iff.2 hquiet,
        List.flatMap_eq_nil_iff.2 hlost, List.nil_append, List.append_nil]
    have hone : Crash [c] := by rw [Crash, List.findSome?_cons, hc]
    rw [flatten_alone_iff hquiet hlost, output_iff, hall]
    simp [hcrash, hone]
  · have hcertain : ∀ p ∈ ps, ¬ Crash [p] ∨ rows libc F [p] e = [] := by
      intro p hp
      obtain ⟨before, behind, hps⟩ := List.append_of_mem hp
      exact (hsplit before p behind hps).2.imp_left fun hiff hone ↦ hcrash (hiff.2 hone)
    simp only [alone_of_certain hcertain, exists_eq_left, hcrash, false_and, false_or,
      not_false_eq_true, true_and]
    rw [hrows, List.flatMap_def]

variable (libc F)

/-- **When processes are listed independently.**  Each process of a list is shown as it would be
shown alone if and only if it is undisturbed by the others: none before it ends the program, and
none behind it crashes it — or there is nothing to show of the process —, and `errno` is left as
`EACCES` just if it was at the start, or the process sets it itself, or neither `NOFD` nor the
descriptors are shown.  In that case what is seen of the list is what is seen of the processes, in
order. -/
theorem independent_iff (ps : List Proc) (errno : Errno) :
    (Independent libc F ps errno ↔
      ∀ pre p post, ps = pre ++ p :: post → Undisturbed libc F pre p post errno) ∧
    (Independent libc F ps errno → ∀ out, Output libc F ps errno out ↔
      ∃ outs, Alone libc F ps errno outs ∧ out = outs.flatten) := by
  refine ⟨forall_congr' fun pre ↦ forall_congr' fun p ↦ forall_congr' fun post ↦
    imp_congr_right fun _ ↦ shown_eq_iff pre p post errno, fun h out ↦ output_of_independent h out⟩

/-! ## Two processes -/

/-- No filter is given. -/
def noFilters : Filters literal where
  filter _ := false
  filtargu _ := []
  wellFormed _ _ := rfl
  typed h := absurd h Bool.false_ne_true

/-- A process that can be read, with one descriptor. -/
def readable : Proc where
  d_name := "2".toList
  dir := .ok ()
  pwuid := .ok "root".toList
  statfile := .ok ⟨"2 (cat) S".toList, none⟩
  cwd := ⟨.ok ⟨3, 0o40755⟩, .ok "/".toList⟩
  root := ⟨.ok ⟨3, 0o40755⟩, .ok "/".toList⟩
  exe := ⟨.ok ⟨4, 0o100755⟩, .ok "/bin/cat".toList⟩
  mapsStat := .ok ⟨5, 0o100444⟩
  exeStat := .ok ⟨4, 0o100755⟩
  mapsfile := .ok ⟨[], none⟩
  fd := .ok ⟨[⟨"0".toList, .ok "/dev/null".toList, .ok ⟨6, 0o20666⟩, .ok ⟨8, 0o120500⟩⟩], none⟩

/-- A process whose memory map is refused. -/
def guarded : Proc := { readable with d_name := "1".toList, mapsfile := .error EACCES }

/-- A process that has vanished. -/
def vanished : Proc := { readable with d_name := "1".toList, statfile := .error ENOENT }

/-- A process that vanishes before its descriptors are looked at. -/
def vanishing : Proc := { readable with d_name := "3".toList, fd := .error ENOENT }

/-- A library with one text for all errors. -/
def denied : Libc := ⟨fun _ ↦ "Permission denied".toList, rfl⟩

/-- **Rows that depend on other processes.**  `errno` is left over from a memory map that is
refused, so that the next process is shown with `NOFD`; no process is shown after one that has
vanished; and where one vanishes on the way, it may be that nothing is seen of the one before. -/
theorem independent_fails :
    (Shown denied noFilters [] readable [] 0 (rows denied noFilters [readable] 0) ∧
      ¬ Shown denied noFilters [guarded] readable [] 0 (rows denied noFilters [readable] 0)) ∧
    ¬ Independent denied noFilters [guarded, readable] 0 ∧
    ¬ Independent denied noFilters [vanished, readable] 0 ∧
    ¬ Independent denied noFilters [readable, vanishing] 0 := by
  have halone : Shown denied noFilters [] readable [] 0 (rows denied noFilters [readable] 0) :=
    (shown_iff _ _ _ _ _).2 (.inr ⟨by decide +kernel, rfl⟩)
  have hguarded : ¬ Shown denied noFilters [guarded] readable [] 0
      (rows denied noFilters [readable] 0) := by
    rw [shown_iff]
    rintro (⟨hcrash, -⟩ | ⟨-, heq⟩)
    · exact absurd hcrash (by decide +kernel)
    · exact absurd heq (by decide +kernel)
  refine ⟨⟨halone, hguarded⟩, fun h ↦ ?_, fun h ↦ ?_, fun h ↦ ?_⟩
  · exact hguarded ((h [guarded] readable [] rfl _).2 halone)
  · have hshown := (h [vanished] readable [] rfl _).2 halone
    rw [shown_iff] at hshown
    rcases hshown with ⟨hcrash, -⟩ | ⟨-, heq⟩
    · exact absurd hcrash (by decide +kernel)
    · exact absurd heq (by decide +kernel)
  · have hlost : Shown denied noFilters [] readable [vanishing] 0 [] :=
      (shown_iff _ _ _ _ _).2 (.inl ⟨by decide +kernel, List.nil_prefix⟩)
    have hshown := (h [] readable [vanishing] rfl _).1 hlost
    rw [shown_iff] at hshown
    rcases hshown with ⟨hcrash, -⟩ | ⟨-, heq⟩
    · exact absurd hcrash (by decide +kernel)
    · exact absurd heq (by decide +kernel)

end Lsof
