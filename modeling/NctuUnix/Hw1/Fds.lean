import Mathlib.Data.List.Forall2
import NctuUnix.Hw1.Independent

/-!
# The rows of the descriptors

`file_fd` is to tell a directory it must not open from one it can read.  It does not look at what
`opendir` returned but at `errno`, and the answer is right if `errno` is what this `opendir` has
set it to.

A record of `file_fd` `Describes` an entry if it carries what the calls for this entry have found.
What the filters do to the records is the matter of `print_result`.

## Main results

* `reports_iff` — the row `NOFD` stands for a directory that is denied, the descriptors are listed
  when the directory is opened, and no null pointer is read: if and only if the directory is denied,
  or it is opened while `errno` is not `EACCES`.
* `fds_iff` — the same in a scan, where what `errno` is comes from the calls before.
* `reports_fails` — a directory that is opened after an unrelated `EACCES`.
-/

set_option autoImplicit false

namespace Lsof

open Input

/-! ## What is claimed -/

/-- The entry is a descriptor whose link can be read. -/
def Entry.Readable (d : Entry) : Prop :=
  d.d_name ≠ ".".toList ∧ d.d_name ≠ "..".toList ∧ d.readlink.error? = none

instance (d : Entry) : Decidable d.Readable :=
  inferInstanceAs (Decidable (_ ∧ _ ∧ _))

/-- The record has the target of the entry as its name, and type, inode and access where they can
be found out; it belongs to the process of `file`. -/
structure Describes (file : Process) (d : Entry) (f : Process) : Prop where
  name : d.readlink = .ok f.name
  inode : ∀ info, d.stat = .ok info → f.inode = toText info.st_ino ∧ f.type = typeOf info.st_mode
  unknown : ∀ e, d.stat = .error e → f.inode = [] ∧ f.type = "unknown".toList
  fd : ∀ info, d.lstat = .ok info → f.fd = d.d_name ++ access info.st_mode
  process : f.pid = file.pid ∧ f.cmd = file.cmd ∧ f.user = file.user ∧ f.dir = file.dir

/-- What `file_fd` is to do, from any `errno`: the one record `NOFD` is for a denied directory, an
opened one has a record for each readable entry, and `readdir` never gets a null pointer. -/
structure Reports (libc : Libc) (file : Process) (dp : Answer Dir) (errno : Errno) : Prop where
  denied : (fileFd libc file dp errno).1 = [noFd libc file] ↔ dp = .error EACCES
  opened : ∀ dir, dp = .ok dir →
    List.Forall₂ (Describes file) (dir.entries.filter fun d ↦ decide d.Readable)
      (fileFd libc file dp errno).1
  handle : (fileFd libc file dp errno).2 ≠ none

/-! ## The loop over the entries -/

variable {file f : Process} {d : Entry}

theorem Entry.not_readable_of_error {e : Errno} (h : d.readlink = .error e) : ¬ d.Readable := by
  rw [Entry.Readable, h]
  exact fun hread ↦ absurd hread.2.2 (by simp [Answer.error?])

/-- Two records of one process. -/
def SameProcess (f g : Process) : Prop :=
  f.pid = g.pid ∧ f.cmd = g.cmd ∧ f.user = g.user ∧ f.dir = g.dir

theorem Describes.of_same {g : Process} (hfg : SameProcess g file) (h : Describes g d f) :
    Describes file d f where
  name := h.name
  inode := h.inode
  unknown := h.unknown
  fd := h.fd
  process := ⟨h.process.1.trans hfg.1, h.process.2.1.trans hfg.2.1,
    h.process.2.2.1.trans hfg.2.2.1, h.process.2.2.2.trans hfg.2.2.2⟩

/-- The record of an entry whose link can be read. -/
def Process.atEntry (file : Process) (d : Entry) (buf : Text) : Process :=
  let file := { file with name := buf }.stated d.stat
  match d.lstat with
  | .ok info => { file with fd := d.d_name ++ access info.st_mode }
  | .error _ => file

theorem sameProcess_atEntry (file : Process) (d : Entry) (buf : Text) :
    SameProcess (file.atEntry d buf) file := by
  rw [Process.atEntry]
  rcases d.stat with e | info
  · rcases d.lstat with e' | info' <;> exact ⟨rfl, rfl, rfl, rfl⟩
  · rcases d.lstat with e' | info' <;> exact ⟨rfl, rfl, rfl, rfl⟩

/-- It describes the entry, whatever the record was before. -/
theorem describes_atEntry {buf : Text} (h : d.readlink = .ok buf) :
    Describes file d (file.atEntry d buf) where
  name := by
    rw [h, Process.atEntry]
    rcases d.stat with e | info
    · rcases d.lstat with e' | info' <;> rfl
    · rcases d.lstat with e' | info' <;> rfl
  inode := by
    intro info hstat
    rw [Process.atEntry, hstat]
    rcases d.lstat with e' | info' <;> exact ⟨rfl, rfl⟩
  unknown := by
    intro e hstat
    rw [Process.atEntry, hstat]
    rcases d.lstat with e' | info' <;> exact ⟨rfl, rfl⟩
  fd := by
    intro info hlstat
    rw [Process.atEntry, hlstat]
  process := sameProcess_atEntry file d buf

/-- One round of the loop. -/
theorem fdLoop_cons_fst (file : Process) (e : Errno) (d : Entry) (es : List Entry) :
    (¬ d.Readable ∧ ∃ e', (fdLoop file e (d :: es)).1 = (fdLoop file e' es).1) ∨
      ∃ buf e', d.Readable ∧ d.readlink = .ok buf ∧ (fdLoop file e (d :: es)).1 =
        file.atEntry d buf :: (fdLoop (file.atEntry d buf) e' es).1 := by
  rw [fdLoop]
  by_cases hdots : d.d_name = ".".toList ∨ d.d_name = "..".toList
  · rw [if_pos hdots]
    refine .inl ⟨fun hread ↦ ?_, e, rfl⟩
    exact hdots.elim hread.1 hread.2.1
  · rw [if_neg hdots]
    rcases hlink : d.readlink with e' | buf
    · exact .inl ⟨Entry.not_readable_of_error hlink, e', rfl⟩
    · refine .inr ⟨buf, d.lstat.after (d.stat.after e), ?_, rfl, rfl⟩
      exact ⟨fun h ↦ hdots (.inl h), fun h ↦ hdots (.inr h), by rw [hlink]; rfl⟩

/-- **The loop over the directory.**  It makes one record for each readable entry, in order. -/
theorem fdLoop_describes (es : List Entry) : ∀ (file : Process) (e : Errno),
    List.Forall₂ (Describes file) (es.filter fun d ↦ decide d.Readable) (fdLoop file e es).1 := by
  induction es with
  | nil => exact fun _ _ ↦ .nil
  | cons d es ih =>
    intro file e
    rcases fdLoop_cons_fst file e d es with ⟨hread, e', hloop⟩ | ⟨buf, e', hread, hlink, hloop⟩
    · rw [hloop, List.filter_cons_of_neg (by simpa using hread)]
      exact ih file e'
    · rw [hloop, List.filter_cons_of_pos (by simpa using hread)]
      refine .cons (describes_atEntry hlink) ?_
      exact List.Forall₂.imp (fun _ _ h ↦ h.of_same (sameProcess_atEntry file d buf)) (ih _ e')

/-! ## The directory -/

variable (libc : Libc)

/-- The record of a closed directory is none of those of the descriptors. -/
theorem fdLoop_ne_noFd (file : Process) (es : List Entry) (e : Errno) :
    (fdLoop file e es).1 ≠ [noFd libc file] := by
  intro h
  have hmem : noFd libc file ∈ (fdLoop file e es).1 := by
    rw [h]
    exact List.mem_singleton_self _
  exact type_of_mem_fdLoop es file e hmem rfl

theorem fileFd_of_denied (file : Process) (e : Errno) :
    fileFd libc file (.error EACCES) e = ([noFd libc file], some EINVAL) := rfl

/-- **When the descriptors are reported right.**  The directory is denied, or it is opened and
`errno` is not left as `EACCES` by an earlier call.  So what goes wrong is an opened directory after
an `EACCES`, and an `opendir` that fails for another reason. -/
theorem reports_iff (file : Process) (dp : Answer Dir) (errno : Errno) :
    Reports libc file dp errno ↔
      dp = .error EACCES ∨ (∃ dir, dp = .ok dir) ∧ errno ≠ EACCES := by
  constructor
  · intro h
    rcases dp with c | dir
    · by_cases hc : c = EACCES
      · exact .inl (by rw [hc])
      · exact absurd ((fileFd_ends_iff libc file _ errno).2 ⟨c, rfl, hc⟩) h.handle
    · refine .inr ⟨⟨dir, rfl⟩, fun he ↦ ?_⟩
      have hrow : (fileFd libc file (.ok dir) errno).1 = [noFd libc file] := by
        rw [fileFd_of_ok, if_pos he]
      exact absurd (h.denied.1 hrow) (by simp)
  · rintro (rfl | ⟨⟨dir, rfl⟩, he⟩)
    · refine ⟨iff_of_true rfl rfl, fun dir h ↦ absurd h (by simp), ?_⟩
      rw [fileFd_of_denied]
      exact Option.some_ne_none _
    · have hfd := fileFd_of_ok libc file dir errno
      rw [if_neg he] at hfd
      refine ⟨iff_of_false ?_ (by simp), ?_, ?_⟩
      · rw [hfd]
        exact fdLoop_ne_noFd libc file dir.entries errno
      · rintro dir' ⟨⟩
        rw [hfd]
        exact fdLoop_describes dir.entries file errno
      · rw [hfd]
        exact Option.some_ne_none _

/-- In a scan `errno` comes from the last call that has failed, of this process or of one before
it. -/
theorem fds_iff {p : Proc} {cmd : Text} (hcmd : p.cmd? = some cmd) (e : Errno) :
    lsof libc p e =
        (p.links libc cmd ++
            (fileFd libc { p.file cmd with dir := "fd".toList } p.fd (p.failure.getD e)).1,
          (fileFd libc { p.file cmd with dir := "fd".toList } p.fd (p.failure.getD e)).2.elim
            (.error .crashes) .ok) ∧
      (Reports libc { p.file cmd with dir := "fd".toList } p.fd (p.failure.getD e) ↔
        p.fd = .error EACCES ∨ (∃ dir, p.fd = .ok dir) ∧ p.failure.getD e ≠ EACCES) :=
  ⟨lsof_of_cmd libc hcmd e, reports_iff libc _ _ _⟩

/-- **A directory that is reported as denied.**  It is opened and its one descriptor can be read,
but a call before was refused. -/
theorem reports_fails :
    (∃ dir, readable.fd = .ok dir ∧ dir.entries.map (·.readlink) = [.ok "/dev/null".toList]) ∧
    (fileFd denied { readable.file "cat".toList with dir := "fd".toList } readable.fd EACCES).1 =
      [noFd denied { readable.file "cat".toList with dir := "fd".toList }] ∧
    ¬ Reports denied { readable.file "cat".toList with dir := "fd".toList } readable.fd EACCES :=
  ⟨⟨_, rfl, rfl⟩, rfl, fun h ↦ absurd (h.denied.1 rfl) (by decide)⟩

end Lsof
