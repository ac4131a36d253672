import NctuUnix.Lib.Radix
import NctuUnix.Hw1.Fds

/-!
# The name of a process

The kernel writes the name of a process into its stat file between the number and the state, with
brackets around it and as it is.  `lsof` of `hw1.cpp` reads the second word of the file and takes
the brackets off.

## Main results

* `named_iff` — the records of a process carry its name if and only if there is no blank in it.
  Brackets do no harm.
* `named_fails` — a name of two words.
-/

set_option autoImplicit false

namespace Lsof

open Input

/-- The stat file: `pid (comm) state ...`. -/
def statText (pid : Nat) (comm rest : Text) : Text :=
  Nat.toDigits 10 pid ++ ' ' :: '(' :: (comm ++ ')' :: ' ' :: rest)

/-- The name `lsof` finds is `comm`, and it is the one the filter for COMMAND sees and the one that
is printed. -/
structure Named (libc : Libc) (p : Proc) (comm : Text) : Prop where
  found : p.cmd? = some comm
  filtered : ∀ errno, ∀ f ∈ (lsof libc p errno).1, f.cmd = comm
  printed : ∀ {regex : Regex} (F : Filters regex) (errno : Errno),
    ∀ r ∈ rows libc F [p] errno, r.cmd = comm

variable {libc : Libc} {file f : Process}

/-! ## The name goes through a scan -/

theorem cmd_of_mem_fileType {link : Link} {e : Errno} (h : f ∈ (fileType libc file link e).1) :
    f.cmd = file.cmd := by
  have hstated : (file.stated link.stat).cmd = file.cmd := by
    rcases link.stat with e' | info <;> rfl
  rw [fileType] at h
  rcases hlink : link.readlink with e' | buf
  · simp only [hlink] at h
    by_cases he' : e' = ENOENT
    · simp [he'] at h
    · simp only [he', if_false, List.mem_singleton] at h
      rw [h, ← hstated]
  · simp only [hlink, List.mem_singleton] at h
    rw [h, ← hstated]

theorem cmd_of_mem_mapsLoop (ls : List Text) : ∀ (file : Process) (c : Columns),
    f ∈ mapsLoop file c ls → f.cmd = file.cmd := by
  induction ls with
  | nil => exact fun _ _ h ↦ absurd h List.not_mem_nil
  | cons buf rest ih =>
    intro file c h
    rw [mapsLoop] at h
    dsimp only at h
    split at h
    · rcases List.mem_cons.1 h with rfl | h
      · rfl
      · have hcmd := ih _ _ h
        exact hcmd
    · exact ih _ _ h

theorem cmd_of_mem_fileMaps {p : Proc} {e : Errno} (h : f ∈ (fileMaps file p e).1) :
    f.cmd = file.cmd := by
  rw [fileMaps] at h
  rcases hmaps : p.mapsfile with e' | c
  · simp [hmaps] at h
  · simp only [hmaps] at h
    rw [cmd_of_mem_mapsLoop _ _ _ h]
    rcases p.exeStat with e₁ | i₁
    · rcases p.mapsStat with e₂ | i₂ <;> rfl
    · rcases p.mapsStat with e₂ | i₂ <;> rfl

theorem cmd_of_mem_fdLoop (es : List Entry) : ∀ (file : Process) (e : Errno),
    f ∈ (fdLoop file e es).1 → f.cmd = file.cmd := by
  induction es with
  | nil => exact fun _ _ h ↦ absurd h List.not_mem_nil
  | cons d es ih =>
    intro file e h
    rw [fdLoop] at h
    split at h
    · exact ih _ _ h
    · rcases hlink : d.readlink with e' | buf
      · rw [hlink] at h
        exact ih _ _ h
      · rw [hlink] at h
        rcases List.mem_cons.1 h with rfl | h
        · rcases d.stat with e₁ | i₁
          · rcases d.lstat with e₂ | i₂ <;> rfl
          · rcases d.lstat with e₂ | i₂ <;> rfl
        · rw [ih _ _ h]
          rcases d.stat with e₁ | i₁
          · rcases d.lstat with e₂ | i₂ <;> rfl
          · rcases d.lstat with e₂ | i₂ <;> rfl

theorem cmd_of_mem_fileFd {dp : Answer Dir} {e : Errno} (h : f ∈ (fileFd libc file dp e).1) :
    f.cmd = file.cmd := by
  rcases dp with c | dir
  · by_cases hc : c = EACCES
    · rw [hc, fileFd_of_denied] at h
      rw [List.mem_singleton.1 h]
      rfl
    · have hempty : (fileFd libc file (.error c) e).1 = [] := congrArg Prod.fst (if_neg hc)
      rw [hempty] at h
      exact absurd h List.not_mem_nil
  · rw [fileFd_of_ok] at h
    split at h
    · rw [List.mem_singleton.1 h]
      rfl
    · exact cmd_of_mem_fdLoop _ _ _ h

/-- Every record of a process carries the name that was found. -/
theorem cmd_of_mem_lsof {p : Proc} {cmd : Text} (hcmd : p.cmd? = some cmd) {e : Errno}
    (h : f ∈ (lsof libc p e).1) : f.cmd = cmd := by
  rw [lsof_of_cmd libc hcmd, Proc.links] at h
  simp only [List.mem_append] at h
  rcases h with (((h | h) | h) | h) | h
  · exact cmd_of_mem_fileType h
  · exact cmd_of_mem_fileType h
  · exact cmd_of_mem_fileType h
  · exact cmd_of_mem_fileMaps h
  · exact cmd_of_mem_fileFd h

theorem named_of_found {p : Proc} {comm : Text} (h : p.cmd? = some comm) : Named libc p comm where
  found := h
  filtered := fun _ _ hf ↦ cmd_of_mem_lsof h hf
  printed := by
    intro regex F errno r hr
    rw [rows_singleton] at hr
    obtain ⟨f, hf, hprint⟩ := List.mem_filterMap.1 hr
    rw [eq_display_of_printResult hprint]
    exact cmd_of_mem_lsof h hf

/-! ## The second word -/

variable {pid : Nat} {comm rest : Text}

/-- The word that starts with the bracket decides. -/
theorem command_statText {w t : Text} {c : Char} (hw : ∀ c ∈ w, isSpace c = false)
    (hc : isSpace c = true) (heq : comm ++ ')' :: ' ' :: rest = w ++ c :: t) :
    command (statText pid comm rest) = some w.dropLast := by
  have hbracket : ∀ c ∈ '(' :: w, isSpace c = false := by
    intro c hc
    rcases List.mem_cons.1 hc with rfl | hc
    · decide
    · exact hw c hc
  have hwords : words (statText pid comm rest) = Nat.toDigits 10 pid :: ('(' :: w) :: words t := by
    rw [statText, words_cons Nat.toDigits_ne_nil (toDigits_noSpace (by decide) (by decide)), heq,
      ← List.cons_append, words_cons_of_space (List.cons_ne_nil _ _) hbracket hc]
  rw [command, hwords]
  simp [List.dropLast_eq_take]

theorem command_of_noSpace (h : ∀ c ∈ comm, isSpace c = false) :
    command (statText pid comm rest) = some comm := by
  have hw : ∀ c ∈ comm ++ [')'], isSpace c = false := by
    intro c hc
    rcases List.mem_append.1 hc with hc | hc
    · exact h c hc
    · rw [List.mem_singleton.1 hc]
      decide
  have hspace : isSpace ' ' = true := by decide
  have hsplit : comm ++ ')' :: ' ' :: rest = comm ++ [')'] ++ ' ' :: rest := by simp
  rw [command_statText hw hspace hsplit, List.dropLast_concat]

/-- A blank ends the word, and what was in front of it loses its last character as well. -/
theorem command_of_space (h : ¬ ∀ c ∈ comm, isSpace c = false) :
    ∃ w, command (statText pid comm rest) = some w ∧ w.length < comm.length := by
  obtain ⟨w, c, t, rfl, hw, hc⟩ := exists_first_space h
  have hsplit : w ++ c :: t ++ ')' :: ' ' :: rest = w ++ c :: (t ++ ')' :: ' ' :: rest) := by simp
  refine ⟨_, command_statText hw hc hsplit, ?_⟩
  rw [List.length_dropLast, List.length_append, List.length_cons]
  omega

/-! ## Main theorem -/

/-- **When the name is right.**  The kernel writes `comm` into the stat file of a process; the
process is listed under that name if and only if there is no blank in it. -/
theorem named_iff (libc : Libc) (p : Proc) (pid : Nat) (comm rest : Text)
    (failed : Option Errno) :
    Named libc { p with statfile := .ok ⟨statText pid comm rest, failed⟩ } comm ↔
      ∀ c ∈ comm, isSpace c = false := by
  constructor
  · intro h
    by_contra hspace
    obtain ⟨w, hw, hlen⟩ : ∃ w, command (statText pid comm rest) = some w ∧
        w.length < comm.length := command_of_space hspace
    have hfound : command (statText pid comm rest) = some comm := h.found
    rw [hw, Option.some_inj] at hfound
    exact absurd hlen (by rw [hfound]; exact Nat.lt_irrefl _)
  · exact fun h ↦ named_of_found (command_of_noSpace h)

/-- **A name that is cut.**  A process called `tmux: server` is listed as `tmux`. -/
theorem named_fails :
    command (statText 7 "tmux: server".toList ['S']) = some "tmux".toList ∧
      ¬ Named denied { readable with
        statfile := .ok ⟨statText 7 "tmux: server".toList ['S'], none⟩ } "tmux: server".toList := by
  have hcut : command (statText 7 "tmux: server".toList ['S']) = some "tmux".toList := by
    decide +kernel
  refine ⟨hcut, fun h ↦ ?_⟩
  have hfound : command (statText 7 "tmux: server".toList ['S']) = some "tmux: server".toList :=
    h.found
  rw [hcut] at hfound
  exact absurd hfound (by decide)

end Lsof
