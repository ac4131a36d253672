import NctuUnix.Lib.Erase
import NctuUnix.Lib.Input

/-!
# Filters and rows

`print_result` of `hw1.cpp` gets a record about one open file, tests the filters on it and prints a
row.  What it prints is not quite the record: markers `(deleted)` are taken out of the name, and a
record that had one is shown with type `unknown`.  The filters are tested before that.

`std::regex` is a parameter, `regex`: what a pattern accepts as a whole, if it is one.  Of the
arguments of `-t` only five are let through by `main`, and none of them stands in `unknown`.

## Main results

* `printed_iff` — a row is printed exactly when the filters accept what it shows, if and only if the
  name has no marker, or the command is rejected, or `-t` is given and rejects the record, or lets
  `-f` do so, or `-t` is not given and `-f` says the same about the name with and without markers.
* `printed_fails` — a deleted regular file with `-t REG`.
-/

set_option autoImplicit false

namespace Lsof

open Input

/-- `std::regex` and `std::regex_match`. -/
abbrev Regex := Text → Option (Text → Bool)

/-- `struct process` -/
structure Process where
  pid : Int
  path : Text
  dir : Text
  cmd : Text
  user : Text
  type : Text
  fd : Text
  inode : Text
  name : Text
  deriving DecidableEq, Repr

/-- The pattern made of the argument of a filter. -/
def around (filtargu : Text) : Text := ".*".toList ++ filtargu ++ ".*".toList

/-- What `-t` takes. -/
def types : List Text := ["REG", "CHR", "DIR", "FIFO", "SOCK"].map String.toList

/-- The type that is asked for, if one is, is one of the five. -/
def Typed (filter : Fin 3 → Bool) (filtargu : Fin 3 → Text) : Prop :=
  filter 1 = true → filtargu 1 ∈ types

/-- `filter` and `filtargu`: the filters for COMMAND (0), TYPE (1) and NAME (2).  With a pattern
that is not a regular expression the program ends at the first record. -/
structure Filters (regex : Regex) where
  filter : Fin 3 → Bool
  filtargu : Fin 3 → Text
  wellFormed : ∀ i, filter i = true → (regex (around (filtargu i))).isSome = true
  /-- `main` ends the program with `Invalid TYPE option.` where it is not so. -/
  typed : Typed filter filtargu

/-- What `std::regex` makes of a pattern for a type, a text of five plain characters at most: it
accepts the texts in which the type stands.  A `.` stands for everything but a line end. -/
def ReadsTypes (regex : Regex) : Prop := ∀ t ∈ types, ∀ s : Text, '\n' ∉ s → '\r' ∉ s →
  ((regex (around t)).any (fun m ↦ m s) = true ↔ t <:+: s)

variable {regex : Regex} {F : Filters regex} {file : Process}

/-- Filter `i` does not reject the text. -/
def Filters.accepts (F : Filters regex) (i : Fin 3) (s : Text) : Bool :=
  !F.filter i || (regex (around (F.filtargu i))).any fun m ↦ m s

/-- The filters let a record with these columns through. -/
def Filters.Lets (F : Filters regex) (cmd type name : Text) : Prop :=
  F.accepts 0 cmd = true ∧ F.accepts 1 type = true ∧ F.accepts 2 name = true

/-- The arguments of the `printf` of a row. -/
structure Row where
  cmd : Text
  pid : Int
  user : Text
  fd : Text
  type : Text
  inode : Text
  name : Text
  deriving DecidableEq, Repr

/-- The line that is printed: `%-15s %3s %13s %4s %9s %18s %-64s`. -/
def Row.line (r : Row) : Text :=
  r.cmd.rightpad 15 ' ' ++ ' ' :: (toString r.pid).toList.leftpad 3 ' ' ++
    ' ' :: r.user.leftpad 13 ' ' ++ ' ' :: r.fd.leftpad 4 ' ' ++ ' ' :: r.type.leftpad 9 ' ' ++
    ' ' :: r.inode.leftpad 18 ' ' ++ ' ' :: r.name.rightpad 64 ' ' ++ ['\n']

/-- The marker the kernel appends to the name of a file that is gone. -/
def deleted : Text := "(deleted)".toList

/-- The descriptor column of the links of a process. -/
def fdOf (file : Process) : Text :=
  if file.dir = "cwd".toList then "cwd".toList
  else if file.dir = "root".toList then "rtd".toList
  else if file.dir = "exe".toList then "txt".toList
  else file.fd

/-- The row for a record that is accepted. -/
def display (file : Process) : Row where
  cmd := file.cmd
  pid := file.pid
  user := file.user
  fd := if deleted <:+: file.name then "DEL".toList else fdOf file
  type := if deleted <:+: file.name then "unknown".toList else file.type
  inode := file.inode
  name := Erase.all deleted file.name

/-- `void print_result(struct process file)` -/
def printResult (F : Filters regex) (file : Process) : Option Row :=
  if F.accepts 0 file.cmd && F.accepts 1 file.type && F.accepts 2 file.name then some (display file)
  else none

/-- The columns of a row satisfy the filters. -/
def Row.Satisfies (r : Row) (F : Filters regex) : Prop :=
  F.accepts 0 r.cmd = true ∧ F.accepts 1 r.type = true ∧ F.accepts 2 r.name = true

/-- A record without the marker is shown as it is. -/
theorem display_of_not_deleted (h : ¬ deleted <:+: file.name) :
    (display file).type = file.type ∧ (display file).name = file.name :=
  ⟨if_neg h, Erase.all_of_not_infix h⟩

theorem printResult_isSome : (printResult F file).isSome = true ↔
    F.accepts 0 file.cmd = true ∧ F.accepts 1 file.type = true ∧ F.accepts 2 file.name = true := by
  rw [printResult]
  split
  · simp_all [and_assoc]
  · simp_all [and_assoc]

/-- The marker begins with a bracket and has no other one. -/
theorem borderless_deleted : Erase.Borderless deleted := Erase.borderless_of_head (by decide)

/-- With `-t` no row is printed whose type is `unknown`, as it should be. -/
theorem accepts_unknown (hregex : ReadsTypes regex) (h : F.filter 1 = true) :
    F.accepts 1 "unknown".toList = false := by
  have hmem := F.typed h
  have hread := hregex _ hmem "unknown".toList (by decide) (by decide)
  have hnone : ∀ t ∈ types, ¬ t <:+: "unknown".toList := by decide
  rw [Filters.accepts, h, Bool.not_true, Bool.false_or, Bool.eq_false_iff]
  exact fun hyes ↦ hnone _ hmem (hread.1 hyes)

/-- The filters judge a record that has a marker as they judge what is shown of it: where `-t` is
given they reject it, and where it is not, `-f` says the same about the name and about what is left
of it when all markers have been taken out. -/
def Filters.Alike (F : Filters regex) (file : Process) : Prop :=
  (F.filter 1 = true ∧ (F.accepts 1 file.type = false ∨ F.accepts 2 file.name = false)) ∨
    (F.filter 1 = false ∧
      ∀ rest, Erase.Cleaned deleted file.name rest → F.accepts 2 file.name = F.accepts 2 rest)

/-- **When the filters are sound.**  A row is printed exactly if its columns satisfy the filters
when the name has no marker, or `-c` rejects the process, or the marker makes no difference. -/
theorem printed_iff (hregex : ReadsTypes regex) (F : Filters regex) (file : Process) :
    ((printResult F file).isSome = true ↔ (display file).Satisfies F) ↔
      ¬ deleted <:+: file.name ∨ F.accepts 0 file.cmd = false ∨ F.Alike file := by
  rw [printResult_isSome, Row.Satisfies]
  by_cases hdel : deleted <:+: file.name
  · have htype : (display file).type = "unknown".toList := if_pos hdel
    have hname : (display file).name = Erase.all deleted file.name := rfl
    have hcmd : (display file).cmd = file.cmd := rfl
    rw [htype, hname, hcmd, or_iff_right (not_not_intro hdel)]
    rcases hc : F.accepts 0 file.cmd with _ | _
    · simp
    · rw [and_iff_right rfl, and_iff_right rfl, or_iff_right Bool.true_eq_false.mp, Filters.Alike]
      rcases ht : F.filter 1 with _ | _
      · -- without `-t` all types are accepted
        have hall (t : Text) : F.accepts 1 t = true := by
          rw [Filters.accepts, ht]
          rfl
        have hrest : (∀ rest, Erase.Cleaned deleted file.name rest →
            F.accepts 2 file.name = F.accepts 2 rest) ↔
              F.accepts 2 file.name = F.accepts 2 (Erase.all deleted file.name) := by
          simp only [Erase.cleaned_iff (by decide) borderless_deleted, forall_eq]
        rw [hall, hall, hrest, Bool.eq_iff_iff]
        simp
      · rw [accepts_unknown hregex ht]
        rcases F.accepts 1 file.type with _ | _ <;> rcases F.accepts 2 file.name with _ | _ <;> simp
  · obtain ⟨htype, hname⟩ := display_of_not_deleted hdel
    rw [htype, hname]
    exact iff_of_true Iff.rfl (.inl hdel)

/-- A pattern `.*t.*` for a plain text `t`. -/
def literal : Regex := fun p ↦ some fun s ↦ decide (((p.drop 2).dropLast.dropLast) <:+: s)

theorem readsTypes_literal : ReadsTypes literal := by
  intro t _ s _ _
  have harg : ((around t).drop 2).dropLast.dropLast = t := by simp [around]
  rw [literal, Option.any_some, harg]
  exact decide_eq_true_iff

/-- `-t REG` -/
def onlyReg : Filters literal where
  filter i := i = 1
  filtargu _ := "REG".toList
  wellFormed _ _ := rfl
  typed _ := by decide

/-- `-f tmp` -/
def onlyTmp : Filters literal where
  filter i := i = 2
  filtargu _ := "tmp".toList
  wellFormed _ _ := rfl
  typed h := absurd h (by decide)

/-- A regular file that is open and deleted. -/
def deletedFile : Process :=
  ⟨1, "/proc/1/".toList, "fd".toList, "cat".toList, "root".toList, "REG".toList, "3u".toList,
    "7".toList, "/tmp/x (deleted)".toList⟩

/-- It is found by its name. -/
theorem printed_iff_tmp : (printResult onlyTmp deletedFile).isSome = true ↔
    (display deletedFile).Satisfies onlyTmp := by
  refine (printed_iff readsTypes_literal onlyTmp deletedFile).2 (.inr (.inr (.inr ⟨rfl, ?_⟩)))
  intro rest hrest
  obtain rfl := (Erase.cleaned_iff (by decide) borderless_deleted).1 hrest
  decide +kernel

/-- **A row that does not satisfy the filter.**  With `-t REG` the deleted file is printed, with
type `unknown`. -/
theorem printed_fails :
    (printResult onlyReg deletedFile).map (fun r ↦ r.type) = some "unknown".toList ∧
      ¬ ((printResult onlyReg deletedFile).isSome = true ↔
        (display deletedFile).Satisfies onlyReg) := by
  refine ⟨by decide +kernel, fun h ↦ ?_⟩
  exact absurd (h.1 (by decide +kernel)).2.1 (by decide +kernel)

end Lsof
