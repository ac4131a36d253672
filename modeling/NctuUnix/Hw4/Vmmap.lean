import Mathlib.Algebra.Order.BigOperators.Group.List
import Mathlib.Data.List.TakeWhile
import NctuUnix.Lib.ProcMaps
import NctuUnix.Hw4.Tiny

/-!
# The memory map

`vmmap` takes a line of the map apart with `strtok` and prints the parts it wants.  The newline is
not printed on purpose: it stands at the end of the last token.

## Main results

* `vmmapRow_line` — what is printed for a line, whatever its fields are: the name is printed up to
  its first blank.
* `vmmap_faithful_iff` — the rows are those of the map exactly if no name contains a blank.
* `vmmap_faithful_fails` — a file whose name contains one.
-/

set_option autoImplicit false

namespace Sdb

open ProcMaps Input

variable {ε : Type} {h : Host ε} {s s' : Sdb ε} {delim pre tok rest l : Text} {d : Char}

/-! ## `strtok` -/

/-- A token between delimiters. -/
theorem strtok_token (hpre : ∀ c ∈ pre, c ∈ delim) (hne : tok ≠ []) (htok : ∀ c ∈ tok, c ∉ delim)
    (hd : d ∈ delim) : strtok delim (pre ++ (tok ++ d :: rest)) = some (tok, rest) := by
  obtain ⟨c, cs, rfl⟩ := List.exists_cons_of_ne_nil hne
  have hdrop : (pre ++ (c :: cs ++ d :: rest)).dropWhile delim.contains = c :: cs ++ d :: rest := by
    rw [List.dropWhile_append_of_pos fun x hx ↦ by simpa using hpre x hx, List.cons_append,
      List.dropWhile_cons_of_neg (by simpa using htok c List.mem_cons_self)]
  have htake : (c :: cs ++ d :: rest).takeWhile (fun x ↦ !delim.contains x) = c :: cs := by
    rw [List.takeWhile_append_of_pos fun x hx ↦ by simpa using htok x hx,
      List.takeWhile_cons_of_neg (by simpa using hd), List.append_nil]
  rw [strtok, hdrop]
  simp only [List.cons_append] at htake ⊢
  rw [htake]
  simp

/-- A token with nothing in front. -/
theorem strtok_between (hne : tok ≠ []) (htok : ∀ c ∈ tok, c ∉ delim) (hd : d ∈ delim) :
    strtok delim (tok ++ d :: rest) = some (tok, rest) := by
  have hnil : ∀ c ∈ ([] : Text), c ∈ delim := fun _ hc ↦ absurd hc List.not_mem_nil
  exact strtok_token hnil hne htok hd

/-- What stands between blanks first. -/
def firstWord (l : Text) : Text :=
  (l.dropWhile [' '].contains).takeWhile fun c ↦ !([' '].contains c)

theorem strtok_firstWord (l : Text) :
    ((strtok [' '] l).map fun p ↦ p.1).getD [] = firstWord l := by
  rw [strtok, firstWord]
  split
  · rename_i hnil
    rw [hnil]
    rfl
  · rename_i hcons
    rw [hcons]
    rfl

theorem firstWord_blanks (n : Nat) (l : Text) :
    firstWord (List.replicate n ' ' ++ l) = firstWord l := by
  rw [firstWord, List.dropWhile_append_of_pos fun c hc ↦ by simp [List.eq_of_mem_replicate hc],
    firstWord]

theorem firstWord_length_le (l : Text) : (firstWord l).length ≤ l.length :=
  ((List.takeWhile_sublist _).trans (List.dropWhile_sublist _)).length_le

/-- It is everything exactly if there are no blanks. -/
theorem firstWord_eq_iff : firstWord l = l ↔ ' ' ∉ l := by
  constructor
  · intro heq hmem
    rw [← heq] at hmem
    simpa using List.mem_takeWhile_imp hmem
  · intro hno
    have hpos : ∀ c ∈ l, c ≠ ' ' := fun c hc he ↦ hno (he ▸ hc)
    rcases l with _ | ⟨c, cs⟩
    · rfl
    · rw [firstWord, List.dropWhile_cons_of_neg (by simpa using hpos c List.mem_cons_self),
        List.takeWhile_eq_self_iff]
      simpa using hpos

/-! ## The rows -/

variable {e : Entry}

/-- The permissions as they are shown, without the flag of a private mapping. -/
def shownPerms (e : Entry) : Text := e.perms.filter fun c ↦ c != 'p'

/-- A row up to the name. -/
def rowHead (e : Entry) : Text :=
  hexText 16 e.start.toNat ++ '-' :: (hexText 16 e.stop.toNat ++ ' ' :: (shownPerms e ++ ' ' ::
    padRight 9 (Nat.toDigits 10 e.inode)))

/-- The row of a mapping. -/
def mapRow (e : Entry) : Text := rowHead e ++ (e.path ++ ['\n'])

theorem shownPerms_eq (e : Entry) :
    shownPerms e = if e.shared then e.access ++ ['s'] else e.access := by
  have hself : e.access.filter (fun c ↦ c != 'p') = e.access :=
    List.filter_eq_self.2 fun c hc ↦ by simpa using (Entry.access_plain hc).2.1
  rw [shownPerms, Entry.perms, List.filter_append, hself, Entry.flag]
  by_cases hs : e.shared = true
  · rw [if_pos hs, if_pos hs]
    rfl
  · rw [if_neg hs, if_neg hs]
    simp

/-- The permissions and the offset, which the flag does or does not separate. -/
theorem strtok_perms (e : Entry) {field : Text} (rest : Text) (hne : field ≠ [])
    (hf : ∀ c ∈ field, c ∉ [' ']) :
    ∃ rest', strtok [' ', 'p'] (e.perms ++ ' ' :: (field ++ ' ' :: rest)) =
      some (shownPerms e, rest') ∧ strtok [' '] rest' = some (field, rest) := by
  have hne' : e.access ≠ [] := by simp [Entry.access]
  have haccess : ∀ c ∈ e.access, c ∉ [' ', 'p'] := fun c hc ↦ by
    have hplain := Entry.access_plain hc
    simp [hplain.1, hplain.2.1]
  rw [shownPerms_eq, Entry.perms, Entry.flag]
  by_cases hs : e.shared = true
  · rw [if_pos hs, if_pos hs]
    refine ⟨field ++ ' ' :: rest, ?_, ?_⟩
    · have hall : ∀ c ∈ e.access ++ ['s'], c ∉ [' ', 'p'] := by
        intro c hc
        rcases List.mem_append.1 hc with hc | hc
        · exact haccess c hc
        · rw [List.mem_singleton.1 hc]
          decide
      exact strtok_between (by simp) hall (by simp)
    · exact strtok_between hne hf (by simp)
  · rw [if_neg hs, if_neg hs]
    refine ⟨' ' :: (field ++ ' ' :: rest), ?_, ?_⟩
    · rw [List.append_assoc]
      exact strtok_between hne' haccess (by simp)
    · have hblank : ∀ c ∈ [' '], c ∈ [' '] := fun _ hc ↦ hc
      exact strtok_token hblank hne hf (by simp)

/-- **What is printed for a line.** -/
theorem vmmapRow_line (e : Entry) :
    vmmapRow e.line = rowHead e ++ firstWord (e.path ++ ['\n']) := by
  have hblank {w n : Nat} : ∀ c ∈ hexText w n, c ∉ [' '] := fun c hc ↦ by
    simpa using (hexText_plain hc).1
  have hdash {w n : Nat} : ∀ c ∈ hexText w n, c ∉ ['-'] := fun c hc ↦ by
    simpa using (hexText_plain hc).2.1
  have hdev : ∀ c ∈ e.dev, c ∉ [' '] := fun c hc ↦ by simpa using Entry.dev_plain hc
  have hino : ∀ c ∈ Nat.toDigits 10 e.inode, c ∉ [' '] := fun c hc ↦ by
    simpa using (toDigits_plain (by decide) (by decide) hc).1
  have hoffset : hexText 8 e.offset.toNat ≠ [] := hexText_ne_nil
  obtain ⟨rest, hperms, hoff⟩ := strtok_perms e (e.dev ++ ' ' :: (Nat.toDigits 10 e.inode ++ ' ' ::
    (List.replicate e.gap ' ' ++ (e.path ++ ['\n'])))) hoffset hblank
  have hstart : strtok ['-'] e.line = some (hexText 8 e.start.toNat, _) :=
    strtok_between hexText_ne_nil hdash (by simp)
  have hstop {l : Text} : strtok [' '] (hexText 8 e.stop.toNat ++ ' ' :: l) =
      some (hexText 8 e.stop.toNat, l) := strtok_between hexText_ne_nil hblank (by simp)
  have hmajor {l : Text} : strtok [' '] (e.dev ++ ' ' :: l) = some (e.dev, l) :=
    strtok_between (by simp [Entry.dev]) hdev (by simp)
  have hinode {l : Text} : strtok [' '] (Nat.toDigits 10 e.inode ++ ' ' :: l) =
      some (Nat.toDigits 10 e.inode, l) := strtok_between Nat.toDigits_ne_nil hino (by simp)
  have hpad {n : Nat} : padLeft 16 '0' (hexText 8 n) = hexText 16 n := pad_hexText (by decide)
  have hname := strtok_firstWord (List.replicate e.gap ' ' ++ (e.path ++ ['\n']))
  rw [firstWord_blanks] at hname
  rw [vmmapRow]
  simp only [hstart, strtokRest, Option.map_some, Option.getD_some, hstop, hperms, hoff, hmajor,
    hinode, hpad, id_eq, hname, rowHead]
  simp only [List.append_assoc, List.cons_append, List.nil_append]

/-- Concatenations of pieces, each at most as long as its counterpart, agree only if all the pieces
do. -/
theorem flatMap_eq_iff {α β : Type} {f g : α → List β} {l : List α}
    (hle : ∀ a ∈ l, (f a).length ≤ (g a).length) :
    l.flatMap f = l.flatMap g ↔ ∀ a ∈ l, f a = g a := by
  induction l with
  | nil => simp
  | cons a l ih =>
    have hle' : ∀ x ∈ l, (f x).length ≤ (g x).length := fun x hx ↦ hle x (List.mem_cons_of_mem a hx)
    have hrest : (l.flatMap f).length ≤ (l.flatMap g).length := by
      rw [List.length_flatMap, List.length_flatMap]
      exact List.sum_le_sum hle'
    rw [List.flatMap_cons, List.flatMap_cons, List.forall_mem_cons, ← ih hle']
    constructor
    · intro heq
      have hlen := congrArg List.length heq
      rw [List.length_append, List.length_append] at hlen
      have hhead := hle a List.mem_cons_self
      exact List.append_inj heq (by omega)
    · rintro ⟨hhead, htail⟩
      rw [hhead, htail]

/-! ## The claim -/

/-- The rows of the map among what has been printed, one after the other. -/
def mapText (ms : List Msg) : Text :=
  ms.flatMap fun m ↦ match m with
    | .mapRow text => text
    | _ => []

/-- `vmmap` prints the rows of the map `es`. -/
def PrintsMap (h : Host ε) (s : Sdb ε) (es : List Entry) : Prop :=
  ∃ s' ms, vmmap h s = .ok s' ∧ s'.log = s.log ++ ms ∧ mapText ms = es.flatMap mapRow

/-- What it prints, for the lines there are. -/
theorem vmmap_eq {c : Tracee ε} {lines : List Text} (hrun : s.state = .running)
    (hc : s.tracee = some c) (hmaps : h.maps c.env = some lines) :
    vmmap h s = .ok { s with log := s.log ++ lines.map fun l ↦ .mapRow (vmmapRow l) } := by
  rw [vmmap, if_neg (by simp [hrun]), hc]
  simp only [hmaps]

theorem mapText_map (ls : List Text) :
    mapText (ls.map fun l ↦ .mapRow (vmmapRow l)) = ls.flatMap vmmapRow := by
  rw [mapText, List.flatMap_map]

/-- Every row is one line. -/
theorem mapRow_newline (e : Entry) : ∃ row, mapRow e = row ++ ['\n'] ∧ '\n' ∉ row := by
  refine ⟨rowHead e ++ e.path, by rw [mapRow, List.append_assoc], ?_⟩
  have hhex {w n : Nat} : '\n' ∉ hexText w n := fun hc ↦ (hexText_plain hc).2.2 rfl
  have hino : '\n' ∉ padRight 9 (Nat.toDigits 10 e.inode) := by
    rw [padRight, List.mem_append]
    rintro (hc | hc)
    · exact (toDigits_plain (by decide) (by decide) hc).2.2 rfl
    · exact absurd (List.eq_of_mem_replicate hc) (by decide)
  have hperms : '\n' ∉ shownPerms e := by
    have haccess : '\n' ∉ e.access := fun hc ↦ (Entry.access_plain hc).2.2 rfl
    rw [shownPerms_eq]
    split
    · simp [haccess]
    · exact haccess
  have hpath : '\n' ∉ e.path := fun hc ↦ (e.path_wf _ hc).1 rfl
  simp [rowHead, hhex, hino, hperms, hpath]

/-- **The memory map.**  Its rows are printed, in order and complete, exactly if no name contains a
blank; and each of them is one line. -/
theorem vmmap_faithful_iff {c : Tracee ε} {es : List Entry} (hrun : s.state = .running)
    (hc : s.tracee = some c) (hmaps : h.maps c.env = some (es.map Entry.line)) :
    (PrintsMap h s es ↔ ∀ e ∈ es, ' ' ∉ e.path) ∧
      ∀ e ∈ es, ∃ row, mapRow e = row ++ ['\n'] ∧ '\n' ∉ row := by
  refine ⟨?_, fun e _ ↦ mapRow_newline e⟩
  have hone : ∀ e : Entry, vmmapRow e.line = mapRow e ↔ ' ' ∉ e.path := by
    intro e
    rw [vmmapRow_line, mapRow, List.append_cancel_left_eq, firstWord_eq_iff]
    simp
  have hle : ∀ e ∈ es, (vmmapRow e.line).length ≤ (mapRow e).length := by
    intro e _
    rw [vmmapRow_line, mapRow, List.length_append, List.length_append]
    exact Nat.add_le_add_left (firstWord_length_le _) _
  have hprinted : mapText ((es.map Entry.line).map fun l ↦ .mapRow (vmmapRow l)) =
      es.flatMap fun e ↦ vmmapRow e.line := by
    rw [mapText_map, List.flatMap_map]
  simp only [← hone]
  rw [← flatMap_eq_iff hle, ← hprinted, PrintsMap, vmmap_eq hrun hc hmaps]
  constructor
  · rintro ⟨s', ms, heq, hlog, htext⟩
    cases heq
    rw [List.append_cancel_left hlog, htext]
  · exact fun htext ↦ ⟨_, _, rfl, rfl, htext⟩

/-- A private mapping of a file. -/
def fileEntry (path : Text) (hpath : (path.all fun c ↦ c != '\n' && c.toNat != 0) = true) : Entry :=
  ⟨0x600000, 0x601000, true, true, false, false, 0, 8, 2, 2622929, 2, path, wf_of_all hpath⟩

/-- A map with a file, a shared mapping, one without a name and a special one. -/
def helloMap : List Entry :=
  [fileEntry "/sample/hello64".toList (by decide),
    { fileEntry "/dev/shm/sem.a".toList (by decide) with
      start := 0x7f2c40000000, stop := 0x7f2c40001000, shared := true, inode := 1234567890 },
    { fileEntry [] all_nil with
      writable := false, executable := true, major := 0, minor := 0, inode := 0, gap := 0 },
    { fileEntry "[heap]".toList (by decide) with
      major := 0, minor := 0, inode := 0 }]

/-- The debugger with a process of its own, whose map has lines of every shape. -/
theorem vmmap_faithful_iff_hello :
    PrintsMap { Tiny.host [] with maps := fun _ ↦ some (helloMap.map Entry.line) }
      { (init : Sdb Nat) with state := .running, tracee := some (Tiny.image []) } helloMap ∧
    helloMap.flatMap mapRow =
      ("0000000000600000-0000000000601000 rw- 2622929  /sample/hello64\n" ++
        "00007f2c40000000-00007f2c40001000 rw-s 1234567890/dev/shm/sem.a\n" ++
        "0000000000600000-0000000000601000 r-x 0        \n" ++
        "0000000000600000-0000000000601000 rw- 0        [heap]\n").toList :=
  ⟨(vmmap_faithful_iff rfl rfl rfl).1.2 (by decide), by decide +kernel⟩

/-- **A name that is not printed.**  It contains a blank; what stands behind it is lost, and the
newline with it. -/
theorem vmmap_faithful_fails :
    vmmapRow (fileEntry "/sample/a b".toList (by decide)).line =
      "0000000000600000-0000000000601000 rw- 2622929  /sample/a".toList ∧
    ¬ PrintsMap
      { Tiny.host [] with maps := fun _ ↦ some [(fileEntry "/sample/a b".toList (by decide)).line] }
      { (init : Sdb Nat) with state := .running, tracee := some (Tiny.image []) }
      [fileEntry "/sample/a b".toList (by decide)] := by
  refine ⟨by decide +kernel, ?_⟩
  rintro ⟨s', ms, heq, hlog, htext⟩
  cases heq
  rw [← List.append_cancel_left hlog] at htext
  revert htext
  decide +kernel

end Sdb
