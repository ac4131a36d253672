import NctuUnix.Hw1.Dumpinfo
import NctuUnix.Hw1.Maps

/-!
# The memory map, in C

The loop of `get_maps` in `hw1.c` does not notice the end of the file.  It stops after four lines
without an inode in a row, which is how a memory map ends if the kernel puts that many behind the
last file, and it passes over lines that have the inode or the name of the row before.

`noticed` is what the counter of the loop gets to see: a line with the inode of the row before
neither counts nor ends a run.

## Main results

* `mapsLoop_finished_iff` — how the loop ends.
* `getMaps_returns_iff` — it returns if four anonymous lines in a row are noticed somewhere.
* `getMaps_complete_iff` — the loop ends after the last line and every file has a row, if and only
  if four anonymous lines in a row are noticed after the last line and not before, and every inode
  is `Taken.taken` with a name that is printed.
* `getMaps_fails` — an empty map, and a map with four anonymous lines in the middle.
-/

set_option autoImplicit false

namespace Dump

open Input CString ProcMaps Taken
open Lsof (mapsText inodeText inodeText_injective inodeText_eq_zero_iff)

/-! ## What is claimed -/

/-- No filter. -/
def noOption : Options := ⟨none, none, none⟩

/-- The loop over the lines ends after the last one, nothing that is missing is read, and every
inode is printed. -/
structure Complete (sys : Sys) (pre_inode pre_file : Text) (s : State) (ms : List Mapping) :
    Prop where
  ends : (mapsLoop (s.info.append "maps".toList) 0 pre_inode pre_file []
    (getlines (mapsText ms))).2 = .finished
  returns : (getMaps sys pre_inode pre_file s).2.isSome = true
  rows : ∀ m ∈ ms, m.inode ≠ 0 →
    ∃ r ∈ (getMaps sys pre_inode pre_file s).1.filterMap (printInfo sys noOption),
      r.node = Nat.toDigits 10 m.inode

/-! ## When it is right -/

/-- The first token of a name. -/
def token (m : Mapping) : Text := m.path.takeWhile fun c ↦ !(blanks.contains c)

/-- What is remembered of a mapping. -/
def keyOf (m : Mapping) : Text × Text := (inodeText m, token m)

/-- A line is taken if neither its inode nor its name is that of the line taken last. -/
def differs (k : Text × Text) (m : Mapping) : Bool :=
  decide (inodeText m ≠ k.1 ∧ token m ≠ k.2)

/-- The mappings of files. -/
def files (ms : List Mapping) : List Mapping := ms.filter fun m ↦ decide (m.inode ≠ 0)

/-- A line of the map, for the loop. -/
inductive Seen
  | anonymous
  | file
  /-- A file whose name does not fit the array. -/
  | overlong
  deriving DecidableEq, Repr

def lookAt (m : Mapping) : Seen :=
  if m.inode = 0 then .anonymous else if 4096 ≤ (token m).length then .overlong else .file

/-- The lines that do not have the inode of the line taken last, which is `k` at first. -/
def noticed (k : Text × Text) : List Mapping → List Seen
  | [] => []
  | m :: ms =>
    if inodeText m = k.1 then noticed k ms
    else lookAt m :: noticed (if m.inode ≠ 0 ∧ token m ≠ k.2 then keyOf m else k) ms

/-- The name is a single token, or the mark comes next. -/
def Printable (m : Mapping) : Prop :=
  (tokens blanks m.path)[1]? = none ∨ (tokens blanks m.path)[1]? = some "(deleted)".toList

/-- The maps that are printed completely, for what is in the arrays at first. -/
structure Whole (k : Text × Text) (ms : List Mapping) : Prop where
  fits : Seen.overlong ∉ noticed k ms
  four : ∀ pre post, ms = pre ++ post →
    (List.replicate 4 Seen.anonymous <:+ noticed k pre ↔ post = [])
  taken : ∀ m ∈ ms, m.inode ≠ 0 →
    ∃ m' ∈ Taken.taken differs keyOf k (files ms), m'.inode = m.inode ∧ Printable m'

/-- The maps after which the loop returns. -/
def Ends (k : Text × Text) (ms : List Mapping) : Prop :=
  ∃ pre, pre <+: ms ∧ Seen.overlong ∉ noticed k pre ∧
    List.replicate 4 Seen.anonymous <:+ noticed k pre

/-! ## The tokens of a line -/

theorem notMem_blanks {c : Char} (h : isSpace c = false) : c ∉ blanks := by
  intro hc
  have hspace : (blanks.all isSpace) = true := by decide
  rw [List.all_eq_true.1 hspace c hc] at h
  exact absurd h (by decide)

variable {m : Mapping} {ms : List Mapping} {info : PidInfo} {k : Text × Text}

theorem tokens_line (m : Mapping) : tokens blanks m.toEntry.line =
    m.range :: m.perms :: hexText 8 m.offset.toNat :: m.dev :: inodeText m ::
      tokens blanks m.path := by
  have hplain {t : Text} (h : ∀ c ∈ t, isSpace c = false) : ∀ c ∈ t, c ∉ blanks :=
    fun c hc ↦ notMem_blanks (h c hc)
  have hblank : ' ' ∈ blanks := by decide
  have hgap : ∀ c ∈ List.replicate m.gap ' ', c ∈ blanks := fun c hc ↦ by
    rw [List.eq_of_mem_replicate hc]
    exact hblank
  have hbody : tokens blanks m.toEntry.line = tokens blanks m.toEntry.body := by
    rw [Entry.line_eq, tokens_append (by decide), tokens_nil, List.append_nil]
  rw [hbody, Entry.body, tokens_between (by simp [Entry.range]) (hplain Entry.range_noSpace) hblank,
    tokens_between (by simp [Entry.perms]) (hplain Entry.perms_noSpace) hblank,
    tokens_between hexText_ne_nil (hplain hexText_noSpace) hblank,
    tokens_between (by simp [Entry.dev]) (hplain Entry.dev_noSpace) hblank,
    tokens_between Nat.toDigits_ne_nil (hplain (toDigits_noSpace (by decide) (by decide))) hblank,
    tokens_skip hgap]
  rfl

theorem tokens_path (h : m.inode ≠ 0) : (tokens blanks m.path)[0]? = some (token m) := by
  obtain ⟨c, t, hpath, hc⟩ := Mapping.path_head h
  rw [← List.head?_eq_getElem?, token, hpath, tokens_head? (notMem_blanks hc)]

theorem inodeText_length (m : Mapping) : ¬ 1024 ≤ (inodeText m).length := by
  have hlen : (inodeText m).length ≤ 20 :=
    (Nat.length_toDigits_le_iff (by decide) (by decide)).2
      (Nat.lt_of_lt_of_le m.inode_lt (by decide))
  omega

/-! ## The loop -/

/-- The calls for a line that is taken. -/
def callsFor (info : PidInfo) (m : Mapping) : List Call :=
  mapsCall info (inodeText m) (token m) (tokens blanks m.path)[1]?

/-- The lines of the map. -/
def mapLines (ms : List Mapping) : List Text := ms.map fun m ↦ m.toEntry.line

/-- **One round of the loop.** -/
theorem mapsLoop_cons (info : PidInfo) {bc : Nat} (hbc : ¬ 4 ≤ bc) (k : Text × Text)
    (buff : Text) (m : Mapping) (ms : List Mapping) :
    mapsLoop info bc k.1 k.2 buff (mapLines (m :: ms)) =
      let next := used blanks m.toEntry.line
      if inodeText m = k.1 then mapsLoop info bc k.1 k.2 next (mapLines ms)
      else if m.inode = 0 then mapsLoop info (bc + 1) k.1 k.2 next (mapLines ms)
      else if 4096 ≤ (token m).length then ([], .unterminated)
      else if token m = k.2 then mapsLoop info 0 k.1 k.2 next (mapLines ms)
      else
        (callsFor info m ++ (mapsLoop info 0 (keyOf m).1 (keyOf m).2 next (mapLines ms)).1,
          (mapsLoop info 0 (keyOf m).1 (keyOf m).2 next (mapLines ms)).2) := by
  rw [mapLines, List.map_cons, mapsLoop, if_neg hbc, tokens_line]
  simp only [List.getElem?_cons_succ, List.getElem?_cons_zero, if_neg (inodeText_length m),
    inodeText_eq_zero_iff]
  by_cases hkey : inodeText m = k.1
  · rw [if_pos hkey, if_pos hkey]
    rfl
  · rw [if_neg hkey, if_neg hkey]
    by_cases hzero : m.inode = 0
    · rw [if_pos hzero, if_pos hzero]
      rfl
    · rw [if_neg hzero, if_neg hzero]
      simp only [tokens_path hzero]
      rfl

theorem mapsLoop_early {bc : Nat} (hbc : 4 ≤ bc) (k : Text × Text) (buff : Text) (m : Mapping) :
    mapsLoop info bc k.1 k.2 buff (mapLines (m :: ms)) = ([], .early) := if_pos hbc

theorem mapsLoop_nil {bc : Nat} {buff : Text} (hbuff : (tokens blanks buff).length ≤ 1)
    (k : Text × Text) : mapsLoop info bc k.1 k.2 buff (mapLines []) =
      ([], if 4 ≤ bc then .finished else .noToken) := by
  have hnone : (tokens blanks buff)[4]?.isNone = true := by
    rw [List.getElem?_eq_none (by omega)]
    rfl
  rw [mapLines, List.map_nil, mapsLoop]
  by_cases hbc : 4 ≤ bc
  · rw [if_pos hbc, if_pos hbc]
  · rw [if_neg hbc, if_neg hbc, if_pos hnone]

/-- A property of all ways to cut a list, the first one apart. -/
theorem forall_split_cons {α : Type} {a : α} {l : List α} {P : List α → List α → Prop} :
    (∀ pre post, a :: l = pre ++ post → P pre post) ↔
      P [] (a :: l) ∧ ∀ pre post, l = pre ++ post → P (a :: pre) post := by
  constructor
  · refine fun h ↦ ⟨h [] _ rfl, fun pre post heq ↦ h (a :: pre) post (by rw [heq]; rfl)⟩
  · rintro ⟨hnil, hcons⟩ (_ | ⟨b, pre⟩) post heq
    · rw [List.nil_append] at heq
      exact heq ▸ hnil
    · obtain ⟨rfl, htail⟩ := List.cons.inj heq
      exact hcons pre post htail

/-! ### What is noticed, line by line -/

variable {k : Text × Text}

theorem noticed_same (hkey : inodeText m = k.1) (ms : List Mapping) :
    noticed k (m :: ms) = noticed k ms := if_pos hkey

theorem noticed_anonymous (hkey : inodeText m ≠ k.1) (hzero : m.inode = 0) (ms : List Mapping) :
    noticed k (m :: ms) = .anonymous :: noticed k ms := by
  rw [noticed, if_neg hkey, lookAt, if_pos hzero, if_neg (by simp [hzero])]

theorem overlong_mem_noticed (hkey : inodeText m ≠ k.1) (hzero : m.inode ≠ 0)
    (hlong : 4096 ≤ (token m).length) (ms : List Mapping) :
    Seen.overlong ∈ noticed k (m :: ms) := by
  rw [noticed, if_neg hkey, lookAt, if_neg hzero, if_pos hlong]
  exact List.mem_cons_self

theorem noticed_file (hkey : inodeText m ≠ k.1) (hzero : m.inode ≠ 0)
    (hlong : ¬ 4096 ≤ (token m).length) (hfile : token m = k.2) (ms : List Mapping) :
    noticed k (m :: ms) = .file :: noticed k ms := by
  rw [noticed, if_neg hkey, lookAt, if_neg hzero, if_neg hlong, if_neg (by simp [hfile])]

theorem noticed_new (hkey : inodeText m ≠ k.1) (hzero : m.inode ≠ 0)
    (hlong : ¬ 4096 ≤ (token m).length) (hfile : token m ≠ k.2) (ms : List Mapping) :
    noticed k (m :: ms) = .file :: noticed (keyOf m) ms := by
  rw [noticed, if_neg hkey, lookAt, if_neg hzero, if_neg hlong, if_pos ⟨hzero, hfile⟩]

/-! ### Through the lines -/

/-- What the counter shows after some lines. -/
def counter (k : Text × Text) (bc : Nat) (ms : List Mapping) : Nat :=
  runLength Seen.anonymous bc (noticed k ms)

/-- **How the loop ends.**  It ends after the last line if every name that is copied fits, and the
counter gets to four there and not before. -/
theorem mapsLoop_finished_iff (ms : List Mapping) : ∀ (bc : Nat) (k : Text × Text) (buff : Text),
    (tokens blanks buff).length ≤ 1 →
    ((mapsLoop info bc k.1 k.2 buff (mapLines ms)).2 = .finished ↔
      Seen.overlong ∉ noticed k ms ∧
        ∀ pre post, ms = pre ++ post → (4 ≤ counter k bc pre ↔ post = [])) := by
  induction ms with
  | nil =>
    intro bc k buff hbuff
    rw [mapsLoop_nil hbuff]
    constructor
    · intro h
      have hbc : 4 ≤ bc := by
        by_contra hbc
        rw [if_neg hbc] at h
        exact absurd h (by decide)
      refine ⟨List.not_mem_nil, fun pre post heq ↦ ?_⟩
      obtain ⟨rfl, rfl⟩ := List.append_eq_nil_iff.1 heq.symm
      exact iff_of_true hbc rfl
    · exact fun h ↦ if_pos ((h.2 [] [] rfl).2 rfl)
  | cons m ms ih =>
    intro bc k buff hbuff
    rw [forall_split_cons]
    have hfirst : (4 ≤ counter k bc [] ↔ m :: ms = []) ↔ ¬ 4 ≤ bc := by
      rw [counter, noticed, runLength]
      simp
    rw [hfirst]
    by_cases hbc : 4 ≤ bc
    · rw [mapsLoop_early hbc]
      exact iff_of_false (by decide) fun h ↦ h.2.1 hbc
    · have hused : (tokens blanks (used blanks m.toEntry.line)).length ≤ 1 := tokens_used
      rw [mapsLoop_cons info hbc, and_iff_right hbc]
      dsimp only
      by_cases hkey : inodeText m = k.1
      · rw [if_pos hkey, ih bc k _ hused, noticed_same hkey]
        simp only [counter, noticed_same hkey]
      · rw [if_neg hkey]
        by_cases hzero : m.inode = 0
        · rw [if_pos hzero, ih (bc + 1) k _ hused, noticed_anonymous hkey hzero]
          simp only [counter, noticed_anonymous hkey hzero, runLength_cons, List.mem_cons,
            reduceCtorEq, false_or, if_true]
        · rw [if_neg hzero]
          by_cases hlong : 4096 ≤ (token m).length
          · rw [if_pos hlong]
            exact iff_of_false (by decide) fun h ↦
              h.1 (overlong_mem_noticed hkey hzero hlong ms)
          · rw [if_neg hlong]
            by_cases hfile : token m = k.2
            · have hnoticed := noticed_file hkey hzero hlong hfile
              rw [if_pos hfile, ih 0 k _ hused, hnoticed]
              simp only [counter, hnoticed, runLength_cons, List.mem_cons, reduceCtorEq, false_or,
                if_false]
            · have hnoticed := noticed_new hkey hzero hlong hfile
              rw [if_neg hfile, ih 0 (keyOf m) _ hused, hnoticed]
              simp only [counter, hnoticed, runLength_cons, List.mem_cons, reduceCtorEq, false_or,
                if_false]

/-- The beginnings of a list: the empty one, and those with its first element. -/
theorem exists_prefix_cons {α : Type} {a : α} {l : List α} {P : List α → Prop} :
    (∃ pre, pre <+: a :: l ∧ P pre) ↔ P [] ∨ ∃ pre, pre <+: l ∧ P (a :: pre) := by
  constructor
  · rintro ⟨pre, hpre, hP⟩
    rcases List.prefix_cons_iff.1 hpre with rfl | ⟨pre', rfl, hpre'⟩
    · exact .inl hP
    · exact .inr ⟨pre', hpre', hP⟩
  · rintro (hP | ⟨pre, hpre, hP⟩)
    · exact ⟨[], List.nil_prefix, hP⟩
    · exact ⟨a :: pre, List.cons_prefix_cons.2 ⟨rfl, hpre⟩, hP⟩

/-- **When the loop ends in good order**, with or without lines that have not been looked at: the
counter gets to four, and every name that is copied until then fits. -/
theorem mapsLoop_returns_iff (ms : List Mapping) : ∀ (bc : Nat) (k : Text × Text) (buff : Text),
    (tokens blanks buff).length ≤ 1 →
    ((mapsLoop info bc k.1 k.2 buff (mapLines ms)).2 = .finished ∨
        (mapsLoop info bc k.1 k.2 buff (mapLines ms)).2 = .early ↔
      ∃ pre, pre <+: ms ∧ Seen.overlong ∉ noticed k pre ∧ 4 ≤ counter k bc pre) := by
  have hstart (bc : Nat) (k : Text × Text) : counter k bc [] = bc := rfl
  induction ms with
  | nil =>
    intro bc k buff hbuff
    rw [mapsLoop_nil hbuff]
    constructor
    · intro h
      refine ⟨[], List.nil_prefix, List.not_mem_nil, ?_⟩
      by_contra hbc
      rw [hstart] at hbc
      rw [if_neg hbc] at h
      exact absurd h (by decide)
    · rintro ⟨pre, hpre, -, hbc⟩
      rw [List.prefix_nil.1 hpre, hstart] at hbc
      exact .inl (if_pos hbc)
  | cons m ms ih =>
    intro bc k buff hbuff
    rw [exists_prefix_cons, hstart]
    by_cases hbc : 4 ≤ bc
    · rw [mapsLoop_early hbc]
      exact iff_of_true (.inr rfl) (.inl ⟨List.not_mem_nil, hbc⟩)
    · have hused : (tokens blanks (used blanks m.toEntry.line)).length ≤ 1 := tokens_used
      have hfirst : ¬ (Seen.overlong ∉ noticed k [] ∧ 4 ≤ bc) := fun h ↦ hbc h.2
      rw [mapsLoop_cons info hbc, or_iff_right hfirst]
      dsimp only
      by_cases hkey : inodeText m = k.1
      · rw [if_pos hkey, ih bc k _ hused]
        simp only [counter, noticed_same hkey]
      · rw [if_neg hkey]
        by_cases hzero : m.inode = 0
        · rw [if_pos hzero, ih (bc + 1) k _ hused]
          simp only [counter, noticed_anonymous hkey hzero, runLength_cons, List.mem_cons,
            reduceCtorEq, false_or, if_true]
        · rw [if_neg hzero]
          by_cases hlong : 4096 ≤ (token m).length
          · rw [if_pos hlong]
            refine iff_of_false (by decide) ?_
            rintro ⟨pre, -, hfits, -⟩
            exact hfits (overlong_mem_noticed hkey hzero hlong pre)
          · rw [if_neg hlong]
            by_cases hfile : token m = k.2
            · rw [if_pos hfile, ih 0 k _ hused]
              simp only [counter, noticed_file hkey hzero hlong hfile, runLength_cons,
                List.mem_cons, reduceCtorEq, false_or, if_false]
            · rw [if_neg hfile, ih 0 (keyOf m) _ hused]
              simp only [counter, noticed_new hkey hzero hlong hfile, runLength_cons,
                List.mem_cons, reduceCtorEq, false_or, if_false]

/-- **What it prints**, if it gets to the end: the lines that are taken. -/
theorem mapsLoop_calls (ms : List Mapping) : ∀ (bc : Nat) (k : Text × Text) (buff : Text),
    (tokens blanks buff).length ≤ 1 →
    (mapsLoop info bc k.1 k.2 buff (mapLines ms)).2 = .finished →
    (mapsLoop info bc k.1 k.2 buff (mapLines ms)).1 =
      (Taken.taken differs keyOf k (files ms)).flatMap (callsFor info) := by
  induction ms with
  | nil =>
    intro bc k buff hbuff _
    rw [mapsLoop_nil hbuff]
    rfl
  | cons m ms ih =>
    intro bc k buff hbuff hend
    by_cases hbc : 4 ≤ bc
    · rw [mapsLoop_early hbc] at hend
      exact absurd hend (by decide)
    · have hused : (tokens blanks (used blanks m.toEntry.line)).length ≤ 1 := tokens_used
      rw [mapsLoop_cons info hbc] at hend ⊢
      dsimp only at hend ⊢
      by_cases hzero : m.inode = 0
      · have hfiles : files (m :: ms) = files ms := List.filter_cons_of_neg (by simpa using hzero)
        rw [hfiles]
        by_cases hkey : inodeText m = k.1
        · rw [if_pos hkey] at hend ⊢
          exact ih bc k _ hused hend
        · rw [if_neg hkey, if_pos hzero] at hend ⊢
          exact ih (bc + 1) k _ hused hend
      · have hfiles : files (m :: ms) = m :: files ms :=
          List.filter_cons_of_pos (by simpa using hzero)
        rw [hfiles, Taken.taken]
        by_cases hkey : inodeText m = k.1
        · rw [if_pos hkey] at hend ⊢
          rw [if_neg (by simp [differs, hkey])]
          exact ih bc k _ hused hend
        · rw [if_neg hkey, if_neg hzero] at hend ⊢
          by_cases hlong : 4096 ≤ (token m).length
          · rw [if_pos hlong] at hend
            exact absurd hend (by decide)
          · rw [if_neg hlong] at hend ⊢
            by_cases hfile : token m = k.2
            · rw [if_pos hfile] at hend ⊢
              rw [if_neg (by simp [differs, hfile])]
              exact ih 0 k _ hused hend
            · rw [if_neg hfile] at hend ⊢
              rw [if_pos (by simp [differs, hkey, hfile]), List.flatMap_cons,
                ih 0 (keyOf m) _ hused hend]

/-! ## Main theorem -/

theorem callsFor_ne_nil_iff : callsFor info m ≠ [] ↔ Printable m := by
  rw [callsFor, Printable]
  rcases (tokens blanks m.path)[1]? with _ | tok
  · simp [mapsCall]
  · rw [mapsCall]
    split
    · rename_i htok
      simp [htok]
    · rename_i htok
      simpa using htok

theorem inode_of_mem_callsFor {c : Call} (hc : c ∈ callsFor info m) : c.inode = inodeText m := by
  rw [callsFor] at hc
  rcases htok : (tokens blanks m.path)[1]? with _ | tok
  · rw [htok, mapsCall, List.mem_singleton] at hc
    rw [hc]
  · rw [htok, mapsCall] at hc
    split at hc
    · rw [List.mem_singleton.1 hc]
    · exact absurd hc List.not_mem_nil

theorem printInfo_noOption (sys : Sys) (c : Call) : printInfo sys noOption c =
    some ⟨c.info.cmdlineString, c.info.pid, c.info.userString, c.fd, c.type, c.inode, c.file⟩ := by
  rw [printInfo, if_pos (by simp [noOption])]

theorem getlines_mapsText (ms : List Mapping) : getlines (mapsText ms) = mapLines ms := by
  induction ms with
  | nil => rfl
  | cons m ms ih =>
    have hsplit : mapsText (m :: ms) = m.toEntry.body ++ '\n' :: mapsText ms := by
      rw [mapsText, List.map_cons, List.flatMap_cons, Entry.line_eq, List.append_assoc]
      rfl
    rw [hsplit, getlines_cons Entry.newline_notMem_body, ih, ← Entry.line_eq]
    rfl

variable {sys : Sys} {s : State} {pre_inode pre_file : Text}

/-- Some row has the inode exactly if a line of this inode is taken that can be printed. -/
theorem exists_row_iff (n : Nat) (l : List Mapping) :
    (∃ r ∈ (l.flatMap (callsFor info)).filterMap (printInfo sys noOption),
      r.node = Nat.toDigits 10 n) ↔ ∃ m ∈ l, m.inode = n ∧ Printable m := by
  constructor
  · rintro ⟨r, hr, hnode⟩
    obtain ⟨c, hc, hprint⟩ := List.mem_filterMap.1 hr
    obtain ⟨m, hm, hcm⟩ := List.mem_flatMap.1 hc
    rw [printInfo_noOption, Option.some_inj] at hprint
    rw [← hprint, inode_of_mem_callsFor hcm] at hnode
    exact ⟨m, hm, toDigits_injective hnode, callsFor_ne_nil_iff.1 (List.ne_nil_of_mem hcm)⟩
  · rintro ⟨m, hm, rfl, hprint⟩
    obtain ⟨c, hc⟩ := List.exists_mem_of_ne_nil _ (callsFor_ne_nil_iff.2 hprint)
    exact ⟨_, List.mem_filterMap.2 ⟨c, List.mem_flatMap.2 ⟨m, hm, hc⟩, printInfo_noOption sys c⟩,
      inode_of_mem_callsFor hc⟩

theorem getMaps_mapsText (hmaps : sys.fopen (s.info.path ++ "maps".toList) = some (mapsText ms)) :
    getMaps sys pre_inode pre_file s =
      ((mapsLoop (s.info.append "maps".toList) 0 pre_inode pre_file [] (mapLines ms)).1,
        if (mapsLoop (s.info.append "maps".toList) 0 pre_inode pre_file [] (mapLines ms)).2 =
            .finished ∨
          (mapsLoop (s.info.append "maps".toList) 0 pre_inode pre_file [] (mapLines ms)).2 = .early
        then some { s with info := (s.info.append "maps".toList).cut } else none) := by
  have hopen : sys.fopen (s.info.append "maps".toList).path = some (mapsText ms) := hmaps
  rw [getMaps, hopen]
  dsimp only
  rw [getlines_mapsText]

/-- **When `get_maps` returns** from a memory map: there are four anonymous lines in a row among
those that are noticed, and no name before them is too long. -/
theorem getMaps_returns_iff
    (hmaps : sys.fopen (s.info.path ++ "maps".toList) = some (mapsText ms)) :
    (getMaps sys pre_inode pre_file s).2.isSome = true ↔ Ends (pre_inode, pre_file) ms := by
  have hbuff : (tokens blanks []).length ≤ 1 := by
    rw [tokens_nil]
    exact Nat.zero_le 1
  have hreturns : ((mapsLoop (s.info.append "maps".toList) 0 pre_inode pre_file []
        (mapLines ms)).2 = .finished ∨ _) ↔ _ :=
    mapsLoop_returns_iff ms 0 (pre_inode, pre_file) [] hbuff
  simp only [counter, le_runLength_iff] at hreturns
  rw [getMaps_mapsText hmaps, Ends, ← hreturns]
  dsimp only
  split
  · rename_i h
    exact iff_of_true rfl h
  · rename_i h
    exact iff_of_false (by simp) h

/-- **When `get_maps` is complete.**  For every memory map and whatever the arrays hold at first:
four anonymous lines are noticed in a row after the last line and not before, and of every inode a
line is taken whose name is one token, or one token and the mark. -/
theorem getMaps_complete_iff
    (hmaps : sys.fopen (s.info.path ++ "maps".toList) = some (mapsText ms)) :
    Complete sys pre_inode pre_file s ms ↔ Whole (pre_inode, pre_file) ms := by
  have hbuff : (tokens blanks []).length ≤ 1 := by
    rw [tokens_nil]
    exact Nat.zero_le 1
  have hget : getMaps sys pre_inode pre_file s = _ := getMaps_mapsText hmaps
  have hends : (mapsLoop (s.info.append "maps".toList) 0 pre_inode pre_file []
      (mapLines ms)).2 = .finished ↔ _ :=
    mapsLoop_finished_iff ms 0 (pre_inode, pre_file) [] hbuff
  simp only [counter, le_runLength_iff] at hends
  constructor
  · rintro ⟨hend, -, hrows⟩
    rw [getlines_mapsText] at hend
    obtain ⟨hfits, hfour⟩ := hends.1 hend
    refine ⟨hfits, hfour, fun m hm hinode ↦ ?_⟩
    have hrow := hrows m hm hinode
    rwa [hget, mapsLoop_calls ms 0 (pre_inode, pre_file) [] hbuff hend, exists_row_iff] at hrow
  · rintro ⟨hfits, hfour, htaken⟩
    have hend := hends.2 ⟨hfits, hfour⟩
    refine ⟨by rwa [getlines_mapsText], ?_, fun m hm hinode ↦ ?_⟩
    · rw [hget]
      dsimp only
      rw [if_pos (.inl hend)]
      rfl
    · rw [hget, mapsLoop_calls ms 0 (pre_inode, pre_file) [] hbuff hend, exists_row_iff]
      exact htaken m hm hinode

/-! ### Some maps -/

/-- An anonymous mapping. -/
def anon : Mapping where
  start := 0x7f0000000000
  stop := 0x7f0000001000
  readable := true
  writable := true
  executable := false
  shared := false
  offset := 0
  major := 0
  minor := 0
  inode := 0
  gap := 0
  path := []
  path_wf := fun _ hc ↦ absurd hc List.not_mem_nil
  name := []
  deleted := false
  path_eq := rfl
  name_head := fun h ↦ absurd rfl h
  inode_lt := zero_lt_inodes

/-- A system on which every map is `ms`. -/
def mapped (ms : List Mapping) : Sys :=
  ⟨fun _ ↦ none, fun _ ↦ none, fun _ ↦ none, fun _ ↦ some (mapsText ms), fun _ ↦ none,
    fun _ _ ↦ true⟩

/-- The process 1 before its map is read. -/
def atMaps : State := ⟨catInfo, [], [], true⟩

/-- A library, and four anonymous lines behind it. -/
theorem getMaps_complete_iff_libm :
    Complete (mapped [Lsof.libm, anon, anon, anon, anon]) [] [] atMaps
      [Lsof.libm, anon, anon, anon, anon] := by
  refine (getMaps_complete_iff rfl).2 ⟨by decide +kernel, ?_, ?_⟩
  · rw [forall_split_cons, forall_split_cons, forall_split_cons, forall_split_cons,
      forall_split_cons]
    refine ⟨by decide +kernel, by decide +kernel, by decide +kernel, by decide +kernel,
      by decide +kernel, fun pre post heq ↦ ?_⟩
    obtain ⟨rfl, rfl⟩ := List.append_eq_nil_iff.1 heq.symm
    decide +kernel
  · intro m hm hinode
    have hm' : m = Lsof.libm ∨ m = anon := by simpa using hm
    rcases hm' with rfl | rfl
    · exact ⟨Lsof.libm, List.mem_singleton_self _, rfl, .inl (by decide +kernel)⟩
    · exact absurd rfl hinode

/-- **Maps that are not printed.**  With an empty map a token that is not there is read; with four
anonymous lines in the middle the loop ends there. -/
theorem getMaps_fails :
    (mapsLoop (atMaps.info.append "maps".toList) 0 [] [] [] (getlines (mapsText []))).2 = .noToken ∧
    (mapsLoop (atMaps.info.append "maps".toList) 0 [] [] []
      (getlines (mapsText [anon, anon, anon, anon, Lsof.libm]))).2 = .early ∧
    ¬ Complete (mapped []) [] [] atMaps [] ∧
    ¬ Complete (mapped [anon, anon, anon, anon, Lsof.libm]) [] [] atMaps
      [anon, anon, anon, anon, Lsof.libm] := by
  refine ⟨by decide +kernel, by decide +kernel, fun h ↦ ?_, fun h ↦ ?_⟩
  · exact absurd h.ends (by decide +kernel)
  · exact absurd h.ends (by decide +kernel)

end Dump
