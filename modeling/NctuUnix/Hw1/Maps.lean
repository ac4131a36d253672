import NctuUnix.Lib.ProcMaps
import NctuUnix.Lib.Taken
import NctuUnix.Hw1.Independent

/-!
# The rows of the memory map

A file is mapped piece by piece, so its inode stands in several lines of `maps`.  `file_maps` of
`hw1.cpp` is to print each file once.  It looks at the lines with offset 0 only and prints those
whose inode is not the one it has seen last, which is that of the executable at first.

## Main results

* `mapsLoop_eq` — what the loop hands to `print_result`: `Taken.changes`.
* `fileMaps_iff` — every mapped file is listed once, under its name and with its mark, if and only
  if the file is `Listed`: the lines with offset 0 stand together inode by inode, there is one for
  every file, and the first of each has a plain name (`fits_self_iff`).
* `fileMaps_fails` — two files whose mappings alternate, and a file that is gone.
-/

set_option autoImplicit false

namespace Lsof

open Input ProcMaps Taken

/-! ## What is claimed -/

/-- The content of `maps`. -/
def mapsText (ms : List Mapping) : Text := (ms.map Mapping.toEntry).flatMap Entry.line

/-- The row that is due for a mapping. -/
structure Shows (m : Mapping) (r : Row) : Prop where
  name : r.name = m.name
  fd : r.fd = if m.deleted then "DEL".toList else "mem".toList
  type : m.deleted = true → r.type = "unknown".toList

/-- Each file has one row, apart from the executable, and every row is the one for a mapping. -/
structure ListsFiles (ms : List Mapping) (exe : Option Nat) (rows : List Row) : Prop where
  once : (rows.map (·.inode)).Nodup
  complete : ∀ m ∈ ms, m.IsFile → exe ≠ some m.inode →
    ∃ r ∈ rows, r.inode = Nat.toDigits 10 m.inode
  shown : ∀ r ∈ rows, ∃ m ∈ ms, m.IsFile ∧ exe ≠ some m.inode ∧
    r.inode = Nat.toDigits 10 m.inode ∧ Shows m r

/-- The inode of the executable, if it is found out. -/
def Proc.exeInode (p : Proc) : Option Nat :=
  match p.exeStat with
  | .ok info => some info.st_ino
  | .error _ => none

/-! ## When it is right -/

/-- The inode as it is written. -/
def inodeText (m : Mapping) : Text := Nat.toDigits 10 m.inode

/-- The mappings of the beginning of a file. -/
def heads (ms : List Mapping) : List Mapping :=
  ms.filter fun m ↦ decide (m.IsFile ∧ m.offset = 0)

/-- Those after the first ones, which have the inode that is remembered. -/
def laterHeads (p : Proc) (ms : List Mapping) : List Mapping :=
  (heads ms).dropWhile fun m ↦ decide (inodeText m = p.remembered)

/-- The first word of the name of `m₀` is the name of `m` once there is no marker in it, and there
is one in it if `m` is marked. -/
def Fits (m₀ m : Mapping) : Prop :=
  m.name = Erase.all deleted m₀.word ∧ (m.deleted = true ↔ deleted <:+: m₀.word)

/-- The mappings for which the files are listed right: the beginnings of files are `Grouped`, every
file has one, the executable has none after those of another file, and where a file begins that is
not remembered the name fits one of its mappings. -/
structure Listed (p : Proc) (ms : List Mapping) : Prop where
  grouped : Grouped ((laterHeads p ms).map (·.inode))
  covered : ∀ m ∈ ms, m.IsFile →
    (m.inode ∈ (laterHeads p ms).map (·.inode) ↔ p.exeInode ≠ some m.inode)
  named : ∀ pre m post, heads ms = pre ++ m :: post →
    inodeText m ≠ (pre.map inodeText).getLastD p.remembered →
    ∃ m' ∈ ms, m'.IsFile ∧ m'.inode = m.inode ∧ Fits m m'

/-- For a file with one name: it is a single word without a marker, and not marked. -/
theorem fits_self_iff {m : Mapping} :
    Fits m m ↔ m.deleted = false ∧ (∀ c ∈ m.name, isSpace c = false) ∧ ¬ deleted <:+: m.name := by
  rw [Fits, ← Mapping.word_eq_name_iff]
  rcases hdel : m.deleted with _ | _
  · simp only [Bool.false_eq_true, false_iff, true_and]
    constructor
    · rintro ⟨hname, hmark⟩
      rw [Erase.all_of_not_infix hmark] at hname
      exact ⟨hname.symm, hname ▸ hmark⟩
    · rintro ⟨hword, hmark⟩
      rw [hword, Erase.all_of_not_infix hmark]
      exact ⟨rfl, hmark⟩
  · refine iff_of_false ?_ (by simp)
    rintro ⟨hname, hmark⟩
    have hprefix : m.word <+: m.name := by
      rw [Mapping.word, m.path_eq, hdel]
      rw [List.takeWhile_append]
      split
      · simp [isSpace]
      · exact List.takeWhile_prefix _
    have hin : deleted <:+: m.name := (hmark.1 rfl).trans hprefix.isInfix
    rw [hname] at hin
    exact Erase.all_clean (by decide) hin

/-! ## The loop -/

variable {m : Mapping}

/-- A line that belongs to a file, as it is read. -/
theorem Columns.read_body (c : Columns) (h : m.inode ≠ 0) : c.read m.toEntry.body =
    ⟨m.range, m.perms, hexText 8 m.offset.toNat, m.dev, inodeText m, m.word⟩ := by
  rw [Columns.read, Entry.words_body]
  simp [← List.head?_eq_getElem?, Mapping.words_path h, inodeText]

theorem Columns.read_fields (c : Columns) (m : Mapping) :
    (c.read m.toEntry.body).offset = hexText 8 m.offset.toNat ∧
      (c.read m.toEntry.body).inode = inodeText m ∧ (c.read m.toEntry.body).device = m.dev := by
  rw [Columns.read, Entry.words_body]
  exact ⟨rfl, rfl, rfl⟩

theorem inodeText_injective {m m' : Mapping} (h : inodeText m = inodeText m') :
    m.inode = m'.inode := toDigits_injective h

theorem inodeText_eq_zero_iff : inodeText m = "0".toList ↔ m.inode = 0 :=
  toDigits_injective.eq_iff' (by decide)

theorem offset_eq_zero_iff :
    hexText 8 m.offset.toNat = "00000000".toList ↔ m.offset = 0 := by
  rw [show "00000000".toList = List.replicate 8 '0' from rfl, hexText_eq_zeros_iff rfl,
    ← BitVec.toNat_inj]
  rfl

/-- The test of `file_maps` on a line. -/
theorem looked_at_iff (c : Columns) (m : Mapping) (t : Text) :
    ((c.read m.toEntry.body).offset = "00000000".toList ∧
      (c.read m.toEntry.body).inode ≠ "0".toList ∧
      (c.read m.toEntry.body).device ≠ "00:00".toList ∧ (c.read m.toEntry.body).inode ≠ t) ↔
      (m.IsFile ∧ m.offset = 0) ∧ inodeText m ≠ t := by
  obtain ⟨hoffset, hinode, hdevice⟩ := c.read_fields m
  rw [hoffset, hinode, hdevice, offset_eq_zero_iff, Ne, Ne, Ne, inodeText_eq_zero_iff,
    Entry.dev_eq_zero_iff, Mapping.IsFile]
  tauto

/-- The record for a mapping. -/
def Process.atMapping (file : Process) (m : Mapping) : Process :=
  { file with inode := inodeText m, name := m.word }

/-- **The loop of `file_maps`.**  Records are made for the beginnings of files whose inode is not
the one remembered. -/
theorem mapsLoop_eq (ms : List Mapping) : ∀ (file : Process) (c : Columns),
    mapsLoop file c (ms.map fun m ↦ m.toEntry.body) =
      (changes inodeText file.inode (heads ms)).map file.atMapping := by
  induction ms with
  | nil => exact fun _ _ ↦ rfl
  | cons m ms ih =>
    intro file c
    rw [List.map_cons, mapsLoop]
    dsimp only
    by_cases hlook : m.IsFile ∧ m.offset = 0
    · have hheads : heads (m :: ms) = m :: heads ms :=
        List.filter_cons_of_pos (by simpa using hlook)
      rw [hheads]
      by_cases hkey : inodeText m = file.inode
      · rw [if_neg fun h ↦ ((looked_at_iff c m _).1 h).2 hkey, ih, changes_cons_of_eq hkey]
      · rw [if_pos ((looked_at_iff c m _).2 ⟨hlook, hkey⟩), ih, changes_cons_of_ne hkey,
          c.read_body hlook.1.1]
        rfl
    · have hheads : heads (m :: ms) = heads ms := List.filter_cons_of_neg (by simpa using hlook)
      rw [if_neg fun h ↦ hlook ((looked_at_iff c m _).1 h).1, ih, hheads]

/-! ## The rows -/

variable {regex : Regex} {F : Filters regex} {p : Proc} {ms : List Mapping} {cmd : Text}

/-- The record `file_maps` starts its loop with. -/
def Proc.mapsFile (p : Proc) (cmd : Text) : Process :=
  let file : Process := { p.file cmd with dir := "maps".toList, fd := "mem".toList }
  match p.mapsStat with
  | .ok info => { file with inode := p.remembered, type := typeOf info.st_mode }
  | .error _ => { file with inode := p.remembered }

theorem fileMaps_eq (hmaps : p.mapsfile = .ok ⟨mapsText ms, none⟩) (errno : Errno) :
    (fileMaps { p.file cmd with dir := "maps".toList } p errno).1 =
      (changes inodeText p.remembered (heads ms)).map (p.mapsFile cmd).atMapping := by
  have hinode : (p.mapsFile cmd).inode = p.remembered := by
    rw [Proc.mapsFile]
    rcases p.mapsStat with e | info <;> rfl
  have hlines : Content.lines ⟨mapsText ms, none⟩ = ms.map fun m ↦ m.toEntry.body := by
    rw [Content.lines, if_neg (by simp), mapsText, Entry.lines_map, List.map_map]
    rfl
  have hfile : (fileMaps { p.file cmd with dir := "maps".toList } p errno).1 =
      mapsLoop (p.mapsFile cmd) ⟨[], [], [], [], [], []⟩ (Content.lines ⟨mapsText ms, none⟩) := by
    rw [fileMaps, hmaps, Proc.mapsFile, Proc.remembered]
    rcases p.exeStat with e | i
    · rcases p.mapsStat with e' | i' <;> rfl
    · rcases p.mapsStat with e' | i' <;> rfl
  rw [hfile, hlines, mapsLoop_eq, hinode]

/-- The row for a mapping, without filters. -/
def Proc.mapsRow (p : Proc) (cmd : Text) (m : Mapping) : Row :=
  display ((p.mapsFile cmd).atMapping m)

theorem printResult_of_noFilter (hF : ∀ i, F.filter i = false) (file : Process) :
    printResult F file = some (display file) := by
  rw [printResult]
  simp [Filters.accepts, hF]

theorem rows_maps (hF : ∀ i, F.filter i = false)
    (hmaps : p.mapsfile = .ok ⟨mapsText ms, none⟩) (errno : Errno) :
    (fileMaps { p.file cmd with dir := "maps".toList } p errno).1.filterMap (printResult F) =
      (changes inodeText p.remembered (heads ms)).map (p.mapsRow cmd) := by
  have hprint : printResult F = fun file ↦ some (display file) :=
    funext (printResult_of_noFilter hF)
  rw [fileMaps_eq hmaps, hprint, List.filterMap_map]
  exact congrFun List.filterMap_eq_map' _

/-- What is shown for the beginning of a file is right for a mapping that it fits. -/
theorem shows_mapsRow_iff {m₀ : Mapping} : Shows m (p.mapsRow cmd m₀) ↔ Fits m₀ m := by
  have hfd : (p.mapsRow cmd m₀).fd =
      if deleted <:+: m₀.word then "DEL".toList else "mem".toList := by
    have hmem : fdOf ((p.mapsFile cmd).atMapping m₀) = "mem".toList := by
      rw [Proc.mapsFile]
      rcases p.mapsStat with e | info <;> rfl
    rw [Proc.mapsRow, display, hmem]
    rfl
  have hname : (p.mapsRow cmd m₀).name = Erase.all deleted m₀.word := rfl
  have hne : "mem".toList ≠ "DEL".toList := by decide
  constructor
  · rintro ⟨hn, hf, -⟩
    refine ⟨hn.symm, ?_⟩
    rw [hfd] at hf
    by_cases hin : deleted <:+: m₀.word
    · by_cases hdel : m.deleted = true
      · exact iff_of_true hdel hin
      · rw [if_pos hin, if_neg hdel] at hf
        exact absurd hf.symm hne
    · by_cases hdel : m.deleted = true
      · rw [if_neg hin, if_pos hdel] at hf
        exact absurd hf hne
      · exact iff_of_false hdel hin
  · rintro ⟨hn, hiff⟩
    refine ⟨hn.symm, ?_, fun hdel ↦ if_pos (hiff.1 hdel)⟩
    rw [hfd]
    exact if_congr hiff.symm rfl rfl

/-! ## Main theorem -/

/-- The inodes that are printed. -/
theorem mem_inodes_changes {t : Text} :
    t ∈ (changes inodeText p.remembered (heads ms)).map inodeText ↔
      ∃ n ∈ (laterHeads p ms).map (·.inode), t = Nat.toDigits 10 n := by
  rw [mem_keys_changes, laterHeads, List.mem_map]
  constructor
  · rintro ⟨m, hm, rfl⟩
    exact ⟨m.inode, List.mem_map_of_mem hm, rfl⟩
  · rintro ⟨n, hn, rfl⟩
    obtain ⟨m, hm, rfl⟩ := List.mem_map.1 hn
    exact ⟨m, hm, rfl⟩

theorem mem_inodes_changes_of_inode {m : Mapping} :
    inodeText m ∈ (changes inodeText p.remembered (heads ms)).map inodeText ↔
      m.inode ∈ (laterHeads p ms).map (·.inode) := by
  rw [mem_inodes_changes]
  constructor
  · rintro ⟨n, hn, heq⟩
    rwa [toDigits_injective heq]
  · exact fun h ↦ ⟨m.inode, h, rfl⟩

theorem listsFiles_iff : ListsFiles ms p.exeInode
    ((changes inodeText p.remembered (heads ms)).map (p.mapsRow cmd)) ↔ Listed p ms := by
  have hinodes : ((changes inodeText p.remembered (heads ms)).map (p.mapsRow cmd)).map (·.inode) =
      (changes inodeText p.remembered (heads ms)).map inodeText := by
    rw [List.map_map]
    rfl
  have honce : (((changes inodeText p.remembered (heads ms)).map (p.mapsRow cmd)).map
      (·.inode)).Nodup ↔ Grouped ((laterHeads p ms).map (·.inode)) := by
    rw [hinodes, nodup_changes, ← grouped_map_iff toDigits_injective, List.map_map]
    rfl
  constructor
  · intro h
    have hrow {m₀ : Mapping} (hm₀ : m₀ ∈ changes inodeText p.remembered (heads ms)) :
        ∃ m ∈ ms, m.IsFile ∧ p.exeInode ≠ some m.inode ∧ m.inode = m₀.inode ∧ Fits m₀ m := by
      obtain ⟨m, hm, hfile, hexe, hinode, hshows⟩ := h.shown _ (List.mem_map_of_mem hm₀)
      exact ⟨m, hm, hfile, hexe, toDigits_injective hinode.symm, shows_mapsRow_iff.1 hshows⟩
    refine ⟨honce.1 h.once, fun m hm hfile ↦ ⟨fun hmem ↦ ?_, fun hexe ↦ ?_⟩, ?_⟩
    · obtain ⟨m₀, hm₀, heq⟩ := List.mem_map.1 (mem_inodes_changes_of_inode.2 hmem)
      obtain ⟨m₁, -, -, hexe, hinode, -⟩ := hrow hm₀
      rwa [hinode, inodeText_injective heq] at hexe
    · obtain ⟨r, hr, hinode⟩ := h.complete m hm hfile hexe
      rw [← mem_inodes_changes_of_inode, ← hinodes, inodeText, ← hinode]
      exact List.mem_map_of_mem hr
    · intro pre m₀ post heq hne
      obtain ⟨m, hm, hfile, -, hinode, hfits⟩ := hrow (mem_changes.2 ⟨pre, post, heq, hne⟩)
      exact ⟨m, hm, hfile, hinode, hfits⟩
  · intro h
    refine ⟨honce.2 h.grouped, fun m hm hfile hexe ↦ ?_, fun r hr ↦ ?_⟩
    · have hmem := mem_inodes_changes_of_inode.2 ((h.covered m hm hfile).2 hexe)
      obtain ⟨m₀, hm₀, heq⟩ := List.mem_map.1 hmem
      exact ⟨_, List.mem_map_of_mem hm₀, heq⟩
    · obtain ⟨m₀, hm₀, rfl⟩ := List.mem_map.1 hr
      obtain ⟨pre, post, heq, hne⟩ := mem_changes.1 hm₀
      obtain ⟨m, hm, hfile, hinode, hfits⟩ := h.named pre m₀ post heq hne
      have htext : inodeText m = inodeText m₀ := by rw [inodeText, hinode, inodeText]
      have hmem : m.inode ∈ (laterHeads p ms).map (·.inode) := by
        rw [← mem_inodes_changes_of_inode, htext]
        exact List.mem_map_of_mem hm₀
      exact ⟨m, hm, hfile, (h.covered m hm hfile).1 hmem, htext.symm, shows_mapsRow_iff.2 hfits⟩

/-- **When every mapped file is listed once.**  With no filter, and for every memory map. -/
theorem fileMaps_iff (hF : ∀ i, F.filter i = false)
    (hmaps : p.mapsfile = .ok ⟨mapsText ms, none⟩) (cmd : Text) (errno : Errno) :
    ListsFiles ms p.exeInode
        ((fileMaps { p.file cmd with dir := "maps".toList } p errno).1.filterMap (printResult F)) ↔
      Listed p ms := by
  rw [rows_maps hF hmaps]
  exact listsFiles_iff

/-! ### Some maps -/

/-- A mapping of a file from its beginning on. -/
def beginning (inode : Fin (2 ^ 64)) (name : Text) (gone : Bool)
    (hname : ∃ c t, name = c :: t ∧ isSpace c = false)
    (hwf : ((name ++ if gone then " (deleted)".toList else []).all fun c ↦
      c != '\n' && c.toNat != 0) = true) : Mapping where
  start := 0x7f0000000000
  stop := 0x7f0000001000
  readable := true
  writable := false
  executable := false
  shared := false
  offset := 0
  major := 8
  minor := 2
  inode := inode
  gap := 1
  path := name ++ if gone then " (deleted)".toList else []
  path_wf := wf_of_all hwf
  name := name
  deleted := gone
  path_eq := rfl
  name_head := fun _ ↦ hname
  inode_lt := inode.isLt

def libc₀ : Mapping :=
  beginning 10 "/lib/libc.so".toList false ⟨_, _, rfl, by decide⟩ (by decide)

def libm : Mapping :=
  beginning 11 "/lib/libm.so".toList false ⟨_, _, rfl, by decide⟩ (by decide)

def gone : Mapping := beginning 12 "/tmp/x".toList true ⟨_, _, rfl, by decide⟩ (by decide)

/-- A process with the mappings `ms`, whose executable has inode 4. -/
def mapping (ms : List Mapping) : Proc := { readable with mapsfile := .ok ⟨mapsText ms, none⟩ }

/-- A mapping without a file: an anonymous one, or one with a name of its own. -/
def unfiled (name : Text) (hwf : (name.all fun c ↦ c != '\n' && c.toNat != 0) = true) :
    Mapping where
  start := 0x7ffc00000000
  stop := 0x7ffc00021000
  readable := true
  writable := true
  executable := false
  shared := false
  offset := 0
  major := 0
  minor := 0
  inode := 0
  gap := 18
  path := name
  path_wf := wf_of_all hwf
  name := name
  deleted := false
  path_eq := (List.append_nil name).symm
  name_head := fun h ↦ absurd rfl h
  inode_lt := zero_lt_inodes

/-- The executable and a library in two pieces each, a shared mapping, an anonymous one and the
stack. -/
def catMaps : List Mapping :=
  [beginning 4 "/bin/cat".toList false ⟨_, _, rfl, by decide⟩ (by decide),
    { beginning 4 "/bin/cat".toList false ⟨_, _, rfl, by decide⟩ (by decide) with
      offset := 0x1000, executable := true },
    libm,
    { libm with offset := 0x1000, executable := true },
    { beginning 12 "/dev/shm/sem.a".toList false ⟨_, _, rfl, by decide⟩ (by decide) with
      shared := true, writable := true },
    unfiled [] all_nil, unfiled "[stack]".toList (by decide)]

/-- The library and the shared file have a row each, the executable and the rest have none. -/
theorem fileMaps_iff_cat : ListsFiles catMaps (some 4)
    ((fileMaps { (mapping catMaps).file "cat".toList with dir := "maps".toList } (mapping catMaps)
      0).1.filterMap (printResult noFilters)) := by
  refine (fileMaps_iff (p := mapping catMaps) (F := noFilters) (fun _ ↦ rfl) rfl _ _).2 ⟨?_, ?_, ?_⟩
  · intro x y hs
    have hnodup : ((laterHeads (mapping catMaps) catMaps).map (·.inode)).Nodup := by decide +kernel
    have hthree := hs.nodup hnodup
    simp at hthree
  · decide +kernel
  · intro pre m post heq _
    have hplain : ∀ m ∈ heads catMaps, m.deleted = false ∧
        (m.name.all fun c ↦ !isSpace c) = true ∧ ¬ deleted <:+: m.name := by decide +kernel
    have hmem : m ∈ heads catMaps := by
      rw [heq]
      exact List.mem_append_right _ List.mem_cons_self
    have hfile := of_decide_eq_true (List.mem_filter.1 hmem).2
    obtain ⟨hkept, hspace, hmark⟩ := hplain m hmem
    have hword : ∀ c ∈ m.name, isSpace c = false := by simpa using hspace
    exact ⟨m, (List.mem_filter.1 hmem).1, hfile.1, rfl, fits_self_iff.2 ⟨hkept, hword, hmark⟩⟩

/-- **A file that is listed twice, and one that is not shown as deleted.** -/
theorem fileMaps_fails :
    ¬ ListsFiles [libm, libc₀, libm] (some 4)
      ((fileMaps { (mapping [libm, libc₀, libm]).file "cat".toList with dir := "maps".toList }
        (mapping [libm, libc₀, libm]) 0).1.filterMap (printResult noFilters)) ∧
    ¬ ListsFiles [gone] (some 4)
      ((fileMaps { (mapping [gone]).file "cat".toList with dir := "maps".toList } (mapping [gone])
        0).1.filterMap (printResult noFilters)) := by
  constructor
  · exact fun h ↦ absurd h.once (by decide +kernel)
  · intro h
    obtain ⟨r, hr, -⟩ := h.complete gone (List.mem_singleton_self _) (by decide) (by decide)
    obtain ⟨m, hm, -, -, -, hshows⟩ := h.shown r hr
    have hfd := hshows.fd
    rw [List.mem_singleton.1 hm] at hfd
    have hmem : ∀ r ∈ (fileMaps { (mapping [gone]).file "cat".toList with dir := "maps".toList }
        (mapping [gone]) 0).1.filterMap (printResult noFilters), r.fd ≠ "DEL".toList := by
      decide +kernel
    exact hmem r hr hfd

end Lsof
