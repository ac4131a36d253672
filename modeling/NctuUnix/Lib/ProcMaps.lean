import NctuUnix.Lib.Radix

/-!
# The format of a memory map

A line of `/proc/<pid>/maps`: two addresses, the permissions, the offset, the device and the inode
of one mapping, and behind some blanks the name of what is mapped.  The name is the only field that
may be empty or contain blanks.

An `Entry` is such a line, taken apart.  The lemmas say which characters its fields are made of.  A
`Mapping` is an entry with what the kernel knows of the name: what the file is called, and whether
it is gone.
-/

set_option autoImplicit false

namespace ProcMaps

open Input

/-- A number in base sixteen, with zeros in front up to a width: `%0wx`. -/
def hexText (w n : Nat) : Text :=
  List.replicate (w - (Nat.toDigits 16 n).length) '0' ++ Nat.toDigits 16 n

/-- One mapping. -/
structure Entry where
  start : BitVec 64
  stop : BitVec 64
  readable : Bool
  writable : Bool
  executable : Bool
  shared : Bool
  offset : BitVec 64
  major : Nat
  minor : Nat
  inode : Nat
  /-- The blanks in front of the name, after the first one. -/
  gap : Nat
  path : Text
  /-- The name is a C string, and stands in one line. -/
  path_wf : ∀ c ∈ path, c ≠ '\n' ∧ c.toNat ≠ 0

/-- Whether a name can stand in a line can be computed. -/
theorem wf_of_all {path : Text} (h : (path.all fun c ↦ c != '\n' && c.toNat != 0) = true) :
    ∀ c ∈ path, c ≠ '\n' ∧ c.toNat ≠ 0 := fun c hc ↦ by
  simpa using List.all_eq_true.1 h c hc

/-- There need not be a name. -/
theorem all_nil : (([] : Text).all fun c ↦ c != '\n' && c.toNat != 0) = true := rfl

/-- Nor an inode. -/
theorem zero_lt_inodes : 0 < 2 ^ 64 := by decide

namespace Entry

/-- What the mapping may be used for. -/
def access (e : Entry) : Text :=
  [if e.readable then 'r' else '-', if e.writable then 'w' else '-',
    if e.executable then 'x' else '-']

/-- `s` for a shared mapping, `p` for a private one. -/
def flag (e : Entry) : Char := if e.shared then 's' else 'p'

def perms (e : Entry) : Text := e.access ++ [e.flag]

def dev (e : Entry) : Text := hexText 2 e.major ++ ':' :: hexText 2 e.minor

/-- The line, with its newline. -/
def line (e : Entry) : Text :=
  hexText 8 e.start.toNat ++ '-' :: (hexText 8 e.stop.toNat ++ ' ' :: (e.perms ++ ' ' ::
    (hexText 8 e.offset.toNat ++ ' ' :: (e.dev ++ ' ' :: (Nat.toDigits 10 e.inode ++ ' ' ::
      (List.replicate e.gap ' ' ++ (e.path ++ ['\n'])))))))

end Entry

/-! ## Which characters there are -/

variable {w n : Nat} {c : Char}

theorem hexText_ne_nil : hexText w n ≠ [] := by
  simp [hexText, Nat.toDigits_ne_nil]

/-- No digit separates two fields, or two lines. -/
theorem digitChar_plain : ∀ r : Fin 16,
    r.val.digitChar ≠ ' ' ∧ r.val.digitChar ≠ '-' ∧ r.val.digitChar ≠ '\n' := by
  decide

theorem toDigits_plain {b : Nat} (hb : 1 < b) (h16 : b ≤ 16) (hc : c ∈ Nat.toDigits b n) :
    c ≠ ' ' ∧ c ≠ '-' ∧ c ≠ '\n' := by
  obtain ⟨r, hr, rfl⟩ := mem_toDigits hb h16 hc
  exact digitChar_plain ⟨r, hr⟩

theorem hexText_plain (hc : c ∈ hexText w n) : c ≠ ' ' ∧ c ≠ '-' ∧ c ≠ '\n' := by
  rw [hexText, List.mem_append] at hc
  rcases hc with hc | hc
  · rw [List.eq_of_mem_replicate hc]
    decide
  · exact toDigits_plain (by decide) (by decide) hc

theorem Entry.dev_plain {e : Entry} (hc : c ∈ e.dev) : c ≠ ' ' := by
  rw [dev, List.mem_append, List.mem_cons] at hc
  rcases hc with hc | rfl | hc
  · exact (hexText_plain hc).1
  · decide
  · exact (hexText_plain hc).1

theorem Entry.access_plain {e : Entry} (hc : c ∈ e.access) : c ≠ ' ' ∧ c ≠ 'p' ∧ c ≠ '\n' := by
  simp only [access, List.mem_cons, List.not_mem_nil, or_false] at hc
  rcases hc with rfl | rfl | rfl <;> split <;> decide

theorem hexText_noSpace : ∀ c ∈ hexText w n, isSpace c = false := by
  intro c hc
  rw [hexText, List.mem_append] at hc
  rcases hc with hc | hc
  · rw [List.eq_of_mem_replicate hc]
    decide
  · exact toDigits_noSpace (by decide) (by decide) c hc

/-- Two numbers with something between them that is no blank. -/
theorem pair_noSpace {w' n' : Nat} {sep : Char} (hsep : isSpace sep = false) :
    ∀ c ∈ hexText w n ++ sep :: hexText w' n', isSpace c = false := by
  intro c hc
  rw [List.mem_append, List.mem_cons] at hc
  rcases hc with hc | rfl | hc
  · exact hexText_noSpace c hc
  · exact hsep
  · exact hexText_noSpace c hc

/-- Only zero is written with zeros alone. -/
theorem hexText_eq_zeros_iff {k : Nat} (hk : hexText w 0 = List.replicate k '0') :
    hexText w n = List.replicate k '0' ↔ n = 0 := by
  constructor
  · intro h
    by_contra hn
    obtain ⟨r, hr, hmem, hne⟩ := exists_digit_ne_zero (by decide : 1 < 16) (by decide) hn
    have hzero : r.digitChar = '0' := by
      rw [hexText] at h
      exact List.eq_of_mem_replicate (h ▸ List.mem_append_right _ hmem)
    exact hne ((by decide : ∀ r : Fin 16, r.val.digitChar = '0' → r.val = 0) ⟨r, hr⟩ hzero)
  · rintro rfl
    exact hk

/-- Zeros in front do not change what is padded further. -/
theorem pad_hexText {w' : Nat} (hw : w ≤ w') :
    List.replicate (w' - (hexText w n).length) '0' ++ hexText w n = hexText w' n := by
  rw [hexText, hexText, ← List.append_assoc, List.replicate_append_replicate, List.length_append,
    List.length_replicate]
  congr 2
  omega

/-! ## The line as it is read -/

namespace Entry

variable (e : Entry)

/-- The two addresses. -/
def range : Text := hexText 8 e.start.toNat ++ '-' :: hexText 8 e.stop.toNat

/-- The line without its newline. -/
def body : Text :=
  e.range ++ ' ' :: (e.perms ++ ' ' :: (hexText 8 e.offset.toNat ++ ' ' :: (e.dev ++ ' ' ::
    (Nat.toDigits 10 e.inode ++ ' ' :: (List.replicate e.gap ' ' ++ e.path)))))

theorem line_eq : e.line = e.body ++ ['\n'] := by
  simp [line, body, range]

variable {e}

theorem range_noSpace : ∀ c ∈ e.range, isSpace c = false := pair_noSpace (by decide)

theorem perms_noSpace : ∀ c ∈ e.perms, isSpace c = false := by
  intro c hc
  simp only [perms, access, flag, List.mem_append, List.mem_cons, List.not_mem_nil, or_false] at hc
  rcases hc with (rfl | rfl | rfl) | rfl <;> split <;> decide

theorem dev_noSpace : ∀ c ∈ e.dev, isSpace c = false := pair_noSpace (by decide)

/-- No field but the name ends the line. -/
theorem newline_notMem_body : '\n' ∉ e.body := by
  have hno {t : Text} (ht : ∀ c ∈ t, isSpace c = false) : '\n' ∉ t := fun hc ↦
    absurd (ht _ hc) (by decide)
  have hpath : '\n' ∉ e.path := fun hc ↦ (e.path_wf _ hc).1 rfl
  have hino : '\n' ∉ Nat.toDigits 10 e.inode := hno (toDigits_noSpace (by decide) (by decide))
  simp [body, hno range_noSpace, hno perms_noSpace, hno hexText_noSpace, hno dev_noSpace, hino,
    hpath]

/-- The lines of a memory map. -/
theorem lines_map (es : List Entry) : lines (es.flatMap line) = es.map body := by
  induction es with
  | nil => rfl
  | cons e es ih =>
    have hpos : ∀ c ∈ e.body, (c != '\n') = true := fun c hc ↦ by
      simpa using fun h ↦ newline_notMem_body (h ▸ hc)
    have hsplit : (e :: es).flatMap line = e.body ++ '\n' :: es.flatMap line := by
      rw [List.flatMap_cons, line_eq, List.append_assoc]
      rfl
    have hdrop : ((e :: es).flatMap line).dropWhile (· != '\n') = '\n' :: es.flatMap line := by
      rw [hsplit, List.dropWhile_append_of_pos hpos, List.dropWhile_cons_of_neg (by simp)]
    rw [lines_of_terminated hdrop, ih, hsplit, List.takeWhile_append_of_pos hpos,
      List.takeWhile_cons_of_neg (by simp), List.append_nil, List.map_cons]

/-- The words of a line: five fields, and the words of the name. -/
theorem words_body : words e.body = e.range :: e.perms :: hexText 8 e.offset.toNat :: e.dev ::
    Nat.toDigits 10 e.inode :: words e.path := by
  have hgap : ∀ n, words (List.replicate n ' ' ++ e.path) = words e.path := fun n ↦ by
    induction n with
    | zero => rfl
    | succ n ih => rw [List.replicate_succ, List.cons_append, words_space (by decide), ih]
  rw [body, words_cons (by simp [range]) range_noSpace, words_cons (by simp [perms]) perms_noSpace,
    words_cons hexText_ne_nil hexText_noSpace, words_cons (by simp [dev]) dev_noSpace,
    words_cons Nat.toDigits_ne_nil (toDigits_noSpace (by decide) (by decide)), hgap]

/-- The device that has no files. -/
theorem dev_eq_zero_iff : e.dev = "00:00".toList ↔ e.major = 0 ∧ e.minor = 0 := by
  have hcolon {n : Nat} : ':' ∉ hexText 2 n := by
    rw [hexText, List.mem_append]
    rintro (hc | hc)
    · exact absurd (List.eq_of_mem_replicate hc) (by decide)
    · obtain ⟨r, hr, hc⟩ := mem_toDigits (by decide) (by decide) hc
      exact (by decide : ∀ r : Fin 16, r.val.digitChar ≠ ':') ⟨r, hr⟩ hc.symm
  have hzero {n : Nat} : hexText 2 n = ['0', '0'] ↔ n = 0 := hexText_eq_zeros_iff (k := 2) rfl
  rw [dev, ← hzero, ← hzero (n := e.minor)]
  constructor
  · intro h
    have htake := congrArg (List.takeWhile (· != ':')) h
    have hdrop := congrArg (List.dropWhile (· != ':')) h
    have hpos : ∀ c ∈ hexText 2 e.major, (c != ':') = true := fun c hc ↦ by
      simpa using fun h ↦ hcolon (h ▸ hc)
    rw [List.takeWhile_append_of_pos hpos, List.takeWhile_cons_of_neg (by simp),
      List.append_nil] at htake
    rw [List.dropWhile_append_of_pos hpos, List.dropWhile_cons_of_neg (by simp)] at hdrop
    exact ⟨htake, (List.cons.inj hdrop).2⟩
  · rintro ⟨hmajor, hminor⟩
    rw [hmajor, hminor]
    rfl

end Entry

/-! ## Mapped files -/

/-- A mapping as the kernel knows it.  What is mapped has a name if it is a file; the mark behind it
says that the file is gone. -/
structure Mapping extends Entry where
  name : Text
  deleted : Bool
  path_eq : path = name ++ if deleted then " (deleted)".toList else []
  name_head : inode ≠ 0 → ∃ c t, name = c :: t ∧ isSpace c = false
  inode_lt : inode < 2 ^ 64

namespace Mapping

variable (m : Mapping)

/-- The mapping belongs to a file that is on a device. -/
def IsFile : Prop := m.inode ≠ 0 ∧ ¬ (m.major = 0 ∧ m.minor = 0)

instance : Decidable m.IsFile := inferInstanceAs (Decidable (_ ∧ _))

/-- The name up to the first blank, with the mark. -/
def word : Text := m.path.takeWhile fun c ↦ !isSpace c

variable {m}

theorem path_head (h : m.inode ≠ 0) : ∃ c t, m.path = c :: t ∧ isSpace c = false := by
  obtain ⟨c, t, hname, hc⟩ := m.name_head h
  refine ⟨c, t ++ if m.deleted then " (deleted)".toList else [], ?_, hc⟩
  rw [m.path_eq, hname, List.cons_append]

theorem words_path (h : m.inode ≠ 0) : (words m.path).head? = some m.word := by
  obtain ⟨c, t, hpath, hc⟩ := path_head h
  rw [word, hpath, words_head? hc]

/-- The first word is the whole name if there is no blank in it. -/
theorem word_eq_name_iff : m.word = m.name ↔ ∀ c ∈ m.name, isSpace c = false := by
  rw [word, m.path_eq]
  constructor
  · intro h c hc
    rw [← h] at hc
    simpa using List.mem_takeWhile_imp hc
  · intro h
    rw [List.takeWhile_append_of_pos (by simpa using h)]
    rcases m.deleted with _ | _
    · simp
    · simp [isSpace]

end Mapping

end ProcMaps
