import NctuUnix.Hw4.Tiny

/-!
# What the loader accepts

A program can be debugged when its file is a 64-bit ELF with a section called `.text`.  `FirstText`
says which section of a file that is, in terms of the file alone; `load` looks for it with buffers
that a short read leaves as they were, through an offset that is narrowed to an `int`, and without
asking whether it has found anything.

`search` is the loop of `load` with its trace: which header it stops at, and which bytes of the
string table the comparisons read.

`Usable` says which files `load` is right about, in terms of their bytes.  A file is *regular* when
the header of its string table has an offset below `2^31` and the table is in the file; then only
the names in front of `.text` matter, which must differ from it before the table ends.

## Main results

* `namesRead_iff` — comparisons that stay inside a table, as a statement about the bytes of the
  table.
* `loads_iff` — `load` does what it should exactly when the file does not begin like a 64-bit ELF,
  or can be used.
* `loads_fails` — a file header without sections.
-/

set_option autoImplicit false

namespace Sdb

open Bytes

variable {ε : Type} {h : Host ε} {s s' : Sdb ε} {data : List Byte} {arg : String}

/-! ## The sections of a file -/

/-- The bytes of a file from an offset on. -/
def bytesAt (data : List Byte) (off : Nat) : Nat → Byte := fun k ↦ data.getD (off + k) 0

/-- The file is a 64-bit ELF. -/
def Is64 (data : List Byte) : Prop :=
  64 ≤ data.length ∧ isElf (bytesAt data 0) = true ∧ isClass64 (bytesAt data 0) = true

/-- Where section header `i` is. -/
def sectionOffset (data : List Byte) (i : Nat) : Nat := eShoff (bytesAt data 0) + i * 64

def sectionHeader (data : List Byte) (i : Nat) : Nat → Byte := bytesAt data (sectionOffset data i)

/-- Section header `i` is in the file. -/
def InFile (data : List Byte) (i : Nat) : Prop := sectionOffset data i + 64 ≤ data.length

/-- The section-name string table, as far as it is in the file. -/
def nameTable (data : List Byte) : List Byte :=
  let shdr := sectionHeader data (eShstrndx (bytesAt data 0))
  (data.drop (shOffset shdr).toNat).take (shSize shdr).toNat

/-- `".text"`, terminated. -/
def textName : List Byte := [0x2e, 0x74, 0x65, 0x78, 0x74, 0x00]

/-- Section `i` is called `.text`. -/
def TextAt (data : List Byte) (i : Nat) : Prop :=
  i < eShnum (bytesAt data 0) ∧ InFile data i ∧ InFile data (eShstrndx (bytesAt data 0)) ∧
    textName <+: (nameTable data).drop (shName (sectionHeader data i))

/-- Section `i` is the first one with this name, in a file that is a 64-bit ELF. -/
def FirstText (data : List Byte) (i : Nat) : Prop :=
  Is64 data ∧ TextAt data i ∧ ∀ j, j < i → ¬ TextAt data j

instance (data : List Byte) (i : Nat) : Decidable (TextAt data i) :=
  inferInstanceAs (Decidable (_ < _ ∧ _ + 64 ≤ _ ∧ _ + 64 ≤ _ ∧ _ <+: _))

instance (data : List Byte) (i : Nat) : Decidable (FirstText data i) :=
  inferInstanceAs (Decidable ((_ ≤ _ ∧ _ = true ∧ _ = true) ∧ _ ∧ ∀ j, j < i → ¬ TextAt data j))

theorem FirstText.unique {i j : Nat} (hi : FirstText data i) (hj : FirstText data j) : i = j := by
  rcases Nat.lt_trichotomy i j with hlt | heq | hlt
  · exact absurd hi.2.1 (hj.2.2 i hlt)
  · exact heq
  · exact absurd hj.2.1 (hi.2.2 j hlt)

/-! ## The search, with its trace -/

/-- The bytes that `strcmp(strTab + i, name)` reads. -/
def strcmpReads (strTab : Nat → Byte) : List Byte → Nat → List Nat
  | [], _ => []
  | b :: name, i => i :: if strTab i = b then strcmpReads strTab name (i + 1) else []

/-- The loop of `findText`: how many headers it has passed where it stops, and what it has read of
the string table. -/
def search (strTab : Nat → Byte) : Nat → File → (Nat → Byte) → Option Nat × List Nat
  | 0, _, _ => (none, [])
  | n + 1, f, tmp =>
    let tmp' := f.readInto 64 tmp
    let reads := strcmpReads strTab textName (shName tmp')
    if isText strTab (shName tmp') then (some 0, reads)
    else
      let (i, more) := search strTab n (f.skip 64) tmp'
      (i.map (· + 1), reads ++ more)

/-- The file header, as `load` has it after reading it over the one before. -/
def ehdrRead (s : Sdb ε) (data : List Byte) : Nat → Byte :=
  (⟨data, 0⟩ : File).readInto 64 s.elf.ehdr

/-- The file after the string section header has been looked for. -/
def atStrShdr (data : List Byte) (ehdr : Nat → Byte) : File :=
  ((⟨data, 0⟩ : File).skip 64).seek
    (BitVec.ofNat 32 (eShoff ehdr + eShstrndx ehdr * 64)).toInt

/-- `elf.str_shdr` -/
def strShdrRead (data : List Byte) (ehdr : Nat → Byte) : Nat → Byte :=
  (atStrShdr data ehdr).readInto 64 fun _ ↦ 0

/-- `elf.str_shdr.sh_size` -/
def strSize (data : List Byte) (ehdr : Nat → Byte) : Nat := (shSize (strShdrRead data ehdr)).toNat

def atStrTab (data : List Byte) (ehdr : Nat → Byte) : File :=
  ((atStrShdr data ehdr).skip 64).seek (shOffset (strShdrRead data ehdr)).toInt

/-- `elf.str_tab` -/
def strTabRead (h : Host ε) (data : List Byte) (ehdr : Nat → Byte) : Nat → Byte :=
  (atStrTab data ehdr).readInto (strSize data ehdr) h.heap

/-- The file at its section headers. -/
def atHeaders (data : List Byte) (ehdr : Nat → Byte) : File :=
  ((atStrTab data ehdr).skip (strSize data ehdr)).seek (BitVec.ofNat 64 (eShoff ehdr)).toInt

theorem textSection_eq (data : List Byte) (ehdr : Nat → Byte) :
    textSection h ((⟨data, 0⟩ : File).skip 64) ehdr =
      if h.malloc (strSize data ehdr) then
        .ok (findText (strTabRead h data ehdr) (eShnum ehdr) (atHeaders data ehdr) h.stack)
      else if (atStrTab data ehdr).avail (strSize data ehdr) = 0 ∧ eShnum ehdr = 0 then .ok none
      else .error .crash :=
  rfl

/-- The search that `load` makes in a file. -/
def searchOf (h : Host ε) (s : Sdb ε) (data : List Byte) : Option Nat × List Nat :=
  search (strTabRead h data (ehdrRead s data)) (eShnum (ehdrRead s data))
    (atHeaders data (ehdrRead s data)) h.stack

/-! ## What is claimed, and when it is right -/

/-- `load` accepts a file exactly if it has a text section; then it has found the first one, reading
nothing outside the string table, and otherwise nothing has changed. -/
structure LoadsRight (h : Host ε) (s : Sdb ε) (arg : String) (data : List Byte) : Prop where
  accepts : ∀ i, FirstText data i → ∃ s', load h arg s = .ok s' ∧ s'.state = .loaded ∧
    s'.filePath = arg ∧ s'.elf.textShdr = shdrOf (sectionHeader data i) ∧
    (searchOf h s data).1 = some i ∧
    ∀ p ∈ (searchOf h s data).2, p < strSize data (ehdrRead s data)
  refuses : (∀ i, ¬ FirstText data i) → ∃ s', load h arg s = .ok s' ∧ s'.state = s.state ∧
    s'.filePath = s.filePath

/-- The bytes that are to identify the file: those of the file, and where it is shorter those of the
header that has been read before. -/
def identBytes (s : Sdb ε) (data : List Byte) (k : Nat) : Byte := (data[k]?).getD (s.elf.ehdr k)

/-- They say that the file is a 64-bit ELF. -/
def Identified (s : Sdb ε) (data : List Byte) : Prop :=
  isElf (identBytes s data) = true ∧ isClass64 (identBytes s data) = true

/-- The offset of the header of the string table. -/
def strOffset (data : List Byte) : Nat := sectionOffset data (eShstrndx (bytesAt data 0))

/-- The header of the string table. -/
def strHeader (data : List Byte) : Nat → Byte := bytesAt data (strOffset data)

/-- That offset is an `int`, and the string table is in the file. -/
def Regular (data : List Byte) : Prop :=
  strOffset data < 2 ^ 31 ∧
    (shOffset (strHeader data)).toNat + (shSize (strHeader data)).toNat ≤ data.length

instance (data : List Byte) : Decidable (Regular data) :=
  inferInstanceAs (Decidable (_ < _ ∧ _ ≤ _))

/-- The name of section `j`, with all that follows it in a string table. -/
def nameIn (table : List Byte) (data : List Byte) (j : Nat) : List Byte :=
  table.drop (shName (sectionHeader data j))

/-- Each name in front of section `i` differs from `.text` before the string table ends. -/
def NamesEnd (data : List Byte) (i : Nat) : Prop :=
  ∀ j, j < i → ¬ nameIn (nameTable data) data j <+: textName

/-- In a string table, section `i` is called `.text`, and each name in front of it differs from that
before the table ends. -/
def Finds (table : List Byte) (data : List Byte) (i : Nat) : Prop :=
  textName <+: nameIn table data i ∧ ∀ j, j < i →
    ¬ textName <+: nameIn table data j ∧ ¬ nameIn table data j <+: textName

/-- An offset that has gone through an `int`, for a file of which the first 64 bytes have been
read: a negative one leaves the position. -/
def narrowed (off : Nat) : Nat :=
  if 0 ≤ (BitVec.ofNat 32 off).toInt then (BitVec.ofNat 32 off).toInt.toNat else 64

/-- The header that is found there, completed by zeros. -/
def seenHeader (data : List Byte) : Nat → Byte := bytesAt data (narrowed (strOffset data))

/-- Where the table begins that it describes; an offset that is negative as a `long` leaves the
position behind the header. -/
def seenStart (data : List Byte) : Nat :=
  if 0 ≤ (shOffset (seenHeader data)).toInt then (shOffset (seenHeader data)).toInt.toNat
  else narrowed (strOffset data) + min 64 (data.length - narrowed (strOffset data))

/-- That table, completed by what is in fresh memory where the file ends. -/
def seenTable (h : Host ε) (data : List Byte) : List Byte :=
  (List.range (shSize (seenHeader data)).toNat).map fun p ↦
    (data[seenStart data + p]?).getD (h.heap p)

/-- What has to be so in a file with a text section: a regular one has names that end; in another
one the table that is found in place of the string table has to do. -/
def Usable (h : Host ε) (data : List Byte) (i : Nat) : Prop :=
  (Regular data ∧ h.malloc (shSize (strHeader data)).toNat = true ∧ NamesEnd data i) ∨
    (¬ Regular data ∧ h.malloc (shSize (seenHeader data)).toNat = true ∧
      Finds (seenTable h data) data i)

/-! ## Comparisons inside a table -/

/-- The names of the sections up to `i` are compared inside a table of `size` bytes, and are `.text`
there for section `i` only. -/
def NamesRead (table : Nat → Byte) (size : Nat) (data : List Byte) (i : Nat) : Prop :=
  ∀ j, j ≤ i → (∀ p ∈ strcmpReads table textName (shName (sectionHeader data j)), p < size) ∧
    (isText table (shName (sectionHeader data j)) = true ↔ j = i)

variable {table : Nat → Byte} {size : Nat}

theorem drop_map_range {i : Nat} (hi : i < size) :
    ((List.range size).map table).drop i =
      table i :: ((List.range size).map table).drop (i + 1) := by
  rw [List.drop_eq_getElem_cons (by simpa using hi)]
  simp

/-- **A comparison stays in the table** unless the table ends in the middle of the name. -/
theorem strcmpReads_lt_iff (name : List Byte) : ∀ i : Nat,
    (∀ p ∈ strcmpReads table name i, p < size) ↔
      (((List.range size).map table).drop i <+: name →
        ((List.range size).map table).drop i = name) := by
  induction name with
  | nil =>
    intro i
    exact iff_of_true (by simp [strcmpReads]) fun hp ↦ List.prefix_nil.1 hp
  | cons b name ih =>
    intro i
    rw [strcmpReads, List.forall_mem_cons]
    by_cases hi : i < size
    · rw [drop_map_range hi]
      by_cases hb : table i = b
      · rw [if_pos hb, ih (i + 1), hb, List.prefix_cons_inj, List.cons.injEq]
        exact ⟨fun hr hp ↦ ⟨rfl, hr.2 hp⟩, fun hr ↦ ⟨hi, fun hp ↦ (hr hp).2⟩⟩
      · rw [if_neg hb]
        exact iff_of_true ⟨hi, by simp⟩ fun hp ↦ absurd (List.cons_prefix_cons.1 hp).1 hb
    · have hnil : ((List.range size).map table).drop i = [] :=
        List.drop_eq_nil_of_le (by simpa using hi)
      rw [hnil]
      exact iff_of_false (fun hr ↦ hi hr.1) fun hr ↦ absurd (hr List.nil_prefix) (by simp)

/-- The bytes of a name in a table. -/
theorem prefix_drop_iff (name : List Byte) : ∀ i : Nat,
    name <+: ((List.range size).map table).drop i ↔
      ∀ k, (hk : k < name.length) → i + k < size ∧ table (i + k) = name[k] := by
  induction name with
  | nil => exact fun i ↦ iff_of_true List.nil_prefix fun k hk ↦ absurd hk (by simp)
  | cons b name ih =>
    intro i
    by_cases hi : i < size
    · rw [drop_map_range hi, List.cons_prefix_cons, ih (i + 1)]
      constructor
      · rintro ⟨hb, hall⟩ (_ | k) hk
        · exact ⟨hi, hb.symm⟩
        · have hstep := hall k (by simpa using hk)
          rwa [Nat.add_right_comm] at hstep
      · intro hall
        refine ⟨(hall 0 (by simp)).2.symm, fun k hk ↦ ?_⟩
        have hstep := hall (k + 1) (by simpa using hk)
        rwa [Nat.add_right_comm]
    · rw [List.drop_eq_nil_of_le (by simpa using hi)]
      exact iff_of_false (by simp) fun hall ↦ hi (hall 0 (by simp)).1

theorem isText_iff (i : Nat) :
    isText table i = true ↔ ∀ k, (hk : k < textName.length) → table (i + k) = textName[k] := by
  simp only [isText, Bool.and_eq_true, beq_iff_eq]
  constructor
  · rintro ⟨⟨⟨⟨⟨h₀, h₁⟩, h₂⟩, h₃⟩, h₄⟩, h₅⟩ k hk
    obtain rfl | rfl | rfl | rfl | rfl | rfl : k = 0 ∨ k = 1 ∨ k = 2 ∨ k = 3 ∨ k = 4 ∨ k = 5 := by
      simp only [textName, List.length_cons, List.length_nil] at hk
      omega
    · exact h₀
    · exact h₁
    · exact h₂
    · exact h₃
    · exact h₄
    · exact h₅
  · intro hall
    exact ⟨⟨⟨⟨⟨hall 0 (by decide), hall 1 (by decide)⟩, hall 2 (by decide)⟩, hall 3 (by decide)⟩,
      hall 4 (by decide)⟩, hall 5 (by decide)⟩

/-- A name is `.text` and is compared inside the table exactly if it stands in the table. -/
theorem textName_prefix_iff (i : Nat) :
    textName <+: ((List.range size).map table).drop i ↔
      (∀ p ∈ strcmpReads table textName i, p < size) ∧ isText table i = true := by
  rw [strcmpReads_lt_iff, isText_iff]
  constructor
  · intro hp
    refine ⟨fun hp' ↦ (List.IsPrefix.eq_of_length_le hp ?_).symm, fun k hk ↦ ?_⟩
    · exact hp'.length_le
    · exact (((prefix_drop_iff textName i).1 hp) k hk).2
  · rintro ⟨hin, htext⟩
    by_cases hlong : i + textName.length ≤ size
    · exact (prefix_drop_iff textName i).2 fun k hk ↦ ⟨by omega, htext k hk⟩
    · -- the table would end in the middle of the name
      have hpre : ((List.range size).map table).drop i <+: textName := by
        refine List.prefix_iff_getElem.2 ⟨by simp; omega, fun k hk ↦ ?_⟩
        have hk' : k < textName.length := by
          simp only [List.length_drop, List.length_map, List.length_range] at hk
          omega
        simpa using htext k hk'
      exact hin hpre ▸ List.prefix_rfl

/-- **Comparisons inside a table**, in terms of its bytes. -/
theorem namesRead_iff {data : List Byte} {i : Nat} :
    NamesRead table size data i ↔ Finds ((List.range size).map table) data i := by
  constructor
  · intro hn
    refine ⟨(textName_prefix_iff _).2 ⟨(hn i (Nat.le_refl i)).1, ((hn i (Nat.le_refl i)).2).2 rfl⟩,
      fun j hj ↦ ?_⟩
    obtain ⟨hin, htext⟩ := hn j (by omega)
    have hno : ¬ textName <+: nameIn ((List.range size).map table) data j := fun hp ↦ by
      have := htext.1 ((textName_prefix_iff _).1 hp).2
      omega
    refine ⟨hno, fun hp ↦ hno ?_⟩
    have hname : nameIn ((List.range size).map table) data j = textName :=
      (strcmpReads_lt_iff textName _).1 hin hp
    exact hname ▸ List.prefix_rfl
  · rintro ⟨hi, hlt⟩ j hj
    rcases Nat.lt_or_eq_of_le hj with hj | rfl
    · obtain ⟨hno, hno'⟩ := hlt j hj
      have hin : ∀ p ∈ strcmpReads table textName (shName (sectionHeader data j)), p < size :=
        (strcmpReads_lt_iff textName _).2 fun hp ↦ absurd hp hno'
      exact ⟨hin, iff_of_false (fun ht ↦ hno ((textName_prefix_iff _).2 ⟨hin, ht⟩)) (by omega)⟩
    · obtain ⟨hin, htext⟩ := (textName_prefix_iff _).1 hi
      exact ⟨hin, iff_of_true htext rfl⟩

/-! ## Complete reads -/

variable {f : File} {buf buf' tmp strTab : Nat → Byte}

/-- A header that is in the file is read from it. -/
theorem readInto_complete (hin : f.pos + 64 ≤ f.data.length) {k : Nat} (hk : k < 64) :
    f.readInto 64 tmp k = bytesAt f.data f.pos k := by
  rw [File.readInto, File.avail, if_pos (by omega), bytesAt]

theorem field_congr {off n : Nat} (hb : ∀ k, k < off + n → buf k = buf' k) :
    field buf off n = field buf' off n := by
  induction n with
  | zero => rfl
  | succ n ih =>
    rw [field, field, ih fun k hk ↦ hb k (by omega), hb (off + n) (by omega)]

/-- The fields of a section header that the loader uses. -/
theorem shdr_congr (hb : ∀ k, k < 64 → buf k = buf' k) :
    shName buf = shName buf' ∧ shdrOf buf = shdrOf buf' := by
  have hfield (off n : Nat) (hle : off + n ≤ 64) : field buf off n = field buf' off n :=
    field_congr fun k hk ↦ hb k (by omega)
  simp only [shName, shdrOf, shAddr, shOffset, shSize, hfield 0 4 (by decide),
    hfield 16 8 (by decide), hfield 24 8 (by decide), hfield 32 8 (by decide), and_self]

/-- The fields of the file header. -/
theorem ehdr_congr (hb : ∀ k, k < 64 → buf k = buf' k) :
    isElf buf = isElf buf' ∧ isClass64 buf = isClass64 buf' ∧ eShoff buf = eShoff buf' ∧
      eShnum buf = eShnum buf' ∧ eShstrndx buf = eShstrndx buf' := by
  have hfield (off n : Nat) (hle : off + n ≤ 64) : field buf off n = field buf' off n :=
    field_congr fun k hk ↦ hb k (by omega)
  simp only [isElf, isClass64, eShoff, eShnum, eShstrndx, hb 0 (by decide), hb 1 (by decide),
    hb 2 (by decide), hb 3 (by decide), hb 4 (by decide), hfield 40 8 (by decide),
    hfield 60 2 (by decide), hfield 62 2 (by decide), and_self]

theorem ehdrRead_eq (hlen : 64 ≤ data.length) {k : Nat} (hk : k < 64) :
    ehdrRead s data k = bytesAt data 0 k :=
  readInto_complete (f := ⟨data, 0⟩) (by simpa using hlen) hk

/-! ## What the search finds -/

/-- The name offset of the header `j` places behind the position of a file. -/
def nameAt (f : File) (j : Nat) : Nat := shName (bytesAt f.data (f.pos + j * 64))

theorem skip_complete (hin : f.pos + 64 ≤ f.data.length) :
    f.skip 64 = { f with pos := f.pos + 64 } := by
  rw [File.skip, File.avail, Nat.min_eq_left (by omega)]

/-- One turn, at a header that is in the file. -/
theorem search_succ (n : Nat) (hin : f.pos + 64 ≤ f.data.length) :
    search strTab (n + 1) f tmp =
      if isText strTab (nameAt f 0) then (some 0, strcmpReads strTab textName (nameAt f 0))
      else
        let r := search strTab n { f with pos := f.pos + 64 } (f.readInto 64 tmp)
        (r.1.map (· + 1), strcmpReads strTab textName (nameAt f 0) ++ r.2) := by
  have hread : ∀ k, k < 64 → f.readInto 64 tmp k = bytesAt f.data f.pos k :=
    fun k hk ↦ readInto_complete hin hk
  have hname := (shdr_congr hread).1
  rw [search, skip_complete hin]
  simp only [hname, nameAt, Nat.zero_mul, Nat.add_zero]

theorem findText_succ (n : Nat) (hin : f.pos + 64 ≤ f.data.length) :
    findText strTab (n + 1) f tmp =
      if isText strTab (nameAt f 0) then some (shdrOf (bytesAt f.data f.pos))
      else findText strTab n { f with pos := f.pos + 64 } (f.readInto 64 tmp) := by
  have hread : ∀ k, k < 64 → f.readInto 64 tmp k = bytesAt f.data f.pos k :=
    fun k hk ↦ readInto_complete hin hk
  obtain ⟨hname, hshdr⟩ := shdr_congr hread
  rw [findText, skip_complete hin]
  simp only [hname, hshdr, nameAt, Nat.zero_mul, Nat.add_zero]

/-- **The search, up to a header that is in the file.**  It stops there exactly if the names before
are different and this one is not. -/
theorem search_fst_iff {i : Nat} : ∀ {n : Nat} {f : File} {tmp : Nat → Byte}, i < n →
    f.pos + i * 64 + 64 ≤ f.data.length → ((search strTab n f tmp).1 = some i ↔
      ∀ j, j ≤ i → (isText strTab (nameAt f j) = true ↔ j = i)) := by
  induction i with
  | zero =>
    intro n f tmp hi hin
    obtain ⟨n, rfl⟩ : ∃ k, n = k + 1 := ⟨n - 1, by omega⟩
    rw [search_succ n (by omega)]
    by_cases ht : isText strTab (nameAt f 0) = true
    · simp [ht]
    · simp [ht]
  | succ i ih =>
    intro n f tmp hi hin
    obtain ⟨n, rfl⟩ : ∃ k, n = k + 1 := ⟨n - 1, by omega⟩
    have hshift (j : Nat) : nameAt { f with pos := f.pos + 64 } j = nameAt f (j + 1) := by
      rw [nameAt, nameAt, Nat.succ_mul, Nat.add_assoc, Nat.add_comm 64]
    rw [search_succ n (by omega)]
    by_cases ht : isText strTab (nameAt f 0) = true
    · rw [if_pos ht]
      exact iff_of_false (by simp) fun hall ↦ absurd ((hall 0 (Nat.zero_le _)).1 ht) (by omega)
    · rw [if_neg ht]
      simp only [Option.map_eq_some_iff, Nat.add_right_cancel_iff, exists_eq_right]
      rw [ih (f := { f with pos := f.pos + 64 }) (by omega) (by simp only; omega)]
      simp only [hshift]
      constructor
      · intro hall j hj
        rcases j with _ | j
        · exact iff_of_false ht (by omega)
        · rw [hall j (by omega)]
          omega
      · intro hall j hj
        rw [hall (j + 1) (by omega)]
        omega

/-- What it has found then, and what it has read of the table. -/
theorem search_found {i : Nat} : ∀ {n : Nat} {f : File} {tmp : Nat → Byte},
    f.pos + i * 64 + 64 ≤ f.data.length → (search strTab n f tmp).1 = some i →
      findText strTab n f tmp = some (shdrOf (bytesAt f.data (f.pos + i * 64))) ∧
      ∀ p, p ∈ (search strTab n f tmp).2 ↔
        ∃ j, j ≤ i ∧ p ∈ strcmpReads strTab textName (nameAt f j) := by
  induction i with
  | zero =>
    intro n f tmp hin hs
    obtain _ | n := n
    · cases hs
    rw [search_succ n (by omega)] at hs ⊢
    rw [findText_succ n (by omega)]
    split at hs
    · rename_i ht
      simp [ht]
    · simp at hs
  | succ i ih =>
    intro n f tmp hin hs
    obtain _ | n := n
    · cases hs
    have hshift (j : Nat) : nameAt { f with pos := f.pos + 64 } j = nameAt f (j + 1) := by
      rw [nameAt, nameAt, Nat.succ_mul, Nat.add_assoc, Nat.add_comm 64]
    rw [search_succ n (by omega)] at hs ⊢
    rw [findText_succ n (by omega)]
    split at hs
    · simp at hs
    · rename_i ht
      simp only [Option.map_eq_some_iff, Nat.add_right_cancel_iff, exists_eq_right] at hs
      obtain ⟨hfound, hreads⟩ := ih (f := { f with pos := f.pos + 64 }) (by simp only; omega) hs
      simp only [hshift] at hreads
      rw [if_neg ht, if_neg ht, hfound]
      refine ⟨by rw [Nat.succ_mul, Nat.add_assoc, Nat.add_comm 64], fun p ↦ ?_⟩
      rw [List.mem_append, hreads]
      constructor
      · rintro (hp | ⟨j, hj, hp⟩)
        · exact ⟨0, Nat.zero_le _, hp⟩
        · exact ⟨j + 1, by omega, hp⟩
      · rintro ⟨_ | j, hj, hp⟩
        · exact .inl hp
        · exact .inr ⟨j, by omega, hp⟩

/-! ## `load` -/

theorem seek_data (f : File) (off : Int) : (f.seek off).data = f.data := by
  rw [File.seek]
  split <;> rfl

theorem skip_data (f : File) (n : Nat) : (f.skip n).data = f.data := rfl

theorem atStrTab_data (ehdr : Nat → Byte) : (atStrTab data ehdr).data = data := by
  rw [atStrTab, seek_data, skip_data, atStrShdr, seek_data, skip_data]

/-- An offset that is in a file is not negative as a `long`. -/
theorem toInt_offset {n : Nat} (hn : n < 2 ^ 63) : (BitVec.ofNat 64 n).toInt = n := by
  have hmod : n % 2 ^ 64 = n := Nat.mod_eq_of_lt (by omega)
  rw [BitVec.toInt_eq_toNat_of_lt (by rw [BitVec.toNat_ofNat, hmod]; omega), BitVec.toNat_ofNat,
    hmod]

/-- The headers are looked for where they are. -/
theorem atHeaders_eq (hsize : data.length < 2 ^ 63) (hlen : 64 ≤ data.length) {i : Nat}
    (hin : InFile data i) :
    atHeaders data (ehdrRead s data) = ⟨data, eShoff (bytesAt data 0)⟩ := by
  have hoff : eShoff (ehdrRead s data) = eShoff (bytesAt data 0) :=
    (ehdr_congr fun k hk ↦ ehdrRead_eq hlen hk).2.2.1
  have hlt : eShoff (bytesAt data 0) < 2 ^ 63 := by
    rw [InFile, sectionOffset] at hin
    omega
  rw [atHeaders, hoff, toInt_offset hlt, File.seek, if_pos (Int.natCast_nonneg _),
    Int.toNat_natCast, skip_data, atStrTab_data]

/-- What is left of `load` once there is a file to look at. -/
theorem load_eq (hst : s.state = .nonload) (harg : arg.isEmpty = false)
    (hfile : h.files arg = some data) : load h arg s =
      let s := { s with elf := { s.elf with ehdr := ehdrRead s data } }
      if isElf s.elf.ehdr then
        if isClass64 s.elf.ehdr then
          match textSection h ((⟨data, 0⟩ : File).skip 64) s.elf.ehdr with
          | .error e => .error e
          | .ok text =>
            let s := { s with elf := { s.elf with textShdr := text.getD s.elf.textShdr } }
            let s := s.print (.programLoaded arg (eEntry s.elf.ehdr))
            .ok { s with filePath := arg, state := .loaded }
        else .ok (s.print .not64)
      else .ok (s.print .notElf) := by
  rw [load, if_neg (by simp [hst]), if_neg (by simp [harg]), hfile]
  rfl

/-- What `load` does with a file whose header is not that of a 64-bit ELF. -/
theorem load_refused (hst : s.state = .nonload) (harg : arg.isEmpty = false)
    (hfile : h.files arg = some data)
    (hno : ¬ (isElf (ehdrRead s data) = true ∧ isClass64 (ehdrRead s data) = true)) :
    ∃ s', load h arg s = .ok s' ∧ s'.state = s.state ∧ s'.filePath = s.filePath := by
  rw [load_eq hst harg hfile]
  by_cases helf : isElf (ehdrRead s data) = true
  · simp only [helf, if_true, if_neg fun hc ↦ hno ⟨helf, hc⟩]
    exact ⟨_, rfl, rfl, rfl⟩
  · simp only [if_neg helf]
    exact ⟨_, rfl, rfl, rfl⟩

/-- With one it is loaded, as far as the string table can be allocated. -/
theorem load_identified (hst : s.state = .nonload) (harg : arg.isEmpty = false)
    (hfile : h.files arg = some data) (helf : isElf (ehdrRead s data) = true)
    (hclass : isClass64 (ehdrRead s data) = true) (hs : load h arg s = .ok s') :
    s'.state = .loaded ∧ s'.filePath = arg ∧ ∃ text,
      textSection h ((⟨data, 0⟩ : File).skip 64) (ehdrRead s data) = .ok text ∧
        s'.elf.textShdr = text.getD s.elf.textShdr := by
  rw [load_eq hst harg hfile] at hs
  simp only [helf, hclass, if_true] at hs
  split at hs
  · cases hs
  · rename_i text htext
    cases hs
    exact ⟨rfl, rfl, text, htext, rfl⟩

/-- If the section passes end, so does `load`. -/
theorem load_ok {text : Option Shdr} (hst : s.state = .nonload) (harg : arg.isEmpty = false)
    (hfile : h.files arg = some data) (helf : isElf (ehdrRead s data) = true)
    (hclass : isClass64 (ehdrRead s data) = true)
    (htext : textSection h ((⟨data, 0⟩ : File).skip 64) (ehdrRead s data) = .ok text) :
    ∃ s', load h arg s = .ok s' := by
  rw [load_eq hst harg hfile]
  simp only [helf, hclass, htext, if_true]
  exact ⟨_, rfl⟩

/-! ## The claim -/

theorem FirstText.ehdr {i : Nat} (hi : FirstText data i) :
    isElf (ehdrRead s data) = true ∧ isClass64 (ehdrRead s data) = true ∧
      eShnum (ehdrRead s data) = eShnum (bytesAt data 0) := by
  obtain ⟨hlen, helf, hclass⟩ := hi.1
  obtain ⟨helf', hclass', -, hnum, -⟩ := ehdr_congr fun k hk ↦ ehdrRead_eq (s := s) hlen hk
  exact ⟨helf'.trans helf, hclass'.trans hclass, hnum⟩

/-- The search stops at the text section exactly if its name and no name before it is read as
`.text`. -/
theorem FirstText.search_iff {i : Nat} (hi : FirstText data i) (hsize : data.length < 2 ^ 63) :
    (searchOf h s data).1 = some i ↔ ∀ j, j ≤ i →
      (isText (strTabRead h data (ehdrRead s data)) (shName (sectionHeader data j)) = true ↔
        j = i) := by
  have hin : InFile data i := hi.2.1.2.1
  rw [searchOf, hi.ehdr.2.2, atHeaders_eq hsize hi.1.1 hin]
  exact search_fst_iff hi.2.1.1 hin

/-- What `load` has found where the search stops at the text section, and what it has read. -/
theorem FirstText.found {i : Nat} (hi : FirstText data i) (hsize : data.length < 2 ^ 63)
    (hs : (searchOf h s data).1 = some i) :
    findText (strTabRead h data (ehdrRead s data)) (eShnum (ehdrRead s data))
        (atHeaders data (ehdrRead s data)) h.stack = some (shdrOf (sectionHeader data i)) ∧
      ∀ p, p ∈ (searchOf h s data).2 ↔ ∃ j, j ≤ i ∧ p ∈ strcmpReads
        (strTabRead h data (ehdrRead s data)) textName (shName (sectionHeader data j)) := by
  have hin : InFile data i := hi.2.1.2.1
  rw [searchOf] at hs ⊢
  rw [atHeaders_eq hsize hi.1.1 hin] at hs ⊢
  exact search_found hin hs

theorem identified_iff : Identified s data ↔
    isElf (ehdrRead s data) = true ∧ isClass64 (ehdrRead s data) = true := by
  have hbyte : ∀ k, k < 64 → identBytes s data k = ehdrRead s data k := fun k hk ↦ by
    simp only [identBytes, ehdrRead, File.readInto, File.avail, Nat.zero_add, Nat.sub_zero]
    by_cases hlt : k < data.length
    · rw [if_pos (by omega), List.getElem?_eq_getElem hlt, Option.getD_some,
        List.getD_eq_getElem?_getD, List.getElem?_eq_getElem hlt, Option.getD_some]
    · rw [if_neg (by omega), List.getElem?_eq_none (by omega), Option.getD_none]
  obtain ⟨helf, hclass, -⟩ := ehdr_congr hbyte
  rw [Identified, helf, hclass]

/-- A read into a buffer of zeros. -/
theorem readInto_zero {k : Nat} (hk : k < 64) :
    f.readInto 64 (fun _ ↦ 0) k = bytesAt f.data f.pos k := by
  rw [File.readInto, bytesAt]
  split
  · rfl
  · rename_i hout
    rw [File.avail] at hout
    rw [List.getD_eq_getElem?_getD, List.getElem?_eq_none (by omega), Option.getD_none]

/-- A seek through an `int`, from the end of the file header. -/
theorem seek_narrowed (off : Nat) :
    (⟨data, 64⟩ : File).seek (BitVec.ofNat 32 off).toInt = ⟨data, narrowed off⟩ := by
  rw [File.seek, narrowed]
  split
  · rfl
  · rfl

/-- The header that `load` takes for that of the string table, and the table it reads. -/
theorem FirstText.seen {i : Nat} (hi : FirstText data i) :
    strSize data (ehdrRead s data) = (shSize (seenHeader data)).toNat ∧
      (List.range (strSize data (ehdrRead s data))).map (strTabRead h data (ehdrRead s data))
        = seenTable h data := by
  have hlen := hi.1.1
  obtain ⟨-, -, hoff, -, hndx⟩ := ehdr_congr fun k hk ↦ ehdrRead_eq (s := s) hlen hk
  have hpos : atStrShdr data (ehdrRead s data) = ⟨data, narrowed (strOffset data)⟩ := by
    rw [atStrShdr, hoff, hndx, skip_complete (by simpa using hlen)]
    exact seek_narrowed (strOffset data)
  have hbytes : ∀ k, k < 64 → strShdrRead data (ehdrRead s data) k = seenHeader data k :=
    fun k hk ↦ by
      rw [strShdrRead, hpos, readInto_zero hk, seenHeader]
  have hshdr : shdrOf (strShdrRead data (ehdrRead s data)) = shdrOf (seenHeader data) :=
    (shdr_congr hbytes).2
  rw [shdrOf, shdrOf, Shdr.mk.injEq] at hshdr
  obtain ⟨-, hoffset, hshsize⟩ := hshdr
  have hsize : strSize data (ehdrRead s data) = (shSize (seenHeader data)).toNat := by
    rw [strSize, hshsize]
  have hstart : atStrTab data (ehdrRead s data) = ⟨data, seenStart data⟩ := by
    rw [atStrTab, hpos, hoffset, File.seek, seenStart]
    split
    · rfl
    · rfl
  refine ⟨hsize, ?_⟩
  rw [seenTable, hsize, List.map_inj_left]
  intro p hp
  rw [strTabRead, hstart, hsize, File.readInto, File.avail]
  have hp := List.mem_range.1 hp
  by_cases hlt : seenStart data + p < data.length
  · rw [if_pos (by simp only; omega), List.getElem?_eq_getElem hlt, List.getD_eq_getElem?_getD,
      List.getElem?_eq_getElem hlt, Option.getD_some, Option.getD_some]
  · rw [if_neg (by simp only; omega), List.getElem?_eq_none (by omega), Option.getD_none]

/-- In a regular file that is the string table. -/
theorem Regular.seen (hreg : Regular data) (hsize : data.length < 2 ^ 63) :
    seenHeader data = strHeader data ∧ seenTable h data = nameTable data := by
  have hnarrow : narrowed (strOffset data) = strOffset data := by
    have hint : (BitVec.ofNat 32 (strOffset data)).toInt = strOffset data := by
      have hmod : strOffset data % 2 ^ 32 = strOffset data :=
        Nat.mod_eq_of_lt (by have := hreg.1; omega)
      rw [BitVec.toInt_eq_toNat_of_lt, BitVec.toNat_ofNat, hmod]
      rw [BitVec.toNat_ofNat, hmod]
      have := hreg.1
      omega
    rw [narrowed, hint, if_pos (Int.natCast_nonneg _), Int.toNat_natCast]
  have hshdr : seenHeader data = strHeader data := by rw [seenHeader, hnarrow, strHeader]
  have hstart : seenStart data = (shOffset (strHeader data)).toNat := by
    have hlt : (shOffset (strHeader data)).toNat < 2 ^ 63 := by
      have := hreg.2
      omega
    have hint : (shOffset (strHeader data)).toInt = (shOffset (strHeader data)).toNat :=
      BitVec.toInt_eq_toNat_of_lt (by omega)
    rw [seenStart, hshdr, hint, if_pos (Int.natCast_nonneg _), Int.toNat_natCast]
  refine ⟨hshdr, List.ext_getElem? fun p ↦ ?_⟩
  have hnames : nameTable data = (data.drop (shOffset (strHeader data)).toNat).take
      (shSize (strHeader data)).toNat := rfl
  rw [seenTable, hshdr, hstart, hnames, List.getElem?_map]
  have hin := hreg.2
  by_cases hp : p < (shSize (strHeader data)).toNat
  · rw [List.getElem?_range hp, Option.map_some, List.getElem?_eq_getElem (by omega),
      Option.getD_some]
    rw [List.getElem?_take_of_lt hp, List.getElem?_drop]
    exact (List.getElem?_eq_getElem _).symm
  · rw [List.getElem?_eq_none (by simpa using hp), Option.map_none,
      List.getElem?_take_eq_none (by omega)]

/-- **Which files can be used**, in terms of what `load` reads. -/
theorem FirstText.usable_iff {i : Nat} (hi : FirstText data i) (hsize : data.length < 2 ^ 63) :
    Usable h data i ↔ h.malloc (strSize data (ehdrRead s data)) = true ∧
      NamesRead (strTabRead h data (ehdrRead s data)) (strSize data (ehdrRead s data)) data i := by
  obtain ⟨hstr, htable⟩ := hi.seen (h := h) (s := s)
  rw [namesRead_iff, htable, hstr, Usable]
  by_cases hreg : Regular data
  · obtain ⟨hshdr, hnames⟩ := hreg.seen (h := h) hsize
    simp only [hreg, not_true, true_and, false_and, or_false]
    rw [hshdr, hnames]
    refine and_congr_right fun _ ↦ ⟨fun hend ↦ ⟨hi.2.1.2.2.2, fun j hj ↦ ⟨fun hp ↦ ?_, hend j hj⟩⟩,
      fun hf j hj ↦ (hf.2 j hj).2⟩
    -- a name in front is another one
    obtain ⟨hlt, hin, hstr, -⟩ := hi.2.1
    refine hi.2.2 j hj ⟨by omega, ?_, hstr, hp⟩
    rw [InFile, sectionOffset] at hin ⊢
    omega
  · simp only [hreg, not_false_iff, true_and, false_and, false_or]

/-- **The loader.**  It does what it should exactly if the file does not begin like a 64-bit ELF, or
has a text section and can be used. -/
theorem loads_iff (hst : s.state = .nonload) (harg : arg.isEmpty = false)
    (hfile : h.files arg = some data) (hsize : data.length < 2 ^ 63) :
    LoadsRight h s arg data ↔
      (Identified s data → ∃ i, FirstText data i ∧ Usable h data i) := by
  rw [identified_iff]
  constructor
  · rintro hr ⟨helf, hclass⟩
    by_cases hex : ∃ i, FirstText data i
    · obtain ⟨i, hi⟩ := hex
      obtain ⟨s', hload, -, -, -, hsearch, hreads⟩ := hr.accepts i hi
      obtain ⟨-, -, text, htext, -⟩ := load_identified hst harg hfile helf hclass hload
      have hnum : eShnum (ehdrRead s data) ≠ 0 := by
        have hlt := hi.2.1.1
        rw [← (hi.ehdr (s := s)).2.2] at hlt
        omega
      have hmalloc : h.malloc (strSize data (ehdrRead s data)) = true := by
        by_contra hm
        rw [textSection_eq, if_neg hm, if_neg fun hc ↦ hnum hc.2] at htext
        cases htext
      refine ⟨i, hi, (hi.usable_iff hsize).2 ⟨hmalloc, fun j hj ↦ ⟨fun p hp ↦ ?_,
        (hi.search_iff hsize).1 hsearch j hj⟩⟩⟩
      exact hreads p (((hi.found hsize hsearch).2 p).2 ⟨j, hj, hp⟩)
    · -- without a text section the program is loaded all the same
      obtain ⟨s', hload, hstate, -⟩ := hr.refuses fun i hi ↦ hex ⟨i, hi⟩
      have hloaded := (load_identified hst harg hfile helf hclass hload).1
      rw [hstate, hst] at hloaded
      cases hloaded
  · intro hu
    refine ⟨fun i hi ↦ ?_, fun hno ↦ ?_⟩
    · obtain ⟨helf, hclass, -⟩ := hi.ehdr (s := s)
      obtain ⟨i', hi', huse⟩ := hu ⟨helf, hclass⟩
      obtain rfl : i' = i := hi'.unique hi
      obtain ⟨hmalloc, hnames⟩ := (hi.usable_iff (s := s) hsize).1 huse
      have hsearch : (searchOf h s data).1 = some i' :=
        (hi.search_iff hsize).2 fun j hj ↦ (hnames j hj).2
      obtain ⟨hfind, hreads⟩ := hi.found hsize hsearch
      have htext : textSection h ((⟨data, 0⟩ : File).skip 64) (ehdrRead s data) =
          .ok (some (shdrOf (sectionHeader data i'))) := by
        rw [textSection_eq, if_pos hmalloc, hfind]
      obtain ⟨s', hload⟩ := load_ok hst harg hfile helf hclass htext
      obtain ⟨hloaded, hpath, text, htext', hshdr⟩ :=
        load_identified hst harg hfile helf hclass hload
      obtain rfl : some (shdrOf (sectionHeader data i')) = text := by
        rw [htext] at htext'
        exact Except.ok.inj htext'
      refine ⟨s', hload, hloaded, hpath, hshdr, hsearch, fun p hp ↦ ?_⟩
      obtain ⟨j, hj, hp⟩ := (hreads p).1 hp
      exact (hnames j hj).1 p hp
    · refine load_refused hst harg hfile fun hid ↦ ?_
      obtain ⟨i, hi, -⟩ := hu hid
      exact hno i hi

/-- A program of one instruction is loaded. -/
theorem loads_iff_nop : LoadsRight (Tiny.host [0x90]) init "a.out" (Tiny.elfFile [0x90]) := by
  have htext : FirstText (Tiny.elfFile [0x90]) 1 := by decide +kernel
  have huse : Usable (Tiny.host [0x90]) (Tiny.elfFile [0x90]) 1 := by
    have hreg : Regular (Tiny.elfFile [0x90]) := by decide +kernel
    have hends : ∀ j, j < 1 →
        ¬ nameIn (nameTable (Tiny.elfFile [0x90])) (Tiny.elfFile [0x90]) j <+: textName := by
      decide +kernel
    exact .inl ⟨hreg, by decide +kernel, hends⟩
  have hfile : (Tiny.host [0x90]).files "a.out" = some (Tiny.elfFile [0x90]) := rfl
  have hlen : (Tiny.elfFile [0x90]).length < 2 ^ 63 := by decide +kernel
  exact (loads_iff rfl rfl hfile hlen).2 fun _ ↦ ⟨1, htext, huse⟩

/-- A file header without sections. -/
def bareHeader : List Byte := [0x7f, 0x45, 0x4c, 0x46, 0x02] ++ List.replicate 59 0x00

/-- **A file that cannot be used.**  It has no section at all, and it is loaded. -/
theorem loads_fails : ∃ s' : Sdb Nat,
    load { Tiny.host [] with files := fun _ ↦ some bareHeader } "a.out" init = .ok s' ∧
      s'.state = .loaded ∧ s'.filePath = "a.out" ∧ ¬ LoadsRight
        { Tiny.host [] with files := fun _ ↦ some bareHeader } init "a.out" bareHeader := by
  have hrun : (load { Tiny.host [] with files := fun _ ↦ some bareHeader } "a.out"
      init).toOption.any (fun s' ↦ s'.state = .loaded ∧ s'.filePath = "a.out") = true := by
    decide +kernel
  have hnone : eShnum (bytesAt bareHeader 0) = 0 := by decide +kernel
  rcases hload : load { Tiny.host [] with files := fun _ ↦ some bareHeader } "a.out" init with
    e | s'
  · rw [hload] at hrun
    cases hrun
  rw [hload] at hrun
  obtain ⟨hloaded, hpath⟩ : s'.state = .loaded ∧ s'.filePath = "a.out" := of_decide_eq_true hrun
  refine ⟨s', rfl, hloaded, hpath, fun hr ↦ ?_⟩
  obtain ⟨s'', hload', hstate, -⟩ := hr.refuses fun i hi ↦ by
    have hlt := hi.2.1.1
    omega
  obtain rfl : s' = s'' := Except.ok.inj (hload.symm.trans hload')
  rw [hstate] at hloaded
  cases hloaded

end Sdb
