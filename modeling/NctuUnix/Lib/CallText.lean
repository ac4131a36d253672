import Mathlib.Data.List.TakeWhile
import NctuUnix.Lib.Input

/-!
# Calls as lines of text

A call is written as the name of the function, its arguments in parentheses, and its result:
`rename("a", "b") = 0`.  An argument is a text in quotation marks, which are not escaped, or a word.

## Main results

* `readRecord_text` — a call is read back, and what follows it is left.
* `readLog_texts` — so are calls one behind the other.
* `readLog_iff` — when they are.
-/

set_option autoImplicit false

namespace CallText

open Input

/-- An argument. -/
inductive Field
  | quoted (t : Text)
  | bare (t : Text)
  deriving DecidableEq, Repr

/-- A call. -/
structure Record where
  head : Text
  fields : List Field
  ret : Text
  deriving DecidableEq, Repr

/-! ## Writing -/

def Field.text : Field → Text
  | .quoted t => '"' :: t ++ ['"']
  | .bare t => t

/-- The arguments, with what stands between them, and the closing parenthesis. -/
def fieldsText : List Field → Text
  | [] => [')']
  | [f] => f.text ++ [')']
  | f :: g :: fs => f.text ++ ',' :: ' ' :: fieldsText (g :: fs)

def Record.text (r : Record) : Text :=
  r.head ++ '(' :: fieldsText r.fields ++ " = ".toList ++ r.ret ++ ['\n']

/-! ## Reading -/

/-- The end of a word. -/
def ends (c : Char) : Bool := c = ',' || c = ')'

/-- A text up to its closing quotation mark, and what follows. -/
def readQuoted (t : Text) : Option (Field × Text) :=
  match t.dropWhile (· != '"') with
  | [] => none
  | _ :: rest => some (.quoted (t.takeWhile (· != '"')), rest)

/-- An argument, and what follows it. -/
def readField (t : Text) : Option (Field × Text) :=
  if t.head? = some '"' then readQuoted t.tail
  else some (.bare (t.takeWhile fun c ↦ !ends c), t.dropWhile fun c ↦ !ends c)

/-- At most so many arguments, up to the closing parenthesis. -/
def readFields : ℕ → Text → Option (List Field × Text)
  | 0, _ => none
  | n + 1, t =>
    (readField t).bind fun r ↦
      match r.2 with
      | ')' :: rest => some ([r.1], rest)
      | ',' :: ' ' :: rest => (readFields n rest).map fun rs ↦ (r.1 :: rs.1, rs.2)
      | _ => none

/-- The arguments, if there are any. -/
def readArgs (t : Text) : Option (List Field × Text) :=
  if t.head? = some ')' then some ([], t.tail) else readFields t.length t

/-- A call, and what follows it. -/
def readRecord (t : Text) : Option (Record × Text) :=
  match t.dropWhile (· != '(') with
  | [] => none
  | _ :: args =>
    (readArgs args).bind fun r ↦
      match r.2 with
      | ' ' :: '=' :: ' ' :: t' =>
        match t'.dropWhile (· != '\n') with
        | [] => none
        | _ :: rest => some (⟨t.takeWhile (· != '('), r.1, t'.takeWhile (· != '\n')⟩, rest)
      | _ => none

/-- At most so many calls. -/
def readRecords : ℕ → Text → Option (List Record)
  | _, [] => some []
  | 0, _ => none
  | n + 1, t => (readRecord t).bind fun r ↦ (readRecords n r.2).map (r.1 :: ·)

/-- All the calls. -/
def readLog (t : Text) : Option (List Record) := readRecords t.length t

/-! ## What can be read back -/

/-- A text has no quotation mark, and a word is one. -/
def Field.Plain : Field → Prop
  | .quoted t => '"' ∉ t
  | .bare t => t ≠ [] ∧ '"' ∉ t ∧ ',' ∉ t ∧ ')' ∉ t

structure Record.Plain (r : Record) : Prop where
  head : '(' ∉ r.head
  fields : ∀ f ∈ r.fields, f.Plain
  ret : '\n' ∉ r.ret

variable {f : Field} {fs : List Field} {r : Record} {rest t : Text} {c : Char}

theorem takeWhile_of_notMem (h : c ∉ t) : (t ++ c :: rest).takeWhile (· != c) = t := by
  rw [List.takeWhile_append_of_pos fun x hx ↦ by simpa using fun he : x = c ↦ h (he ▸ hx)]
  simp

theorem dropWhile_of_notMem (h : c ∉ t) : (t ++ c :: rest).dropWhile (· != c) = c :: rest := by
  rw [List.dropWhile_append_of_pos fun x hx ↦ by simpa using fun he : x = c ↦ h (he ▸ hx)]
  simp

theorem readField_text (hf : f.Plain) (hc : ends c = true) :
    readField (f.text ++ c :: rest) = some (f, c :: rest) := by
  cases f with
  | quoted t =>
    have htext : Field.text (.quoted t) ++ c :: rest = '"' :: (t ++ '"' :: c :: rest) := by
      simp [Field.text]
    rw [htext, readField, List.head?_cons, if_pos rfl, List.tail_cons, readQuoted,
      dropWhile_of_notMem hf]
    simp only [takeWhile_of_notMem hf]
  | bare t =>
    obtain ⟨hne, hquote, hcomma, hparen⟩ := hf
    have hword : ∀ x ∈ t, (!ends x) = true := fun x hx ↦ by
      have hx₁ : x ≠ ',' := fun h ↦ hcomma (h ▸ hx)
      have hx₂ : x ≠ ')' := fun h ↦ hparen (h ▸ hx)
      simp [ends, hx₁, hx₂]
    have hhead : (t ++ c :: rest).head? ≠ some '"' := by
      obtain ⟨x, t, rfl⟩ := List.exists_cons_of_ne_nil hne
      exact fun h ↦ hquote (Option.some.inj h ▸ List.mem_cons_self)
    rw [Field.text, readField, if_neg hhead, List.takeWhile_append_of_pos hword,
      List.dropWhile_append_of_pos hword]
    simp [hc]

theorem head?_fieldText (hf : f.Plain) : (f.text ++ rest).head? ≠ some ')' := by
  cases f with
  | quoted t => exact fun h ↦ absurd (Option.some.inj h) (by decide)
  | bare t =>
    obtain ⟨hne, -, -, hparen⟩ := hf
    obtain ⟨x, t, rfl⟩ := List.exists_cons_of_ne_nil hne
    exact fun h ↦ hparen (Option.some.inj h ▸ List.mem_cons_self)

/-- Arguments, as long as there are some to read. -/
theorem readFields_text (n : ℕ) (hf : f.Plain) (hfs : ∀ g ∈ fs, g.Plain) (hn : fs.length ≤ n) :
    readFields (n + 1) (fieldsText (f :: fs) ++ rest) = some (f :: fs, rest) := by
  induction fs generalizing f n with
  | nil =>
    rw [fieldsText, List.append_assoc, List.singleton_append, readFields,
      readField_text hf (by decide), Option.bind_some]
    rfl
  | cons g fs ih =>
    rw [List.length_cons] at hn
    obtain ⟨n, rfl⟩ := Nat.exists_eq_add_of_le' (Nat.le_trans (Nat.le_add_left 1 _) hn)
    rw [fieldsText, List.append_assoc, List.cons_append, List.cons_append, readFields,
      readField_text hf (by decide), Option.bind_some]
    simp only
    rw [ih n (hfs g List.mem_cons_self) (fun g' hg' ↦ hfs g' (List.mem_cons_of_mem g hg'))
      (by omega), Option.map_some]

/-- There is a character for each argument. -/
theorem length_fieldsText (fs : List Field) : fs.length ≤ (fieldsText fs).length := by
  induction fs with
  | nil => exact Nat.zero_le _
  | cons f fs ih =>
    cases fs with
    | nil =>
      rw [fieldsText, List.length_append]
      exact Nat.le_add_left _ _
    | cons g fs =>
      rw [fieldsText, List.length_append]
      simp only [List.length_cons] at ih ⊢
      omega

theorem readArgs_text (hfs : ∀ f ∈ fs, f.Plain) :
    readArgs (fieldsText fs ++ rest) = some (fs, rest) := by
  cases fs with
  | nil => rfl
  | cons f fs =>
    have hf := hfs f List.mem_cons_self
    have hhead : (fieldsText (f :: fs) ++ rest).head? ≠ some ')' := by
      cases fs with
      | nil =>
        rw [fieldsText, List.append_assoc]
        exact head?_fieldText hf
      | cons g fs =>
        rw [fieldsText, List.append_assoc]
        exact head?_fieldText hf
    have hlen := length_fieldsText (f :: fs)
    rw [List.length_cons] at hlen
    obtain ⟨n, hn⟩ : ∃ n, (fieldsText (f :: fs) ++ rest).length = n + 1 :=
      Nat.exists_eq_succ_of_ne_zero (by rw [List.length_append]; omega)
    have hle : fs.length ≤ n := by
      rw [List.length_append] at hn
      omega
    rw [readArgs, if_neg hhead, hn,
      readFields_text n hf (fun g hg ↦ hfs g (List.mem_cons_of_mem f hg)) hle]

/-- **A call is read back.** -/
theorem readRecord_text (hr : r.Plain) : readRecord (r.text ++ rest) = some (r, rest) := by
  have htext : r.text ++ rest = r.head ++ '(' :: (fieldsText r.fields ++
      (' ' :: '=' :: ' ' :: (r.ret ++ '\n' :: rest))) := by
    simp [Record.text]
  rw [htext, readRecord, dropWhile_of_notMem hr.head]
  simp only
  rw [readArgs_text hr.fields, Option.bind_some]
  simp only
  rw [dropWhile_of_notMem hr.ret, takeWhile_of_notMem hr.ret, takeWhile_of_notMem hr.head]

theorem text_ne_nil (r : Record) : r.text ≠ [] := by
  simp [Record.text]

theorem readRecords_texts {rs : List Record} (n : ℕ) (hrs : ∀ r ∈ rs, r.Plain)
    (hn : rs.length ≤ n) : readRecords n (rs.flatMap Record.text) = some rs := by
  induction rs generalizing n with
  | nil => cases n <;> rfl
  | cons r rs ih =>
    rw [List.length_cons] at hn
    obtain ⟨n, rfl⟩ := Nat.exists_eq_add_of_le' (Nat.le_trans (Nat.le_add_left 1 _) hn)
    obtain ⟨c, t, hct⟩ := List.exists_cons_of_ne_nil (text_ne_nil r)
    have hstep : readRecords (n + 1) ((r :: rs).flatMap Record.text) =
        (readRecord (r.text ++ rs.flatMap Record.text)).bind fun p ↦
          (readRecords n p.2).map (p.1 :: ·) := by
      rw [List.flatMap_cons, hct]
      rfl
    rw [hstep, readRecord_text (hrs r List.mem_cons_self), Option.bind_some,
      ih n (fun r' hr' ↦ hrs r' (List.mem_cons_of_mem r hr')) (by omega), Option.map_some]

/-- **A log is read back.** -/
theorem readLog_texts {rs : List Record} (hrs : ∀ r ∈ rs, r.Plain) :
    readLog (rs.flatMap Record.text) = some rs := by
  refine readRecords_texts _ hrs ?_
  induction rs with
  | nil => exact Nat.zero_le _
  | cons r rs ih =>
    have hpos := List.length_pos_of_ne_nil (text_ne_nil r)
    have hle := ih fun r' hr' ↦ hrs r' (List.mem_cons_of_mem r hr')
    rw [List.flatMap_cons, List.length_append, List.length_cons]
    omega

/-! ## What is read -/

/-- Text in quotation marks has none. -/
def Field.Quiet : Field → Prop
  | .quoted t => '"' ∉ t
  | .bare _ => True

instance : DecidablePred Field.Quiet
  | .quoted t => inferInstanceAs (Decidable ('"' ∉ t))
  | .bare _ => .isTrue trivial

/-- What is plain if it is quiet. -/
def Field.Safe (f : Field) : Prop := f.Quiet → f.Plain

def Record.Safe (r : Record) : Prop := (∀ f ∈ r.fields, f.Quiet) → r.Plain

theorem Field.safe_quoted (t : Text) : (Field.quoted t).Safe := id

theorem Field.Plain.safe (h : f.Plain) : f.Safe := fun _ ↦ h

theorem Record.safe (hhead : '(' ∉ r.head) (hfields : ∀ f ∈ r.fields, f.Safe)
    (hret : '\n' ∉ r.ret) : r.Safe :=
  fun h ↦ ⟨hhead, fun f hf ↦ hfields f hf (h f hf), hret⟩

theorem quiet_of_readField {p : Field × Text} (h : readField t = some p) : p.1.Quiet := by
  rw [readField] at h
  split at h
  · rw [readQuoted] at h
    split at h
    · exact absurd h (by simp)
    · rw [← Option.some.inj h]
      exact fun hm ↦ absurd (List.mem_takeWhile_imp hm) (by simp)
  · rw [← Option.some.inj h]
    trivial

theorem quiet_of_readFields (n : ℕ) : ∀ (t : Text) {p : List Field × Text},
    readFields n t = some p → ∀ f ∈ p.1, f.Quiet := by
  induction n with
  | zero => exact fun t p h ↦ absurd h (by simp [readFields])
  | succ n ih =>
    intro t p h
    rw [readFields, Option.bind_eq_some_iff] at h
    obtain ⟨⟨f, rest⟩, hf, h⟩ := h
    have hquiet : f.Quiet := quiet_of_readField hf
    split at h
    · rw [← Option.some.inj h]
      simpa using hquiet
    · obtain ⟨ps, hps, rfl⟩ := Option.map_eq_some_iff.1 h
      simpa [hquiet] using ih _ hps
    · exact absurd h (by simp)

theorem quiet_of_readArgs {p : List Field × Text} (h : readArgs t = some p) :
    ∀ f ∈ p.1, f.Quiet := by
  rw [readArgs] at h
  split at h
  · rw [← Option.some.inj h]
    simp
  · exact quiet_of_readFields _ _ h

theorem quiet_of_readRecord {p : Record × Text} (h : readRecord t = some p) :
    ∀ f ∈ p.1.fields, f.Quiet := by
  rw [readRecord] at h
  split at h
  · exact absurd h (by simp)
  · obtain ⟨q, hq, h⟩ := Option.bind_eq_some_iff.1 h
    split at h
    · split at h
      · exact absurd h (by simp)
      · rw [← Option.some.inj h]
        exact quiet_of_readArgs hq
    · exact absurd h (by simp)

theorem quiet_of_readRecords (n : ℕ) : ∀ (t : Text) {rs : List Record},
    readRecords n t = some rs → ∀ r ∈ rs, ∀ f ∈ r.fields, f.Quiet := by
  induction n with
  | zero =>
    intro t rs h
    cases t with
    | nil => simp [← Option.some.inj h]
    | cons c t => exact absurd h (by simp [readRecords])
  | succ n ih =>
    intro t rs h
    cases t with
    | nil => simp [← Option.some.inj h]
    | cons c t =>
      rw [readRecords, Option.bind_eq_some_iff] at h
      · obtain ⟨p, hp, h⟩ := h
        obtain ⟨rs, hrs, rfl⟩ := Option.map_eq_some_iff.1 h
        exact List.forall_mem_cons.2 ⟨quiet_of_readRecord hp, ih _ hrs⟩
      · exact List.cons_ne_nil c t

/-- **What is read** has no quotation marks in its texts, so a log is read back if and only if
nothing in quotation marks has one. -/
theorem readLog_iff {rs : List Record} (h : ∀ r ∈ rs, r.Safe) :
    readLog (rs.flatMap Record.text) = some rs ↔ ∀ r ∈ rs, ∀ f ∈ r.fields, f.Quiet :=
  ⟨quiet_of_readRecords _ _, fun hq ↦ readLog_texts fun r hr ↦ h r hr (hq r hr)⟩

end CallText
