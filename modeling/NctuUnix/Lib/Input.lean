import Mathlib.Algebra.Group.Int.Defs
import Mathlib.Algebra.Group.Nat.Defs
import Mathlib.Data.List.Basic

/-!
# Text input

What a program that is driven by a text uses of the C++ library: input streams with `std::getline`,
the words of a line, and the numbers in them.  A text is a list of characters, one for each byte.

`lines` says what the lines of a text are, and `getline_cons` that this is what `getline` delivers,
one after the other.  A stream that is at its end delivers nothing and leaves the string as it is
(`getline_eof`).
-/

set_option autoImplicit false

namespace Input

/-- A text, byte by byte. -/
abbrev Text := List Char

/-! ## Streams -/

/-- An input stream: what has not been read yet, and the flags of its state. -/
structure IStream where
  rest : Text
  eof : Bool
  fail : Bool
  deriving DecidableEq, Repr

/-- A stream that has just been opened. -/
def IStream.open (text : Text) : IStream := ⟨text, false, false⟩

/-- `std::getline(is, line)`: the stream afterwards, and the string.  The result is converted to
`bool` by the caller, who finds `!fail`. -/
def getline (is : IStream) (line : Text) : IStream × Text :=
  if is.eof || is.fail then ({ is with fail := true }, line)
  else
    match is.rest.dropWhile (· != '\n') with
    | _ :: rest => ({ is with rest := rest }, is.rest.takeWhile (· != '\n'))
    | [] => (⟨[], true, is.rest.isEmpty⟩, is.rest)

/-- The lines of a text; the last one need not be terminated. -/
def lines : Text → List Text
  | [] => []
  | c :: cs =>
    if c = '\n' then [] :: lines cs
    else
      match lines cs with
      | [] => [[c]]
      | l :: ls => (c :: l) :: ls

theorem lines_eq_nil {t : Text} : lines t = [] ↔ t = [] := by
  rcases t with _ | ⟨c, cs⟩
  · exact iff_of_true rfl rfl
  · rw [lines]
    split
    · simp
    · split <;> simp

/-- A text without a newline is one line. -/
theorem lines_of_unterminated {t : Text} (ht : t ≠ []) (hn : t.dropWhile (· != '\n') = []) :
    lines t = [t] := by
  induction t with
  | nil => exact absurd rfl ht
  | cons c cs ih =>
    have hc : c ≠ '\n' := by
      rintro rfl
      simp at hn
    rw [List.dropWhile_cons_of_pos (by simpa using hc)] at hn
    rw [lines, if_neg hc]
    by_cases hcs : cs = []
    · rw [hcs, lines]
    · rw [ih hcs hn]

/-- The first line of a text that has a newline. -/
theorem lines_of_terminated {t rest : Text} {c : Char} (hn : t.dropWhile (· != '\n') = c :: rest) :
    lines t = t.takeWhile (· != '\n') :: lines rest := by
  induction t with
  | nil => simp at hn
  | cons d ds ih =>
    rw [lines]
    by_cases hd : d = '\n'
    · subst hd
      rw [List.dropWhile_cons_of_neg (by simp), List.cons.injEq] at hn
      rw [if_pos rfl, List.takeWhile_cons_of_neg (by simp), hn.2]
    · rw [List.dropWhile_cons_of_pos (by simpa using hd)] at hn
      rw [if_neg hd, ih hn, List.takeWhile_cons_of_pos (by simpa using hd)]

/-! ### Reading line by line -/

/-- The lines that are still to come: those of the rest, or none once the end has been met. -/
def IStream.Ahead (is : IStream) (ls : List Text) : Prop :=
  is.eof = false ∧ is.fail = false ∧ lines is.rest = ls ∨ is.eof = true ∧ ls = []

theorem IStream.ahead_open (text : Text) : (IStream.open text).Ahead (lines text) :=
  .inl ⟨rfl, rfl, rfl⟩

variable {is : IStream} {l : Text} {ls : List Text}

/-- At the end of the text the string is not touched. -/
theorem getline_eof (line : Text) (he : is.eof = true) :
    getline is line = ({ is with fail := true }, line) := by
  rw [getline, if_pos (by simp [he])]

/-- **The next line.** -/
theorem getline_cons (line : Text) (ha : is.Ahead (l :: ls)) :
    ∃ is', getline is line = (is', l) ∧ is'.fail = false ∧ is'.Ahead ls := by
  rcases ha with ⟨heof, hfail, hl⟩ | ⟨-, hnil⟩
  · rw [getline, if_neg (by simp [heof, hfail])]
    split
    · rename_i c rest hdrop
      rw [lines_of_terminated hdrop, List.cons.injEq] at hl
      exact ⟨{ is with rest := rest }, by rw [hl.1], hfail, .inl ⟨heof, hfail, hl.2⟩⟩
    · rename_i hdrop
      have hne : is.rest ≠ [] := fun hnil ↦ by simp [hnil, lines] at hl
      rw [lines_of_unterminated hne hdrop, List.cons.injEq] at hl
      exact ⟨_, by rw [hl.1], by simpa [hl.1] using hne, .inr ⟨rfl, hl.2.symm⟩⟩
  · exact absurd hnil (by simp)

/-- Where no line is left the stream fails; the string is erased, unless the end had been met
before. -/
theorem getline_nil (line : Text) (ha : is.Ahead []) :
    ∃ is', is'.eof = true ∧ is'.fail = true ∧
      (getline is line = (is', []) ∨ is.eof = true ∧ getline is line = (is', line)) := by
  rcases ha with ⟨heof, hfail, hl⟩ | ⟨heof, -⟩
  · refine ⟨⟨[], true, true⟩, rfl, rfl, .inl ?_⟩
    rw [getline, if_neg (by simp [heof, hfail]), lines_eq_nil.1 hl]
    rfl
  · exact ⟨{ is with fail := true }, heof, rfl, .inr ⟨heof, getline_eof line heof⟩⟩

/-! ## Words -/

/-- `isspace` in the `C` locale. -/
def isSpace (c : Char) : Bool :=
  c = ' ' || c = '\t' || c = '\n' || c = '\x0b' || c = '\x0c' || c = '\r'

/-- The words of a text, as `>>` reads them into a string; `word` is the one being read. -/
def wordsFrom (word : Text) : Text → List Text
  | [] => if word.isEmpty then [] else [word]
  | c :: cs =>
    if isSpace c then
      if word.isEmpty then wordsFrom [] cs else word :: wordsFrom [] cs
    else wordsFrom (word ++ [c]) cs

/-- The words of a text. -/
def words (t : Text) : List Text := wordsFrom [] t

/-! ## Numbers -/

/-- The value of a digit, in bases up to sixteen. -/
def digit? (c : Char) : Option Nat :=
  if '0' ≤ c ∧ c ≤ '9' then some (c.toNat - '0'.toNat)
  else if 'a' ≤ c ∧ c ≤ 'f' then some (c.toNat - 'a'.toNat + 10)
  else if 'A' ≤ c ∧ c ≤ 'F' then some (c.toNat - 'A'.toNat + 10)
  else none

/-- The digits of `base` a text starts with. -/
def digits (base : Nat) : Text → List Nat
  | [] => []
  | c :: cs =>
    match digit? c with
    | some d => if d < base then d :: digits base cs else []
    | none => []

/-- The number that digits stand for, the first one counting most. -/
def ofDigits (base : Nat) (ds : List Nat) : Nat := ds.foldl (fun n d ↦ n * base + d) 0

/-- The sign of a number, and what follows it. -/
def sign : Text → Bool × Text
  | '-' :: cs => (true, cs)
  | '+' :: cs => (false, cs)
  | cs => (false, cs)

/-- Skips the `0x` in front of hexadecimal digits. -/
def skipHexPrefix (t : Text) : Text :=
  match t with
  | '0' :: x :: cs => if (x = 'x' ∨ x = 'X') ∧ digits 16 cs ≠ [] then cs else t
  | _ => t

/-- `strtoul(t, NULL, 16)`, and `strtoull`. -/
def strtoul16 (t : Text) : BitVec 64 :=
  let (neg, t) := sign (t.dropWhile isSpace)
  let n := ofDigits 16 (digits 16 (skipHexPrefix t))
  if 2 ^ 64 ≤ n then BitVec.allOnes 64
  else if neg then -BitVec.ofNat 64 n
  else BitVec.ofNat 64 n

/-- `strtol(t, NULL, 10)`. -/
def strtol10 (t : Text) : Int :=
  let (neg, t) := sign (t.dropWhile isSpace)
  let n := ofDigits 10 (digits 10 t)
  if neg then max (-(n : Int)) (-2 ^ 63) else min (n : Int) (2 ^ 63 - 1)

/-- `atoi(t)`, the low half of `strtol`. -/
def atoi (t : Text) : Int := (BitVec.ofInt 32 (strtol10 t)).toInt

end Input
