import Mathlib.Logic.Function.Basic
import NctuUnix.Lib.Input

/-!
# Formatted output

What `<<` does to a `std::ostream`.  A stream keeps the base of its numbers, the side on which
things are padded and the character to pad with; the width is for the next thing that is printed and
is forgotten then.  Nothing but a manipulator changes the others back.

`output` is a sequence of `<<` to one stream, `outputs` some of them to several streams.  A stream
is *clean* when it pads with blanks and no width is pending.
-/

set_option autoImplicit false

namespace Output

open Input

/-- The formatting state of a stream. -/
structure Format where
  hex : Bool
  left : Bool
  fill : Char
  width : ℕ
  deriving DecidableEq, Repr

/-- The state a stream starts with. -/
def Format.init : Format := ⟨false, false, ' ', 0⟩

/-- What is put into a stream. -/
inductive Item
  | text (t : Text)
  /-- An `unsigned long`. -/
  | num (n : BitVec 64)
  /-- An `int`. -/
  | int (i : ℤ)
  | hex
  | dec
  | left
  | right
  | setw (n : ℕ)
  | setfill (c : Char)
  deriving DecidableEq, Repr

namespace Format

/-- A text is padded to the width. -/
def pad (f : Format) (t : Text) : Text :=
  if f.left then t ++ List.replicate (f.width - t.length) f.fill
  else List.replicate (f.width - t.length) f.fill ++ t

/-- Pads with blanks, and has no width. -/
structure Clean (f : Format) : Prop where
  fill : f.fill = ' '
  width : f.width = 0

end Format

/-- One `<<`. -/
def Item.put (f : Format) : Item → Format × Text
  | .text t => ({ f with width := 0 }, f.pad t)
  | .num n => ({ f with width := 0 }, f.pad (Nat.toDigits (if f.hex then 16 else 10) n.toNat))
  | .int i => ({ f with width := 0 }, f.pad
      (if f.hex then Nat.toDigits 16 (BitVec.ofInt 32 i).toNat else (toString i).toList))
  | .hex => ({ f with hex := true }, [])
  | .dec => ({ f with hex := false }, [])
  | .left => ({ f with left := true }, [])
  | .right => ({ f with left := false }, [])
  | .setw n => ({ f with width := n }, [])
  | .setfill c => ({ f with fill := c }, [])

/-- One `<<` after the other: the state of the stream, and what has been printed. -/
def output : List Item → Format → Format × Text
  | [], f => (f, [])
  | i :: is, f => ((output is (i.put f).1).1, (i.put f).2 ++ (output is (i.put f).1).2)

variable {f : Format} {is is' : List Item} {t t' : Text}

@[simp] theorem output_nil (f : Format) : output [] f = (f, []) := rfl

@[simp] theorem output_cons (i : Item) (is : List Item) (f : Format) :
    output (i :: is) f =
      ((output is (i.put f).1).1, (i.put f).2 ++ (output is (i.put f).1).2) := rfl

theorem output_append (is is' : List Item) (f : Format) : output (is ++ is') f =
    ((output is' (output is f).1).1, (output is f).2 ++ (output is' (output is f).1).2) := by
  induction is generalizing f with
  | nil => rfl
  | cons i is ih =>
    rw [List.cons_append, output, ih, output]
    simp only [List.append_assoc]

/-- What has been printed so far does not matter for what comes next, but for the state. -/
theorem output_append_of {f' f'' : Format} (h : output is f = (f', t))
    (h' : output is' f' = (f'', t')) : output (is ++ is') f = (f'', t ++ t') := by
  rw [output_append, h, h']

/-- Without a width there is nothing to pad. -/
theorem pad_zero (h : Bool) (l : Bool) (c : Char) (t : Text) :
    (⟨h, l, c, 0⟩ : Format).pad t = t := by
  rw [Format.pad]
  split <;> simp

@[simp] theorem pad_left (h : Bool) (c : Char) (n : ℕ) (t : Text) :
    (⟨h, true, c, n⟩ : Format).pad t = t ++ List.replicate (n - t.length) c := rfl

@[simp] theorem pad_right (h : Bool) (c : Char) (n : ℕ) (t : Text) :
    (⟨h, false, c, n⟩ : Format).pad t = List.replicate (n - t.length) c ++ t := rfl

/-! ## Several streams -/

variable {σ : Type} [DecidableEq σ]

/-- Sequences of `<<` to some streams, in the order in which they are executed: what is seen, and
where. -/
def outputs : List (σ × List Item) → (σ → Format) → List (σ × Text)
  | [], _ => []
  | (c, is) :: ps, fs =>
    (c, (output is (fs c)).2) :: outputs ps (Function.update fs c (output is (fs c)).1)

end Output
