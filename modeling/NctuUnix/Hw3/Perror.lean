import NctuUnix.Lib.Bytes

/-!
# `errno` and `perror`

A wrapper of a system call clears `errno` and sets it if the call has failed.  `perror` calls
`write` twice before it looks at `errno`, and keeps a copy of `errno` from before; what it asks
about is the one, and what it prints is the message of the other.

## Main results

* `perror_iff` — `perror` prints the right message exactly if there is no prefix, or the errors
  before and after the prefix are both in the table or both outside of it.
* `perror_fails` — an error that is not in the table, after a prefix that could be written.
-/

set_option autoImplicit false

namespace Mini

open Bytes

/-! ## The wrappers -/

/-- `WRAPPER_RETval`, up to the conversion to its type: `errno` and the value, for what the kernel
returns. -/
def wrapperRetval (ret : Word) : Word × Word := if ret.slt 0 then (-ret, -1) else (0, ret)

/-- What `perror` works on. -/
structure Stderr where
  errno : Word
  /-- The buffers that have been written to descriptor 2. -/
  out : List String
  deriving DecidableEq, Repr

/-- `write(2, buf, strlen(buf))`; `rets` is what the kernel returns for each of the calls. -/
def write (rets : Nat → Word) (buf : String) (s : Stderr) : Stderr :=
  ⟨(wrapperRetval (rets s.out.length)).1, s.out ++ [buf]⟩

/-! ## The messages -/

def perrmsgMin : Word := 0

def perrmsgMax : Word := 34

def errmsg : List String :=
  ["Success",
    "Operation not permitted",
    "No such file or directory",
    "No such process",
    "Interrupted system call",
    "I/O error",
    "No such device or address",
    "Argument list too long",
    "Exec format error",
    "Bad file number",
    "No child processes",
    "Try again",
    "Out of memory",
    "Permission denied",
    "Bad address",
    "Block device required",
    "Device or resource busy",
    "File exists",
    "Cross-device link",
    "No such device",
    "Not a directory",
    "Is a directory",
    "Invalid argument",
    "File table overflow",
    "Too many open files",
    "Not a typewriter",
    "Text file busy",
    "File too large",
    "No space left on device",
    "Illegal seek",
    "Read-only file system",
    "Too many links",
    "Broken pipe",
    "Math argument out of domain of func",
    "Math result not representable"]

/-- `errmsg[i]`; `none` where there is no such element. -/
def errmsgAt (i : Word) : Option String := if i.toInt < 0 then none else errmsg[i.toInt.toNat]?

/-- An index outside the table. -/
structure OutOfTable where
  index : Word
  deriving DecidableEq, Repr

/-- The prefix, if there is one, and a colon. -/
def writePrefix (rets : Nat → Word) : Option String → Stderr → Stderr
  | none, s => s
  | some text, s => write rets ": " (write rets text s)

/-- `void perror(const char *prefix)` -/
def perror (rets : Nat → Word) (prefixText : Option String) (s : Stderr) :
    Except OutOfTable Stderr :=
  let backup := s.errno
  let s := writePrefix rets prefixText s
  if s.errno.slt perrmsgMin || perrmsgMax.slt s.errno then
    .ok (write rets "\n" (write rets "Unknown" s))
  else
    match errmsgAt backup with
    | none => .error ⟨backup⟩
    | some text => .ok (write rets "\n" (write rets text s))

/-! ## What it should print -/

/-- There is a message for this error. -/
def InTable (e : Word) : Prop := 0 ≤ e.toInt ∧ e.toInt ≤ 34

instance (e : Word) : Decidable (InTable e) := inferInstanceAs (Decidable (_ ∧ _))

/-- The text of an error. -/
def message (e : Word) : String := if InTable e then errmsg.getD e.toInt.toNat "" else "Unknown"

/-- What is printed in front of the message. -/
def heading : Option String → List String
  | none => []
  | some text => [text, ": "]

/-- `perror` prints the message of the error on entry, and stays inside its table. -/
def PrintsMessage (rets : Nat → Word) (prefixText : Option String) (s : Stderr) : Prop :=
  ∃ s', perror rets prefixText s = .ok s' ∧
    s'.out = s.out ++ heading prefixText ++ [message s.errno, "\n"]

/-! ## When it does -/

variable {rets : Nat → Word} {prefixText : Option String} {s : Stderr} {e ret : Word}

theorem index_lt (hin : InTable e) : e.toInt.toNat < errmsg.length := by
  have hlen : errmsg.length = 35 := rfl
  have hmax := hin.2
  omega

/-- The table has a message for each of its errors and for no other. -/
theorem errmsgAt_eq (e : Word) : errmsgAt e = if InTable e then some (message e) else none := by
  have hlen : errmsg.length = 35 := rfl
  rw [errmsgAt, message]
  by_cases hin : InTable e
  · rw [if_neg (by have := hin.1; omega), if_pos hin, if_pos hin, List.getD_eq_getElem?_getD,
      List.getElem?_eq_getElem (index_lt hin), Option.getD_some]
  · rw [if_neg hin]
    split
    · rfl
    · rename_i hneg
      refine List.getElem?_eq_none (Nat.le_of_not_lt fun hlt ↦ hin ⟨by omega, ?_⟩)
      omega

/-- None of its messages is the one for errors outside of it. -/
theorem message_eq_unknown_iff (e : Word) : message e = "Unknown" ↔ ¬ InTable e := by
  rw [message]
  by_cases hin : InTable e
  · have hlt := index_lt hin
    have hne : errmsg.getD e.toInt.toNat "" ≠ "Unknown" := by
      rw [List.getD_eq_getElem?_getD, List.getElem?_eq_getElem hlt, Option.getD_some]
      exact fun heq ↦ absurd (heq ▸ List.getElem_mem hlt) (by decide)
    rw [if_pos hin]
    exact iff_of_false hne fun hno ↦ hno hin
  · rw [if_neg hin]
    exact iff_of_true rfl hin

/-- The range test. -/
theorem outside_iff (e : Word) :
    (e.slt perrmsgMin || perrmsgMax.slt e) = true ↔ ¬ InTable e := by
  have hmin : perrmsgMin.toInt = 0 := by decide
  have hmax : perrmsgMax.toInt = 34 := by decide
  rw [Bool.or_eq_true, BitVec.slt_iff_toInt_lt, BitVec.slt_iff_toInt_lt, hmin, hmax, InTable]
  omega

/-- Which error a wrapper leaves. -/
theorem inTable_wrapper (ret : Word) : InTable (wrapperRetval ret).1 ↔ -34 ≤ ret.toInt := by
  have hzero : (0 : Word).toInt = 0 := by decide
  rw [wrapperRetval, InTable]
  by_cases hneg : ret.slt 0 = true
  · rw [if_pos hneg]
    rw [BitVec.slt_iff_toInt_lt, hzero] at hneg
    have hlow := BitVec.le_toInt ret
    simp only [BitVec.toInt_neg, Int.bmod_def]
    omega
  · rw [if_neg hneg]
    rw [BitVec.slt_iff_toInt_lt, hzero] at hneg
    simp only [hzero]
    omega

theorem write_out (buf : String) : (write rets buf s).out = s.out ++ [buf] := rfl

theorem writePrefix_out : (writePrefix rets prefixText s).out = s.out ++ heading prefixText := by
  rcases prefixText with _ | text
  · exact (List.append_nil _).symm
  · rw [writePrefix, write_out, write_out, List.append_assoc]
    rfl

/-- The error that is there after the prefix. -/
theorem writePrefix_errno : (writePrefix rets prefixText s).errno =
    if prefixText = none then s.errno else (wrapperRetval (rets (s.out.length + 1))).1 := by
  rcases prefixText with _ | text
  · rfl
  · rw [if_neg (by simp), writePrefix, write, write_out, List.length_append,
      List.length_singleton]

/-- What `perror` does, in terms of the errors before and after the prefix. -/
theorem perror_eq : perror rets prefixText s =
    if InTable (writePrefix rets prefixText s).errno then
      if InTable s.errno then
        .ok (write rets "\n" (write rets (message s.errno) (writePrefix rets prefixText s)))
      else .error ⟨s.errno⟩
    else .ok (write rets "\n" (write rets "Unknown" (writePrefix rets prefixText s))) := by
  have hout := outside_iff (writePrefix rets prefixText s).errno
  rw [perror]
  by_cases hin : InTable (writePrefix rets prefixText s).errno
  · rw [if_neg fun ho ↦ hout.1 ho hin, if_pos hin, errmsgAt_eq]
    split_ifs <;> rfl
  · rw [if_pos (hout.2 hin), if_neg hin]

theorem printsMessage_iff : PrintsMessage rets prefixText s ↔
    (InTable (writePrefix rets prefixText s).errno ↔ InTable s.errno) := by
  rw [PrintsMessage, perror_eq]
  by_cases hnow : InTable (writePrefix rets prefixText s).errno
  · rw [if_pos hnow]
    by_cases hthen : InTable s.errno
    · rw [if_pos hthen]
      refine iff_of_true ⟨_, rfl, ?_⟩ (iff_of_true hnow hthen)
      rw [write_out, write_out, writePrefix_out, List.append_assoc]
      rfl
    · rw [if_neg hthen]
      refine iff_of_false ?_ fun heq ↦ hthen (heq.1 hnow)
      rintro ⟨s', hs, -⟩
      cases hs
  · rw [if_neg hnow]
    have hunknown : (∃ s', Except.ok (write rets "\n" (write rets "Unknown"
          (writePrefix rets prefixText s))) = Except.ok (ε := OutOfTable) s' ∧
        s'.out = s.out ++ heading prefixText ++ [message s.errno, "\n"]) ↔
        message s.errno = "Unknown" := by
      simp only [Except.ok.injEq, exists_eq_left', write_out, writePrefix_out, List.append_assoc,
        List.append_cancel_left_eq, List.singleton_append, List.cons.injEq, and_true]
      exact eq_comm
    rw [hunknown, message_eq_unknown_iff]
    exact ⟨fun hthen ↦ iff_of_false hnow hthen, fun heq hthen ↦ hnow (heq.2 hthen)⟩

/-- **`perror`.**  It prints the message of the error on entry exactly if there is no prefix, or the
table has this error and the writing of the colon has succeeded or failed with an error of the
table, or neither. -/
theorem perror_iff : PrintsMessage rets prefixText s ↔
    prefixText = none ∨ (-34 ≤ (rets (s.out.length + 1)).toInt ↔ InTable s.errno) := by
  rw [printsMessage_iff, writePrefix_errno]
  by_cases hnone : prefixText = none
  · rw [if_pos hnone]
    exact iff_of_true .rfl (.inl hnone)
  · rw [if_neg hnone, inTable_wrapper]
    exact ⟨.inr, fun hor ↦ hor.resolve_left hnone⟩

/-- What the kernel returns for a prefix of seven characters and a colon. -/
def written : Nat → Word := fun k ↦ if k = 0 then 7 else 2

/-- **An index outside the table.**  The error is 110, a connection that timed out, and the prefix
is written. -/
theorem perror_fails : perror written (some "connect") ⟨110, []⟩ = .error ⟨110⟩ ∧
    ¬ PrintsMessage written (some "connect") ⟨110, []⟩ := by
  have hrun : perror written (some "connect") ⟨110, []⟩ = .error ⟨110⟩ := by decide +kernel
  refine ⟨hrun, ?_⟩
  rintro ⟨s', hs, -⟩
  rw [hrun] at hs
  cases hs

end Mini
