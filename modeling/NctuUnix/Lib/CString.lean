import Mathlib.Data.List.DropRight
import Mathlib.Data.List.TakeWhile
import NctuUnix.Lib.Input

/-!
# C strings

Strings in arrays of bytes, with what a program that handles them uses of the C library: bounded
copies, `strtok`, `getline` and `dirname`.

## Main results

* `cstr_strncpy` — what is read from an array after `strncpy`: a string that is too long goes on
  with what stands behind the array.
* `tokens_append`, `tokens_singleton` — the tokens of a text that is put together.
* `tokens_used` — once a line has been taken apart there is one token left in its buffer.
-/

set_option autoImplicit false

namespace CString

open Input

variable {t t' src rest : Text} {n : Nat} {c : Char}

/-! ## Arrays -/

def nul : Char := '\x00'

/-- The string that starts with the first of some bytes. -/
def cstr (bytes : Text) : Text := bytes.takeWhile (· != nul)

/-- The array of `n` bytes after `strncpy(array, src, n)`. -/
def strncpy (n : Nat) (src : Text) : Text := src.take n ++ List.replicate (n - src.length) nul

/-- An array after bytes have been written to its beginning. -/
def overwrite (bytes array : Text) : Text := bytes ++ array.drop bytes.length

theorem length_strncpy : (strncpy n src).length = n := by
  rw [strncpy, List.length_append, List.length_take, List.length_replicate]
  omega

theorem cstr_append (h : nul ∉ t) : cstr (t ++ rest) = t ++ cstr rest :=
  List.takeWhile_append_of_pos fun _ hc ↦ bne_iff_ne.2 fun he ↦ h (he ▸ hc)

theorem cstr_nul : cstr (nul :: rest) = [] := List.takeWhile_cons_of_neg (by simp)

/-- **Reading a bounded copy.** -/
theorem cstr_strncpy (h : nul ∉ src) : cstr (strncpy n src ++ rest) =
    if src.length < n then src else src.take n ++ cstr rest := by
  have htake : nul ∉ src.take n := fun hc ↦ h (List.mem_of_mem_take hc)
  rw [strncpy, List.append_assoc, cstr_append htake]
  split
  · obtain ⟨k, hk⟩ : ∃ k, n - src.length = k + 1 := ⟨n - src.length - 1, by omega⟩
    rw [hk, List.replicate_succ, List.cons_append, cstr_nul, List.append_nil,
      List.take_of_length_le (by omega)]
  · rw [Nat.sub_eq_zero_of_le (by omega), List.replicate_zero, List.nil_append]

/-! ## Tokens -/

/-- What `strtok(t, delim)` and the calls with a null pointer after it return, one after the
other. -/
def tokens (delim t : Text) : List Text :=
  (t.splitOnP delim.contains).filter fun tok ↦ !tok.isEmpty

/-- The string that is left in the buffer: `strtok` ends the first token with a null byte. -/
def used (delim t : Text) : Text :=
  t.takeWhile delim.contains ++
    (t.dropWhile delim.contains).takeWhile fun c ↦ !(delim.contains c)

variable {delim : Text}

theorem tokens_nil : tokens delim [] = [] := by simp [tokens]

/-- No token goes across a delimiter. -/
theorem tokens_append (hc : c ∈ delim) :
    tokens delim (t ++ c :: t') = tokens delim t ++ tokens delim t' := by
  rw [tokens, List.splitOnP_append_cons t t' (by simpa using hc), List.filter_append]
  rfl

theorem tokens_cons (hc : c ∈ delim) : tokens delim (c :: t) = tokens delim t := by
  have happ : tokens delim ([] ++ c :: t) = tokens delim [] ++ tokens delim t := tokens_append hc
  rwa [List.nil_append, tokens_nil, List.nil_append] at happ

theorem tokens_singleton (hne : t ≠ []) (ht : ∀ c ∈ t, c ∉ delim) : tokens delim t = [t] := by
  rw [tokens, List.splitOnP_eq_singleton (by simpa using ht)]
  simpa using hne

theorem tokens_between (hne : t ≠ []) (ht : ∀ c ∈ t, c ∉ delim) (hc : c ∈ delim) :
    tokens delim (t ++ c :: t') = t :: tokens delim t' := by
  rw [tokens_append hc, tokens_singleton hne ht]
  rfl

/-- Delimiters in front. -/
theorem tokens_skip (ht : ∀ c ∈ t, c ∈ delim) : tokens delim (t ++ t') = tokens delim t' := by
  induction t with
  | nil => rfl
  | cons c t ih =>
    rw [List.cons_append, tokens_cons (ht c List.mem_cons_self),
      ih fun d hd ↦ ht d (List.mem_cons_of_mem c hd)]

/-- What is left begins with a character at which reading stops. -/
theorem stops_of_dropWhile {p : Char → Bool} (hd : t.dropWhile p = c :: t') : p c = false := by
  have hhead := List.head?_dropWhile_not p t
  rw [hd] at hhead
  simpa using hhead

/-- The first token of a text that does not start with a delimiter. -/
theorem tokens_head? (hc : c ∉ delim) :
    (tokens delim (c :: t)).head? = some ((c :: t).takeWhile fun c ↦ !(delim.contains c)) := by
  have hplain : ∀ d ∈ (c :: t).takeWhile (fun c ↦ !(delim.contains c)), d ∉ delim := fun d hd ↦ by
    simpa using List.mem_takeWhile_imp hd
  have hne : (c :: t).takeWhile (fun c ↦ !(delim.contains c)) ≠ [] := by
    rw [List.takeWhile_cons_of_pos (by simpa using hc)]
    exact List.cons_ne_nil _ _
  have hsplit : (c :: t).takeWhile (fun c ↦ !(delim.contains c)) ++
      (c :: t).dropWhile (fun c ↦ !(delim.contains c)) = c :: t := List.takeWhile_append_dropWhile
  rcases hd : (c :: t).dropWhile (fun c ↦ !(delim.contains c)) with _ | ⟨d, rest⟩
  · rw [hd, List.append_nil] at hsplit
    rw [hsplit] at hplain ⊢
    rw [tokens_singleton (List.cons_ne_nil _ _) hplain]
    rfl
  · have hdelim : d ∈ delim := by
      have hstop := stops_of_dropWhile hd
      simpa using hstop
    conv_lhs => rw [← hsplit, hd, tokens_between hne hplain hdelim]
    rfl

/-- **A line that has been taken apart.**  Reading it again gives one token at most. -/
theorem tokens_used : (tokens delim (used delim t)).length ≤ 1 := by
  have hskip : ∀ c ∈ t.takeWhile delim.contains, c ∈ delim := fun c hc ↦ by
    simpa using List.mem_takeWhile_imp hc
  have hplain : ∀ c ∈ (t.dropWhile delim.contains).takeWhile (fun c ↦ !(delim.contains c)),
      c ∉ delim := fun c hc ↦ by simpa using List.mem_takeWhile_imp hc
  rw [used, tokens_skip hskip]
  rcases hw : (t.dropWhile delim.contains).takeWhile (fun c ↦ !(delim.contains c)) with _ | ⟨c, cs⟩
  · rw [tokens_nil]
    exact Nat.zero_le 1
  · rw [hw] at hplain
    rw [tokens_singleton (List.cons_ne_nil _ _) hplain]
    exact Nat.le_refl 1

/-! ## Lines -/

/-- The lines `getline` delivers, each with its newline. -/
def getlines : Text → List Text
  | [] => []
  | c :: cs =>
    if c = '\n' then ['\n'] :: getlines cs
    else
      match getlines cs with
      | [] => [[c]]
      | l :: ls => (c :: l) :: ls

theorem getlines_cons (ht : '\n' ∉ t) :
    getlines (t ++ '\n' :: rest) = (t ++ ['\n']) :: getlines rest := by
  induction t with
  | nil => simp [getlines]
  | cons c t ih =>
    have hc : c ≠ '\n' ∧ '\n' ∉ t := by simpa [eq_comm] using ht
    rw [List.cons_append, getlines, if_neg hc.1, ih hc.2]
    rfl

/-! ## Paths -/

/-- What `dirname` leaves of a path; `none`: it returns a string of its own, `.`. -/
def dirnamePrefix (path : Text) : Option Text :=
  let p := path.rdropWhile (· == '/')
  let u := if p.isEmpty then path else p.rdropWhile (· != '/')
  let q := u.rdropWhile (· == '/')
  if u.isEmpty then none
  else if q.isEmpty then some (u.take (if u.length = 2 then 2 else 1))
  else some q

/-- `dirname` of the string in an array: the result, and the array, in which a null byte is
written. -/
def dirname (array : Text) : Text × Text :=
  match dirnamePrefix (cstr array) with
  | none => (".".toList, array)
  | some dir => (dir, array.set dir.length nul)

end CString
