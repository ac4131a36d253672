import Mathlib.Data.List.TakeWhile
import NctuUnix.Lib.Input

/-!
# Numbers printed in one base and read in another

A number that is printed in base `b'` and read in the smaller base `b` comes back as itself if it is
a digit of base `b`, and as something smaller otherwise: reading stops at the first digit that base
`b` does not have, and every digit counts less than it should.

## Main results

* `readIn_lt`, `readIn_of_lt` — the number that is read.
* `strtoul16_toDigits` — a number that is printed in base sixteen and read in base sixteen.
* `words_cons`, `words_singleton` — words that are put together with blanks are found again.
-/

set_option autoImplicit false

namespace Input

variable {b b' n r : Nat} {t w rest : Text}

/-! ## Digits -/

theorem digit?_digitChar (hr : r < 16) : digit? r.digitChar = some r := by
  revert hr
  exact fun hr ↦ (by decide : ∀ r : Fin 16, digit? r.val.digitChar = some r.val) ⟨r, hr⟩

/-- One more digit is read, or none is any more. -/
theorem digits_concat (hr : r < 16) : digits b (t ++ [r.digitChar]) = digits b t ∨
    digits b (t ++ [r.digitChar]) = digits b t ++ [r] := by
  induction t with
  | nil =>
    simp only [List.nil_append, digits, digit?_digitChar hr]
    split
    · exact .inr rfl
    · exact .inl rfl
  | cons c t ih =>
    rw [List.cons_append, digits, digits]
    split
    · split
      · exact ih.imp (congrArg _) (congrArg _)
      · exact .inl rfl
    · exact .inl rfl

/-- The number that is read in base `b` from `n` printed in base `b'`. -/
def readIn (b b' n : Nat) : Nat := ofDigits b (digits b (Nat.toDigits b' n))

theorem ofDigits_concat (ds : List Nat) : ofDigits b (ds ++ [r]) = ofDigits b ds * b + r := by
  rw [ofDigits, List.foldl_append]
  rfl

/-- The last digit adds what it stands for at most. -/
theorem readIn_step (hb' : 1 < b') (h16 : b' ≤ 16) (hn : b' ≤ n) :
    readIn b b' n ≤ max (readIn b b' (n / b')) (readIn b b' (n / b') * b + n % b') := by
  have hr : n % b' < 16 := Nat.lt_of_lt_of_le (Nat.mod_lt n (by omega)) h16
  rw [readIn, readIn, Nat.toDigits_of_base_le hb' hn]
  rcases digits_concat (b := b) (t := Nat.toDigits b' (n / b')) hr with hd | hd
  · rw [hd]
    exact Nat.le_max_left _ _
  · rw [hd, ofDigits_concat]
    exact Nat.le_max_right _ _

/-- A digit of the smaller base is read as itself. -/
theorem readIn_of_lt (hbb : b ≤ b') (h16 : b' ≤ 16) (hn : n < b) : readIn b b' n = n := by
  have h16n : n < 16 := by omega
  simp only [readIn, Nat.toDigits_of_lt_base (Nat.lt_of_lt_of_le hn hbb), digits,
    digit?_digitChar h16n, if_pos hn, ofDigits, List.foldl_cons, List.foldl_nil]
  omega

/-- **Nothing else is.** -/
theorem readIn_lt (hb : 1 < b) (hbb : b < b') (h16 : b' ≤ 16) : b ≤ n → readIn b b' n < n := by
  induction n using Nat.strongRecOn with
  | _ n ih =>
    intro hn
    by_cases hlt : n < b'
    · have h16n : n < 16 := by omega
      have hno : ¬ n < b := by omega
      simp only [readIn, Nat.toDigits_of_lt_base hlt, digits, digit?_digitChar h16n, if_neg hno,
        ofDigits, List.foldl_nil]
      omega
    · have hle : b' ≤ n := by omega
      have hq : 1 ≤ n / b' := Nat.div_pos hle (by omega)
      have hqn : n / b' < n := Nat.div_lt_self (by omega) (by omega)
      have hquot : readIn b b' (n / b') ≤ n / b' := by
        by_cases hsmall : n / b' < b
        · exact Nat.le_of_eq (readIn_of_lt (Nat.le_of_lt hbb) h16 hsmall)
        · exact Nat.le_of_lt (ih _ hqn (by omega))
      have hdiv := Nat.div_add_mod n b'
      have hlast : readIn b b' (n / b') * b + n % b' < n :=
        calc readIn b b' (n / b') * b + n % b'
            ≤ n / b' * b + n % b' := Nat.add_le_add_right (Nat.mul_le_mul_right b hquot) _
          _ < n / b' * b' + n % b' := Nat.add_lt_add_right (Nat.mul_lt_mul_of_pos_left hbb hq) _
          _ = n := by rw [Nat.mul_comm, hdiv]
      have hstep := readIn_step (b := b) (by omega) h16 hle
      omega

/-! ## Characters -/

/-- The characters of a printed number. -/
theorem mem_toDigits {c : Char} (hb' : 1 < b') (h16 : b' ≤ 16) :
    c ∈ Nat.toDigits b' n → ∃ r, r < 16 ∧ c = r.digitChar := by
  induction n using Nat.strongRecOn with
  | _ n ih =>
    by_cases hlt : n < b'
    · rw [Nat.toDigits_of_lt_base hlt, List.mem_singleton]
      exact fun hc ↦ ⟨n, by omega, hc⟩
    · rw [Nat.toDigits_of_base_le hb' (by omega), List.mem_append, List.mem_singleton]
      rintro (hc | hc)
      · exact ih _ (Nat.div_lt_self (by omega) hb') hc
      · exact ⟨n % b', Nat.lt_of_lt_of_le (Nat.mod_lt n (by omega)) h16, hc⟩

/-- It has neither blanks nor a sign. -/
theorem plain_digitChar : ∀ r : Fin 16, isSpace r.val.digitChar = false ∧
    r.val.digitChar ≠ '-' ∧ r.val.digitChar ≠ '+' := by
  decide

theorem toDigits_noSpace (hb' : 1 < b') (h16 : b' ≤ 16) :
    ∀ c ∈ Nat.toDigits b' n, isSpace c = false := fun c hc ↦ by
  obtain ⟨r, hr, rfl⟩ := mem_toDigits hb' h16 hc
  exact (plain_digitChar ⟨r, hr⟩).1

/-- A number with a sign has digits and a minus sign in it. -/
theorem notMem_toString {c : Char} (hdigit : c.isDigit = false) (hminus : c ≠ '-') (i : Int) :
    c ∉ (toString i).toList := by
  have hdigits (m : Nat) : c ∉ m.repr.toList := fun h ↦ by
    have hyes : c.isDigit = true :=
      Nat.isDigit_of_mem_toDigits (b := 10) (n := m) (by decide) (by decide) (by simpa using h)
    exact absurd (hdigit.symm.trans hyes) (by decide)
  rw [Int.toString_eq_repr, Int.repr_eq_if]
  split
  · exact hdigits _
  · rw [String.toList_append, List.mem_append]
    exact not_or.2 ⟨fun h ↦ hminus (by simpa using h), hdigits _⟩

theorem toString_ne_nil (i : Int) : (toString i).toList ≠ [] := by
  have hdigits (m : Nat) : m.repr.toList ≠ [] := by
    simp [Nat.toDigits_ne_nil]
  rw [Int.toString_eq_repr, Int.repr_eq_if]
  split
  · exact hdigits _
  · rw [String.toList_append]
    exact List.append_ne_nil_of_right_ne_nil _ (hdigits _)

/-- Only zero is printed with zeros alone. -/
theorem exists_digit_ne_zero (hb' : 1 < b') (h16 : b' ≤ 16) (hn : n ≠ 0) :
    ∃ r < 16, r.digitChar ∈ Nat.toDigits b' n ∧ r ≠ 0 := by
  induction n using Nat.strongRecOn with
  | ind n ih =>
    by_cases hlt : n < b'
    · refine ⟨n, by omega, ?_, hn⟩
      rw [Nat.toDigits_of_lt_base hlt]
      exact List.mem_singleton_self _
    · have hdiv : n / b' ≠ 0 := Nat.ne_of_gt (Nat.div_pos (by omega) (by omega))
      obtain ⟨r, hr, hmem, hne⟩ := ih _ (Nat.div_lt_self (by omega) hb') hdiv
      refine ⟨r, hr, ?_, hne⟩
      rw [Nat.toDigits_of_base_le hb' (by omega)]
      exact List.mem_append_left _ hmem

theorem toDigits_injective : Function.Injective (Nat.toDigits 10) := fun m n h ↦ by
  rw [← Nat.ofDigitChars_ten_toDigits (n := m), h, Nat.ofDigitChars_ten_toDigits]

/-- Text that starts with a digit has no sign and no blank in front. -/
theorem sign_toDigits (hb' : 1 < b') (h16 : b' ≤ 16) :
    sign ((Nat.toDigits b' n).dropWhile isSpace) = (false, Nat.toDigits b' n) := by
  rcases ht : Nat.toDigits b' n with _ | ⟨c, cs⟩
  · rfl
  · obtain ⟨r, hr, rfl⟩ := mem_toDigits (n := n) hb' h16 (ht ▸ List.mem_cons_self)
    obtain ⟨hsp, hminus, hplus⟩ := plain_digitChar ⟨r, hr⟩
    rw [List.dropWhile_cons_of_neg (by simp [hsp]), sign.eq_def]
    split
    · rename_i heq
      exact absurd (List.cons.inj heq).1 hminus
    · rename_i heq
      exact absurd (List.cons.inj heq).1 hplus
    · rfl

/-- `atoi` of a printed number that is not too large. -/
theorem atoi_toDigits (hb' : 1 < b') (h16 : b' ≤ 16) (hn : readIn 10 b' n < 2 ^ 31) :
    atoi (Nat.toDigits b' n) = readIn 10 b' n := by
  have hval : strtol10 (Nat.toDigits b' n) = (readIn 10 b' n : Int) := by
    rw [strtol10, sign_toDigits hb' h16]
    simp only [Bool.false_eq_true, if_false]
    rw [← readIn]
    omega
  rw [atoi, hval, BitVec.toInt_ofInt]
  simp only [Int.bmod_def]
  omega

/-! ## The same base -/

/-- Reading goes on behind digits. -/
theorem digits_append (ht : ∀ c ∈ t, ∃ d, digit? c = some d ∧ d < b) :
    digits b (t ++ rest) = digits b t ++ digits b rest := by
  induction t with
  | nil => rfl
  | cons c t ih =>
    obtain ⟨d, hd, hlt⟩ := ht c List.mem_cons_self
    rw [List.cons_append, digits, digits, hd]
    simp only [if_pos hlt, List.cons_append]
    rw [ih fun c hc ↦ ht c (List.mem_cons_of_mem _ hc)]

/-- What is printed in a base are digits of that base. -/
theorem toDigits_digit (hb : 1 < b) (h16 : b ≤ 16) :
    ∀ c ∈ Nat.toDigits b n, ∃ d, digit? c = some d ∧ d < b := by
  induction n using Nat.strongRecOn with
  | _ n ih =>
    intro c hc
    by_cases hlt : n < b
    · rw [Nat.toDigits_of_lt_base hlt, List.mem_singleton] at hc
      exact ⟨n, hc ▸ digit?_digitChar (by omega), hlt⟩
    · rw [Nat.toDigits_of_base_le hb (by omega), List.mem_append, List.mem_singleton] at hc
      rcases hc with hc | rfl
      · exact ih _ (Nat.div_lt_self (by omega) hb) c hc
      · have hr := Nat.mod_lt n (Nat.zero_lt_of_lt hb)
        exact ⟨n % b, digit?_digitChar (by omega), hr⟩

/-- A number that is printed and read in one base comes back. -/
theorem readIn_self (hb : 1 < b) (h16 : b ≤ 16) : readIn b b n = n := by
  induction n using Nat.strongRecOn with
  | _ n ih =>
    by_cases hlt : n < b
    · exact readIn_of_lt (Nat.le_refl b) h16 hlt
    · have hr : n % b < b := Nat.mod_lt n (Nat.zero_lt_of_lt hb)
      rw [readIn, Nat.toDigits_of_base_le hb (by omega), digits_append (toDigits_digit hb h16),
        digits, digit?_digitChar (by omega)]
      simp only [if_pos hr, digits]
      rw [ofDigits_concat, ← readIn, ih _ (Nat.div_lt_self (by omega) hb), Nat.mul_comm]
      exact Nat.div_add_mod n b

/-- Zeros in front count nothing. -/
theorem ofDigits_zeros (k : Nat) (ds : List Nat) :
    ofDigits b (List.replicate k 0 ++ ds) = ofDigits b ds := by
  induction k with
  | zero => rfl
  | succ k ih =>
    rw [List.replicate_succ, List.cons_append, ← ih, ofDigits, List.foldl_cons, Nat.zero_mul]
    rfl

/-- A digit is neither a blank nor a sign. -/
theorem plain_of_digit {c : Char} {d : Nat} (hc : digit? c = some d) :
    isSpace c = false ∧ c ≠ '-' ∧ c ≠ '+' ∧ c ≠ 'x' ∧ c ≠ 'X' := by
  have hne : ∀ x, digit? x = none → c ≠ x := fun x hx he ↦ by
    rw [← he, hc] at hx
    cases hx
  refine ⟨?_, hne _ rfl, hne _ rfl, hne _ rfl, hne _ rfl⟩
  simp [isSpace, hne ' ' rfl, hne '\t' rfl, hne '\n' rfl, hne '\x0b' rfl, hne '\x0c' rfl,
    hne '\r' rfl]

/-- A text of digits, with something else behind it. -/
theorem strtoul16_digits {sep : Text} (hne : t ≠ [])
    (hd : ∀ c ∈ t, ∃ d, digit? c = some d ∧ d < 16)
    (hsep : ∀ c ∈ sep.head?, digit? c = none ∧ c ≠ 'x' ∧ c ≠ 'X')
    (hlt : ofDigits 16 (digits 16 t) < 2 ^ 64) :
    strtoul16 (t ++ sep) = BitVec.ofNat 64 (ofDigits 16 (digits 16 t)) := by
  obtain ⟨c, cs, rfl⟩ := List.exists_cons_of_ne_nil hne
  obtain ⟨d, hc, -⟩ := hd c List.mem_cons_self
  obtain ⟨hspace, hminus, hplus, -⟩ := plain_of_digit hc
  have hdrop : (c :: cs ++ sep).dropWhile isSpace = c :: cs ++ sep :=
    List.dropWhile_cons_of_neg (by simp [hspace])
  have hsign : sign (c :: cs ++ sep) = (false, c :: cs ++ sep) := by
    rw [List.cons_append, sign.eq_def]
    split
    · rename_i heq
      exact absurd (List.cons.inj heq).1 hminus
    · rename_i heq
      exact absurd (List.cons.inj heq).1 hplus
    · rfl
  -- the second character is a digit, or what stands behind them
  have hsecond : ∀ x ∈ (cs ++ sep).head?, x ≠ 'x' ∧ x ≠ 'X' := by
    intro x hx
    rcases cs with _ | ⟨y, ys⟩
    · exact (hsep x hx).2
    · obtain rfl : y = x := Option.some.inj hx
      obtain ⟨d', hy, -⟩ := hd y (by simp)
      exact (plain_of_digit hy).2.2.2
  have hskip : skipHexPrefix (c :: cs ++ sep) = c :: cs ++ sep := by
    rw [skipHexPrefix.eq_def]
    split
    · rename_i x rest heq
      have htail : cs ++ sep = x :: rest := (List.cons.inj heq).2
      have hx := hsecond x (by rw [htail]; rfl)
      rw [if_neg fun h ↦ h.1.elim hx.1 hx.2]
    · rfl
  have hend : digits 16 sep = [] := by
    rcases sep with _ | ⟨x, xs⟩
    · rfl
    · rw [digits, (hsep x rfl).1]
  rw [strtoul16, hdrop, hsign]
  simp only [hskip, digits_append hd, hend, List.append_nil, if_neg (Nat.not_le.2 hlt),
    Bool.false_eq_true, if_false]

/-- **The number that was printed**, with zeros in front and something else behind it. -/
theorem strtoul16_toDigits (k : Nat) (hn : n < 2 ^ 64) {sep : Text}
    (hsep : ∀ c ∈ sep.head?, digit? c = none ∧ c ≠ 'x' ∧ c ≠ 'X') :
    strtoul16 (List.replicate k '0' ++ Nat.toDigits 16 n ++ sep) = BitVec.ofNat 64 n := by
  have hzero : ∀ c ∈ List.replicate k '0', ∃ d, digit? c = some d ∧ d < 16 := fun c hc ↦ by
    rw [List.eq_of_mem_replicate hc]
    exact ⟨0, rfl, by decide⟩
  have hzeros : ∀ k, digits 16 (List.replicate k '0') = List.replicate k 0 := fun k ↦ by
    induction k with
    | zero => rfl
    | succ k ih => rw [List.replicate_succ, digits, List.replicate_succ, ← ih]; rfl
  have hdigits : ofDigits 16 (digits 16 (List.replicate k '0' ++ Nat.toDigits 16 n)) = n := by
    rw [digits_append hzero, hzeros, ofDigits_zeros]
    exact readIn_self (by decide) (by decide)
  have hall : ∀ c ∈ List.replicate k '0' ++ Nat.toDigits 16 n, ∃ d, digit? c = some d ∧ d < 16 :=
    fun c hc ↦ (List.mem_append.1 hc).elim (hzero c) (toDigits_digit (by decide) (by decide) c)
  have hne : List.replicate k '0' ++ Nat.toDigits 16 n ≠ [] := by simp [Nat.toDigits_ne_nil]
  rw [strtoul16_digits hne hall hsep (by rwa [hdigits]), hdigits]

/-! ## Words -/

/-- A word without blanks, as it is computed. -/
theorem noSpace_of_all (ht : (t.all fun c ↦ !isSpace c) = true) : ∀ c ∈ t, isSpace c = false := by
  simpa using ht

/-- Characters that are no blanks belong to the word that is being read. -/
theorem wordsFrom_append (ht : ∀ c ∈ t, isSpace c = false) :
    wordsFrom w (t ++ rest) = wordsFrom (w ++ t) rest := by
  induction t generalizing w with
  | nil => rw [List.nil_append, List.append_nil]
  | cons c t ih =>
    rw [List.cons_append, wordsFrom, if_neg (by simp [ht c List.mem_cons_self]),
      ih fun c' hc' ↦ ht c' (List.mem_cons_of_mem c hc'), List.append_assoc]
    rfl

/-- A text with blanks, cut at the first one. -/
theorem exists_first_space (h : ¬ ∀ c ∈ t, isSpace c = false) :
    ∃ w c rest, t = w ++ c :: rest ∧ (∀ c ∈ w, isSpace c = false) ∧ isSpace c = true := by
  induction t with
  | nil => exact absurd (fun c hc ↦ absurd hc List.not_mem_nil) h
  | cons c t ih =>
    rcases hc : isSpace c with _ | _
    · have ht : ¬ ∀ c ∈ t, isSpace c = false := fun ht ↦ h (by simpa [hc] using ht)
      obtain ⟨w, c', rest, rfl, hw, hc'⟩ := ih ht
      exact ⟨c :: w, c', rest, rfl, by simpa [hc] using hw, hc'⟩
    · exact ⟨[], c, t, rfl, fun c hc ↦ absurd hc List.not_mem_nil, hc⟩

/-- A word, and the words after the blank behind it. -/
theorem words_cons_of_space {c : Char} (hne : w ≠ []) (hw : ∀ c ∈ w, isSpace c = false)
    (hc : isSpace c = true) : words (w ++ c :: rest) = w :: words rest := by
  rw [words, wordsFrom_append hw, List.nil_append, wordsFrom, if_pos hc,
    if_neg (by simpa using hne), words]

theorem words_cons (hne : w ≠ []) (hw : ∀ c ∈ w, isSpace c = false) :
    words (w ++ ' ' :: rest) = w :: words rest :=
  words_cons_of_space hne hw (by decide)

theorem words_singleton (hne : w ≠ []) (hw : ∀ c ∈ w, isSpace c = false) : words w = [w] := by
  have happ : wordsFrom [] (w ++ []) = wordsFrom ([] ++ w) [] := wordsFrom_append hw
  rw [List.append_nil, List.nil_append] at happ
  rw [words, happ, wordsFrom, if_neg (by simpa using hne)]

/-- A blank in front belongs to no word. -/
theorem words_space {c : Char} (hc : isSpace c = true) : words (c :: t) = words t := by
  rw [words, wordsFrom, if_pos hc, if_pos (by rfl), words]

/-- The first word of a text that does not start with a blank. -/
theorem words_head? {c : Char} (hc : isSpace c = false) :
    (words (c :: t)).head? = some ((c :: t).takeWhile fun c ↦ !isSpace c) := by
  by_cases h : ∀ d ∈ c :: t, isSpace d = false
  · rw [words_singleton (List.cons_ne_nil _ _) h, List.takeWhile_eq_self_iff.2 (by simpa using h)]
    rfl
  · obtain ⟨w, d, rest, heq, hw, hd⟩ := exists_first_space h
    have hne : w ≠ [] := by
      rintro rfl
      rw [List.nil_append, List.cons.injEq] at heq
      rw [heq.1, hd] at hc
      exact absurd hc (by decide)
    rw [heq, words_cons_of_space hne hw hd,
      List.takeWhile_append_of_pos (by simpa using hw), List.takeWhile_cons_of_neg (by simp [hd]),
      List.append_nil]
    rfl

end Input
