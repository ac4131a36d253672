import NctuUnix.Hw1.Print
import NctuUnix.Lib.Ecma

/-!
# What a filter asks for

A filter of `hw1.cpp` is made with `.*` before and behind the text that is given, so that it accepts
what contains a match of it; the search for a match stands beside it in a comment.  But `|` binds
less than anything else: in `.*a|b.*` the first `.*` belongs to `a` and the second one to `b`.

## Main results

* `contains_iff` — on a text without line ends, a filter accepts exactly what contains a match, if
  and only if there is one alternative, or the text contains no match, or there is one of the first
  alternative at the end, of the last one at the beginning, or of another that is the whole text.
* `contains_of_brackets` — with brackets around the pattern it is always so.
* `contains_fails` — `-c 'sh|vim'` and `sshd`.
-/

set_option autoImplicit false

namespace Lsof

open Input Ecma

/-- `std::regex_match` -/
def regexMatch : Regex := fun p ↦ (parse p).map isMatch

/-- `std::regex_search` -/
def regexSearch (p s : Text) : Bool := (parse p).any fun d ↦ isFound d s

variable {d : Pattern .disjunction} {p s : Text}

/-- There is one alternative; or nothing in the text matches; or the first alternative matches the
end of it, one in the middle the whole, or the last one the beginning. -/
def Placed (s : Text) : Pattern .disjunction → Prop
  | .single _ => True
  | .or d a => (∀ u, u <:+: s → u ∉ (Pattern.or d a).lang) ∨
      (∃ b ∈ d.alternatives.head?, ∃ u, u <:+ s ∧ u ∈ b.lang) ∨
      (∃ b ∈ d.alternatives.tail, s ∈ b.lang) ∨ ∃ u, u <+: s ∧ u ∈ a.lang

/-! ## The pattern with `.*` around it -/

theorem parse_around (hd : parse p = some d) :
    parse (around p) = some ((d.before dots).behind dots) := by
  rw [parse_eq_some, text_behind, text_before _ _ (by simp), parse_eq_some.1 hd]
  rfl

theorem mem_around_single {a : Pattern .alternative} (hs : ∀ c ∈ s, dot c = true) :
    s ∈ (((Pattern.single a).before dots).behind dots).lang ↔
      ∃ u, u <:+: s ∧ u ∈ (Pattern.single a).lang := by
  rw [Pattern.before, Pattern.behind, Pattern.lang, Pattern.lang, Pattern.lang,
    lang_before _ _ rfl, mem_dots_mul_dots hs]

theorem mem_around_or {a : Pattern .alternative} (hs : ∀ c ∈ s, dot c = true) :
    s ∈ (((Pattern.or d a).before dots).behind dots).lang ↔
      (∃ b ∈ d.alternatives.head?, ∃ u, u <:+ s ∧ u ∈ b.lang) ∨
        (∃ b ∈ d.alternatives.tail, s ∈ b.lang) ∨ ∃ u, u <+: s ∧ u ∈ a.lang := by
  rw [Pattern.before, Pattern.behind, Pattern.lang, Language.mem_add, mem_lang_before _ _ rfl,
    Pattern.lang, mem_mul_dots hs, or_assoc]
  simp only [mem_dots_mul hs]

/-- What is accepted contains a match. -/
theorem found_of_mem_around (hs : ∀ c ∈ s, dot c = true)
    (h : s ∈ ((d.before dots).behind dots).lang) : ∃ u, u <:+: s ∧ u ∈ d.lang := by
  cases d with
  | single a => exact (mem_around_single hs).1 h
  | or d a =>
    rcases (mem_around_or hs).1 h with ⟨b, hb, u, hu, hmem⟩ | ⟨b, hb, hmem⟩ | ⟨u, hu, hmem⟩
    · exact ⟨u, hu.isInfix, .inl ((mem_lang_iff d rfl).2 ⟨b, List.mem_of_mem_head? hb, hmem⟩)⟩
    · exact ⟨s, List.infix_rfl, .inl ((mem_lang_iff d rfl).2 ⟨b, List.mem_of_mem_tail hb, hmem⟩)⟩
    · exact ⟨u, hu.isInfix, .inr hmem⟩

theorem mem_around_iff (hs : ∀ c ∈ s, dot c = true) :
    (s ∈ ((d.before dots).behind dots).lang ↔ ∃ u, u <:+: s ∧ u ∈ d.lang) ↔ Placed s d := by
  cases d with
  | single a => exact iff_of_true (mem_around_single hs) trivial
  | or d a =>
    rw [Placed, ← mem_around_or hs]
    constructor
    · intro h
      by_cases hfound : ∃ u, u <:+: s ∧ u ∈ (Pattern.or d a).lang
      · exact .inr (h.2 hfound)
      · exact .inl fun u hu hmem ↦ hfound ⟨u, hu, hmem⟩
    · rintro (hno | hmem)
      · exact iff_of_false (fun h ↦ by
          obtain ⟨u, hu, hmem⟩ := found_of_mem_around hs h
          exact hno u hu hmem) fun ⟨u, hu, hmem⟩ ↦ hno u hu hmem
      · exact iff_of_true hmem (found_of_mem_around hs hmem)

theorem accepts_iff (F : Filters regexMatch) {i : Fin 3} (hon : F.filter i = true)
    (hd : parse (F.filtargu i) = some d) :
    F.accepts i s = true ↔ s ∈ ((d.before dots).behind dots).lang := by
  rw [Filters.accepts, hon, regexMatch, parse_around hd]
  simp [isMatch_iff]

/-- **When a filter asks for a match.**  On a text without line ends, a filter accepts exactly what
contains a match of its pattern, if and only if the pattern has one alternative, or nothing in the
text matches, or the first alternative matches the end of the text, or the last one the beginning,
or another one the text as a whole. -/
theorem contains_iff (F : Filters regexMatch) {i : Fin 3} (hon : F.filter i = true)
    (hd : parse (F.filtargu i) = some d) (hs : ∀ c ∈ s, dot c = true) :
    (F.accepts i s = true ↔ regexSearch (F.filtargu i) s = true) ↔ Placed s d := by
  have hsearch : regexSearch (F.filtargu i) s = true ↔ ∃ u, u <:+: s ∧ u ∈ d.lang := by
    rw [regexSearch, hd, Option.any_some, isFound_iff]
  rw [accepts_iff F hon hd, hsearch, mem_around_iff hs]

/-! ## Plain words -/

/-- A pattern of plain characters. -/
def wordPattern (t : Text) : Pattern .alternative :=
  t.foldl (fun a c ↦ .snoc a (.char c)) .empty

/-- Whether a word is plain can be computed. -/
theorem plain_of_all {t : Text} (h : (t.all fun c ↦ decide (c ∉ specials)) = true) :
    ∀ c ∈ t, c ∉ specials := fun c hc ↦ of_decide_eq_true (List.all_eq_true.1 h c hc)

theorem wordPattern_spec {t : Text} (ht : ∀ c ∈ t, c ∉ specials) :
    (wordPattern t).text = t ∧ (wordPattern t).lang = {t} := by
  induction t using List.reverseRecOn with
  | nil => exact ⟨rfl, rfl⟩
  | append_singleton t c ih =>
    rw [List.forall_mem_append, List.forall_mem_singleton] at ht
    obtain ⟨htext, hlang⟩ := ih ht.1
    have hsnoc : wordPattern (t ++ [c]) = .snoc (wordPattern t) (.char c) := by
      rw [wordPattern, List.foldl_append]
      rfl
    rw [hsnoc, Pattern.text, Pattern.lang, htext, hlang, text_char_of_plain ht.2, Pattern.lang]
    refine ⟨rfl, ?_⟩
    ext s
    rw [Language.mem_mul]
    constructor
    · rintro ⟨_, rfl, _, rfl, rfl⟩
      rfl
    · rintro rfl
      exact ⟨t, rfl, [c], rfl, rfl⟩

/-- **The patterns for types** are read as they are meant. -/
theorem readsTypes_regexMatch : ReadsTypes regexMatch := by
  intro t ht s hline hreturn
  have hplain : ∀ t ∈ types, (t.all fun c ↦ decide (c ∉ specials)) = true := by decide
  obtain ⟨htext, hlang⟩ := wordPattern_spec (plain_of_all (hplain t ht))
  have hs : ∀ c ∈ s, dot c = true := fun c hc ↦ by
    have hne : c ≠ '\n' ∧ c ≠ '\r' :=
      ⟨fun h ↦ hline (h ▸ hc), fun h ↦ hreturn (h ▸ hc)⟩
    simpa [dot] using hne
  have hparse : parse t = some (.single (wordPattern t)) := parse_eq_some.2 htext
  rw [regexMatch, parse_around hparse, Option.map_some, Option.any_some, isMatch_iff,
    mem_around_single hs, Pattern.lang, hlang]
  constructor
  · rintro ⟨u, hu, rfl⟩
    exact hu
  · exact fun h ↦ ⟨t, h, rfl⟩

/-! ## Some filters -/

/-- The filter for COMMAND alone. -/
def onlyCommand (p : Text) (hp : (regexMatch (around p)).isSome = true) : Filters regexMatch where
  filter i := i.val == 0
  filtargu _ := p
  wellFormed _ _ := hp
  typed h := absurd h Bool.false_ne_true

/-- `-c 'vim|ssh'` and `sshd`, which begins with a match of the last alternative. -/
theorem contains_iff_sshd :
    (onlyCommand "vim|ssh".toList (by decide +kernel)).accepts 0 "sshd".toList = true ↔
      regexSearch "vim|ssh".toList "sshd".toList = true := by
  have hssh : "ssh".toList ∈ (wordPattern "ssh".toList).lang := by
    rw [(wordPattern_spec (plain_of_all (by decide))).2]
    rfl
  have hparse : parse "vim|ssh".toList =
      some (.or (.single (wordPattern "vim".toList)) (wordPattern "ssh".toList)) :=
    parse_eq_some.2 rfl
  have hplaced : Placed "sshd".toList
      (.or (.single (wordPattern "vim".toList)) (wordPattern "ssh".toList)) :=
    .inr (.inr (.inr ⟨"ssh".toList, by decide, hssh⟩))
  have hon : (onlyCommand "vim|ssh".toList (by decide +kernel)).filter 0 = true := rfl
  exact (contains_iff _ hon hparse (by simp [dot])).2 hplaced

/-- **A match that is not accepted.**  `-c 'sh|vim'` does not show `sshd`. -/
theorem contains_fails : ∃ (F : Filters regexMatch) (s : Text), F.filter 0 = true ∧
    (∀ c ∈ s, dot c = true) ∧
      ¬ (F.accepts 0 s = true ↔ regexSearch (F.filtargu 0) s = true) :=
  ⟨onlyCommand "sh|vim".toList (by decide +kernel), "sshd".toList, by decide +kernel,
    by simp [dot], by decide +kernel⟩

/-! ## Brackets -/

/-- With brackets around the pattern, its alternatives stay together. -/
theorem parse_brackets (hd : parse p = some d) :
    parse (around ('(' :: (p ++ [')']))) = some (.single (.snoc (.snoc (.snoc .empty dots)
      (.group d)) dots)) := by
  rw [parse_eq_some, ← parse_eq_some.1 hd]
  simp [Pattern.text, dots, around]

/-- **With brackets it is right.** -/
theorem contains_of_brackets (hd : parse p = some d) (hs : ∀ c ∈ s, dot c = true) :
    (regexMatch (around ('(' :: (p ++ [')'])))).any (fun m ↦ m s) = true ↔
      regexSearch p s = true := by
  rw [regexMatch, parse_brackets hd, regexSearch, hd]
  simp only [Option.map_some, Option.any_some, isMatch_iff, isFound_iff, Pattern.lang, one_mul]
  exact mem_dots_mul_dots hs

end Lsof
