import Mathlib.Computability.RegularExpressions
import NctuUnix.Lib.Input

/-!
# Patterns

Regular expressions as they are written in a text, in the notation of ECMAScript: characters, `.`,
one thing after the other, `|`, `*` and brackets.  A character that has a meaning stands for itself
behind a `\`.

`Pattern.text` is the notation and `parse` reads it, in one pass with a stack of open brackets.  The
levels of the syntax are those of the grammar, so that each pattern has one text and each text at
most one pattern.  `Pattern.lang` is what a pattern means.

## Main results

* `parse_eq_some` — a text is read as a pattern if and only if it is its text.
* `isMatch_iff`, `isFound_iff` — matching a text as a whole, and finding a match in it.
-/

set_option autoImplicit false

namespace Ecma

open Input

open scoped Computability

/-! ## Syntax -/

/-- The levels of the grammar. -/
inductive Level
  | disjunction
  | alternative
  | term

/-- Patterns. -/
inductive Pattern : Level → Type
  | single (a : Pattern .alternative) : Pattern .disjunction
  | or (d : Pattern .disjunction) (a : Pattern .alternative) : Pattern .disjunction
  | empty : Pattern .alternative
  | snoc (a : Pattern .alternative) (t : Pattern .term) : Pattern .alternative
  | char (c : Char) : Pattern .term
  | any : Pattern .term
  | star (t : Pattern .term) : Pattern .term
  | group (d : Pattern .disjunction) : Pattern .term

/-- The characters that have a meaning. -/
def specials : List Char :=
  ['^', '$', '\\', '.', '*', '+', '?', '(', ')', '[', ']', '\x7b', '\x7d', '|']

/-- How a pattern is written. -/
def Pattern.text : {l : Level} → Pattern l → Text
  | _, .single a => a.text
  | _, .or d a => d.text ++ '|' :: a.text
  | _, .empty => []
  | _, .snoc a t => a.text ++ t.text
  | _, .char c => if c ∈ specials then ['\\', c] else [c]
  | _, .any => ['.']
  | _, .star t => t.text ++ ['*']
  | _, .group d => '(' :: (d.text ++ [')'])

/-! ## Reading -/

/-- A disjunction that is being read: the alternatives that are complete, and the last one. -/
structure Frame where
  alternatives : Option (Pattern .disjunction)
  current : Pattern .alternative

/-- At first. -/
def Frame.start : Frame := ⟨none, .empty⟩

/-- The disjunction, if it ends here. -/
def Frame.close (f : Frame) : Pattern .disjunction :=
  match f.alternatives with
  | none => .single f.current
  | some d => .or d f.current

/-- One more term. -/
def Frame.push (f : Frame) (t : Pattern .term) : Frame := { f with current := .snoc f.current t }

/-- What has been read: the disjunctions around the open brackets, from the inside out, the one
that is being read, and whether the last character is a `\`. -/
structure State where
  outer : List Frame
  top : Frame
  escaped : Bool

/-- At first. -/
def State.start : State := ⟨[], .start, false⟩

/-- A star belongs to the last term. -/
def repeatLast : Pattern .alternative → Option (Pattern .alternative)
  | .empty => none
  | .snoc a t => some (.snoc a (.star t))

/-- Reads one character; `none`: it has no place here. -/
def step (st : State) (c : Char) : Option State :=
  if st.escaped then
    if c ∈ specials then some ⟨st.outer, st.top.push (.char c), false⟩ else none
  else if c = '\\' then some { st with escaped := true }
  else if c = '|' then some { st with top := ⟨some st.top.close, .empty⟩ }
  else if c = '(' then some { st with outer := st.top :: st.outer, top := .start }
  else if c = ')' then
    match st.outer with
    | [] => none
    | f :: outer => some { st with outer := outer, top := f.push (.group st.top.close) }
  else if c = '.' then some { st with top := st.top.push .any }
  else if c = '*' then
    (repeatLast st.top.current).map fun a ↦ { st with top := { st.top with current := a } }
  else if c ∈ specials then none
  else some { st with top := st.top.push (.char c) }

/-- Reads some characters. -/
def run (st : State) (t : Text) : Option State := t.foldlM step st

/-- The pattern, if the text ends here. -/
def State.finish (st : State) : Option (Pattern .disjunction) :=
  if st.escaped || !st.outer.isEmpty then none else some st.top.close

/-- Reads a pattern. -/
def parse (t : Text) : Option (Pattern .disjunction) := (run .start t).bind State.finish

/-! ## What has been read -/

/-- The text of the disjunctions around the open brackets. -/
def outerText : List Frame → Text
  | [] => []
  | f :: fs => outerText fs ++ (f.close.text ++ ['('])

/-- The text that has been read. -/
def State.text (st : State) : Text :=
  outerText st.outer ++ (st.top.close.text ++ if st.escaped then ['\\'] else [])

theorem text_close_push (f : Frame) (t : Pattern .term) :
    (f.push t).close.text = f.close.text ++ t.text := by
  rcases f with ⟨_ | d, a⟩
  · rfl
  · simp [Frame.push, Frame.close, Pattern.text]

theorem text_close_repeat {f : Frame} {a : Pattern .alternative}
    (h : repeatLast f.current = some a) :
    ({ f with current := a } : Frame).close.text = f.close.text ++ ['*'] := by
  rcases f with ⟨alternatives, current⟩
  cases current with
  | empty => exact absurd h (by simp [repeatLast])
  | snoc b t =>
    rw [repeatLast, Option.some.injEq] at h
    subst h
    rcases alternatives with _ | d
    · simp [Frame.close, Pattern.text]
    · simp [Frame.close, Pattern.text]

theorem text_push {outer : List Frame} {f : Frame} (t : Pattern .term) :
    State.text ⟨outer, f.push t, false⟩ = State.text ⟨outer, f, false⟩ ++ t.text := by
  simp [State.text, text_close_push]

theorem text_char_of_special {c : Char} (h : c ∈ specials) :
    (Pattern.char c).text = ['\\', c] := by
  rw [Pattern.text, if_pos h]

theorem text_char_of_plain {c : Char} (h : c ∉ specials) : (Pattern.char c).text = [c] := by
  rw [Pattern.text, if_neg h]

/-- Nothing of the text is lost. -/
theorem text_step {st st' : State} {c : Char} (h : step st c = some st') :
    st'.text = st.text ++ [c] := by
  obtain ⟨outer, f, escaped⟩ := st
  rw [step] at h
  dsimp only at h
  split at h
  · rename_i hescaped
    split at h
    · rename_i hc
      rw [Option.some.injEq] at h
      rw [← h, text_push, text_char_of_special hc, hescaped]
      simp [State.text]
    · exact absurd h (by simp)
  · rename_i hescaped
    obtain rfl : escaped = false := by simpa using hescaped
    split at h
    · rename_i hc
      rw [Option.some.injEq] at h
      simp [← h, hc, State.text]
    split at h
    · rename_i hc
      rw [Option.some.injEq] at h
      simp [← h, hc, State.text, Frame.close, Pattern.text]
    split at h
    · rename_i hc
      rw [Option.some.injEq] at h
      simp [← h, hc, State.text, outerText, Frame.start, Frame.close, Pattern.text]
    split at h
    · rename_i hc
      rcases outer with _ | ⟨g, outer⟩
      · exact absurd h (by simp)
      · rw [Option.some.injEq] at h
        simp [← h, hc, State.text, outerText, text_close_push, Pattern.text]
    split at h
    · rename_i hc
      rw [Option.some.injEq] at h
      rw [← h, text_push, hc]
      rfl
    split at h
    · rename_i hc
      obtain ⟨a, ha, heq⟩ := Option.map_eq_some_iff.1 h
      simp [← heq, hc, State.text, text_close_repeat ha]
    split at h
    · exact absurd h (by simp)
    · rename_i hc
      rw [Option.some.injEq] at h
      rw [← h, text_push, text_char_of_plain hc]

theorem text_run {t : Text} : ∀ {st st' : State}, run st t = some st' →
    st'.text = st.text ++ t := by
  induction t with
  | nil =>
    intro st st' h
    rw [run, List.foldlM_nil, Option.pure_def, Option.some.injEq] at h
    rw [h, List.append_nil]
  | cons c t ih =>
    intro st st' h
    rw [run, List.foldlM_cons] at h
    obtain ⟨st₁, hstep, hrun⟩ := Option.bind_eq_some_iff.1 h
    rw [ih hrun, text_step hstep, List.append_assoc]
    rfl

/-! ## Every pattern is read -/

theorem run_append (st : State) (t u : Text) :
    run st (t ++ u) = (run st t).bind fun st' ↦ run st' u := List.foldlM_append

theorem run_singleton (st : State) (c : Char) : run st [c] = step st c := by
  simp [run]

theorem step_plain {outer : List Frame} {f : Frame} {c : Char} (h : c ∉ specials) :
    step ⟨outer, f, false⟩ c = some ⟨outer, f.push (.char c), false⟩ := by
  have hne {c' : Char} (hc' : c' ∈ specials) : c ≠ c' := fun heq ↦ h (heq ▸ hc')
  simp only [step, Bool.false_eq_true, if_false, hne (show '\\' ∈ specials by decide),
    hne (show '|' ∈ specials by decide), hne (show '(' ∈ specials by decide),
    hne (show ')' ∈ specials by decide), hne (show '.' ∈ specials by decide),
    hne (show '*' ∈ specials by decide), h]

/-- What it is for a pattern to be read, level by level. -/
def Reads : {l : Level} → Pattern l → Prop
  | .disjunction, d => ∀ outer, ∃ f, f.close = d ∧
      run ⟨outer, .start, false⟩ d.text = some ⟨outer, f, false⟩
  | .alternative, a => ∀ outer alternatives,
      run ⟨outer, ⟨alternatives, .empty⟩, false⟩ a.text = some ⟨outer, ⟨alternatives, a⟩, false⟩
  | .term, t => ∀ outer f, run ⟨outer, f, false⟩ t.text = some ⟨outer, f.push t, false⟩

theorem reads {l : Level} (p : Pattern l) : Reads p := by
  induction p with
  | single a ih =>
    intro outer
    exact ⟨⟨none, a⟩, rfl, ih outer none⟩
  | or d a ihd iha =>
    intro outer
    obtain ⟨f, hf, hrun⟩ := ihd outer
    refine ⟨⟨some d, a⟩, rfl, ?_⟩
    have hbar : step ⟨outer, f, false⟩ '|' = some ⟨outer, ⟨some f.close, .empty⟩, false⟩ := rfl
    rw [Pattern.text, run_append, hrun, Option.bind_some, run, List.foldlM_cons, hbar, hf]
    exact iha outer (some d)
  | empty => exact fun outer alternatives ↦ rfl
  | snoc a t iha iht =>
    intro outer alternatives
    rw [Pattern.text, run_append, iha outer alternatives, Option.bind_some]
    exact iht outer ⟨alternatives, a⟩
  | char c =>
    intro outer f
    by_cases hc : c ∈ specials
    · have hescape : step ⟨outer, f, false⟩ '\\' = some ⟨outer, f, true⟩ := rfl
      rw [text_char_of_special hc, run, List.foldlM_cons, hescape]
      simp [step, hc]
    · rw [text_char_of_plain hc, run_singleton, step_plain hc]
  | any => exact fun outer f ↦ rfl
  | star t ih =>
    intro outer f
    rw [Pattern.text, run_append, ih outer f, Option.bind_some]
    rfl
  | group d ih =>
    intro outer f
    obtain ⟨g, hg, hrun⟩ := ih (f :: outer)
    have hopen : step ⟨outer, f, false⟩ '(' = some ⟨f :: outer, .start, false⟩ := rfl
    have hclose : step ⟨f :: outer, g, false⟩ ')' =
      some ⟨outer, f.push (.group g.close), false⟩ := rfl
    have hin : run ⟨f :: outer, .start, false⟩ (d.text ++ [')']) =
        some ⟨outer, f.push (.group d), false⟩ := by
      rw [run_append, hrun, Option.bind_some, run_singleton, hclose, hg]
    rw [Pattern.text, run, List.foldlM_cons, hopen]
    exact hin

/-- **Texts and patterns.**  A text is read as a pattern if and only if it is its text. -/
theorem parse_eq_some {t : Text} {d : Pattern .disjunction} : parse t = some d ↔ d.text = t := by
  constructor
  · intro h
    obtain ⟨st, hrun, hfinish⟩ := Option.bind_eq_some_iff.1 h
    have htext := text_run hrun
    obtain ⟨outer, f, escaped⟩ := st
    rw [State.finish] at hfinish
    split at hfinish
    · exact absurd hfinish (by simp)
    · rename_i hend
      obtain ⟨rfl, rfl⟩ : escaped = false ∧ outer = [] := by simpa using hend
      rw [Option.some.injEq] at hfinish
      rw [← hfinish]
      simpa [State.text, State.start, Frame.start, Frame.close, outerText, Pattern.text] using htext
  · rintro rfl
    obtain ⟨f, hf, hrun⟩ := reads d []
    have hrun' : run .start d.text = some ⟨[], f, false⟩ := hrun
    rw [parse, hrun', Option.bind_some, State.finish, ← hf]
    rfl

/-! ## What a pattern means -/

/-- What `.` stands for: everything that does not end a line. -/
def dot (c : Char) : Bool := c != '\n' && c != '\r'

/-- The texts a pattern matches. -/
def Pattern.lang : {l : Level} → Pattern l → Language Char
  | _, .single a => a.lang
  | _, .or d a => d.lang + a.lang
  | _, .empty => 1
  | _, .snoc a t => a.lang * t.lang
  | _, .char c => {[c]}
  | _, .any => {s | ∃ c, dot c = true ∧ s = [c]}
  | _, .star t => t.lang∗
  | _, .group d => d.lang

/-- A regular expression over the characters of an alphabet. -/
def Pattern.toRegex (alphabet : List Char) : {l : Level} → Pattern l → RegularExpression Char
  | _, .single a => a.toRegex alphabet
  | _, .or d a => d.toRegex alphabet + a.toRegex alphabet
  | _, .empty => 1
  | _, .snoc a t => a.toRegex alphabet * t.toRegex alphabet
  | _, .char c => .char c
  | _, .any => ((alphabet.filter dot).map .char).sum
  | _, .star t => (t.toRegex alphabet).star
  | _, .group d => d.toRegex alphabet

/-- The pattern matches the text as a whole. -/
def isMatch (d : Pattern .disjunction) (s : Text) : Bool := (d.toRegex s).rmatch s

/-- The pattern matches something in the text. -/
def isFound (d : Pattern .disjunction) (s : Text) : Bool :=
  s.tails.any fun t ↦ t.inits.any fun u ↦ isMatch d u

theorem mem_sum_char {cs : List Char} {s : Text} :
    s ∈ (cs.map RegularExpression.char).sum.matches' ↔ ∃ c ∈ cs, s = [c] := by
  induction cs with
  | nil => simp
  | cons c cs ih =>
    rw [List.map_cons, List.sum_cons, RegularExpression.matches'_add, Language.mem_add, ih,
      List.exists_mem_cons_iff]
    rfl

/-- For a text over the alphabet, it makes no difference. -/
theorem mem_toRegex {alphabet : List Char} {l : Level} (p : Pattern l) : ∀ {s : Text},
    (∀ c ∈ s, c ∈ alphabet) → (s ∈ (p.toRegex alphabet).matches' ↔ s ∈ p.lang) := by
  induction p with
  | single a ih => exact ih
  | or d a ihd iha =>
    intro s hs
    rw [Pattern.toRegex, Pattern.lang, RegularExpression.matches'_add, Language.mem_add,
      Language.mem_add, ihd hs, iha hs]
  | empty => exact fun _ ↦ Iff.rfl
  | snoc a t iha iht =>
    intro s hs
    rw [Pattern.toRegex, Pattern.lang, RegularExpression.matches'_mul, Language.mem_mul,
      Language.mem_mul]
    constructor
    · rintro ⟨u, hu, v, hv, rfl⟩
      exact ⟨u, (iha fun c hc ↦ hs c (List.mem_append_left v hc)).1 hu, v,
        (iht fun c hc ↦ hs c (List.mem_append_right u hc)).1 hv, rfl⟩
    · rintro ⟨u, hu, v, hv, rfl⟩
      exact ⟨u, (iha fun c hc ↦ hs c (List.mem_append_left v hc)).2 hu, v,
        (iht fun c hc ↦ hs c (List.mem_append_right u hc)).2 hv, rfl⟩
  | char c => exact fun _ ↦ Iff.rfl
  | any =>
    intro s hs
    rw [Pattern.toRegex, mem_sum_char]
    constructor
    · rintro ⟨c, hc, rfl⟩
      exact ⟨c, (List.mem_filter.1 hc).2, rfl⟩
    · rintro ⟨c, hc, rfl⟩
      exact ⟨c, List.mem_filter.2 ⟨hs c List.mem_cons_self, hc⟩, rfl⟩
  | star t ih =>
    intro s hs
    rw [Pattern.toRegex, Pattern.lang, RegularExpression.matches'_star, Language.mem_kstar,
      Language.mem_kstar]
    constructor
    · rintro ⟨L, rfl, hL⟩
      exact ⟨L, rfl, fun y hy ↦
        (ih fun c hc ↦ hs c (List.mem_flatten.2 ⟨y, hy, hc⟩)).1 (hL y hy)⟩
    · rintro ⟨L, rfl, hL⟩
      exact ⟨L, rfl, fun y hy ↦
        (ih fun c hc ↦ hs c (List.mem_flatten.2 ⟨y, hy, hc⟩)).2 (hL y hy)⟩
  | group d ih => exact ih

/-- **Matching.** -/
theorem isMatch_iff {d : Pattern .disjunction} {s : Text} : isMatch d s = true ↔ s ∈ d.lang := by
  rw [isMatch, RegularExpression.rmatch_iff_matches', mem_toRegex d fun _ ↦ id]

/-- **Searching.** -/
theorem isFound_iff {d : Pattern .disjunction} {s : Text} :
    isFound d s = true ↔ ∃ u, u <:+: s ∧ u ∈ d.lang := by
  simp only [isFound, List.any_eq_true, List.mem_tails, List.mem_inits, isMatch_iff]
  constructor
  · rintro ⟨t, ht, u, hu, hmem⟩
    exact ⟨u, hu.isInfix.trans ht.isInfix, hmem⟩
  · rintro ⟨u, ⟨v, w, rfl⟩, hmem⟩
    exact ⟨u ++ w, ⟨v, by rw [List.append_assoc]⟩, u, ⟨w, rfl⟩, hmem⟩

/-! ## Terms before and behind -/

/-- A term before the first alternative. -/
def Pattern.before : {l : Level} → Pattern l → Pattern .term → Pattern l
  | _, .single a, t => .single (a.before t)
  | _, .or d a, t => .or (d.before t) a
  | _, .empty, t => .snoc .empty t
  | _, .snoc a u, t => .snoc (a.before t) u
  | _, p, _ => p

/-- A term behind the last alternative. -/
def Pattern.behind : Pattern .disjunction → Pattern .term → Pattern .disjunction
  | .single a, t => .single (.snoc a t)
  | .or d a, t => .or d (.snoc a t)

/-- The alternatives of a disjunction. -/
def Pattern.alternatives : {l : Level} → Pattern l → List (Pattern .alternative)
  | _, .single a => [a]
  | _, .or d a => d.alternatives ++ [a]
  | _, _ => []

theorem text_before (t : Pattern .term) {l : Level} (p : Pattern l) (hl : l ≠ .term) :
    (p.before t).text = t.text ++ p.text := by
  induction p with
  | single a ih => exact ih (by simp)
  | or d a ih => rw [Pattern.before, Pattern.text, ih (by simp), Pattern.text, List.append_assoc]
  | empty => simp [Pattern.before, Pattern.text]
  | snoc a u ih => rw [Pattern.before, Pattern.text, ih (by simp), Pattern.text, List.append_assoc]
  | char | any | star | group => exact absurd rfl hl

theorem text_behind (t : Pattern .term) (d : Pattern .disjunction) :
    (d.behind t).text = d.text ++ t.text := by
  cases d with
  | single a => rfl
  | or d a => simp [Pattern.behind, Pattern.text]

theorem lang_before (t : Pattern .term) {l : Level} (p : Pattern l) (hl : l = .alternative) :
    (p.before t).lang = t.lang * p.lang := by
  induction p with
  | empty => simp only [Pattern.before, Pattern.lang, one_mul, mul_one]
  | snoc a u ih => rw [Pattern.before, Pattern.lang, ih rfl, Pattern.lang, mul_assoc]
  | single | or | char | any | star | group => exact absurd hl (by simp)

theorem alternatives_ne_nil {l : Level} (p : Pattern l) (hl : l = .disjunction) :
    p.alternatives ≠ [] := by
  cases p with
  | single | or => simp [Pattern.alternatives]
  | empty | snoc | char | any | star | group => exact absurd hl (by simp)

/-- A disjunction matches what one of its alternatives matches. -/
theorem mem_lang_iff {s : Text} {l : Level} (p : Pattern l) (hl : l = .disjunction) :
    s ∈ p.lang ↔ ∃ b ∈ p.alternatives, s ∈ b.lang := by
  induction p with
  | single a => simp [Pattern.lang, Pattern.alternatives]
  | or d a ih =>
    rw [Pattern.lang, Language.mem_add, ih rfl, Pattern.alternatives]
    simp [or_and_right, exists_or]
  | empty | snoc | char | any | star | group => exact absurd hl (by simp)

theorem mem_lang_before {s : Text} (t : Pattern .term) {l : Level} (p : Pattern l)
    (hl : l = .disjunction) : s ∈ (p.before t).lang ↔
      (∃ b ∈ p.alternatives.head?, s ∈ t.lang * b.lang) ∨
        ∃ b ∈ p.alternatives.tail, s ∈ b.lang := by
  induction p with
  | single a => simp [Pattern.before, Pattern.lang, Pattern.alternatives, lang_before t a rfl]
  | or d a ih =>
    obtain ⟨b, bs, hb⟩ := List.exists_cons_of_ne_nil (alternatives_ne_nil d rfl)
    rw [Pattern.before, Pattern.lang, Language.mem_add, ih rfl, Pattern.alternatives, hb]
    simp [or_and_right, exists_or, or_assoc]
  | empty | snoc | char | any | star | group => exact absurd hl (by simp)

/-- Anything but the end of a line. -/
def dots : Pattern .term := .star .any

theorem mem_dots {s : Text} : s ∈ dots.lang ↔ ∀ c ∈ s, dot c = true := by
  rw [dots, Pattern.lang, Language.mem_kstar]
  constructor
  · rintro ⟨L, rfl, hL⟩ c hc
    obtain ⟨y, hy, hmem⟩ := List.mem_flatten.1 hc
    obtain ⟨c', hc', rfl⟩ := hL y hy
    exact List.mem_singleton.1 hmem ▸ hc'
  · intro hs
    refine ⟨s.map fun c ↦ [c], ?_, fun y hy ↦ ?_⟩
    · rw [← List.flatMap_def, List.flatMap_singleton']
    · obtain ⟨c, hc, rfl⟩ := List.mem_map.1 hy
      exact ⟨c, hs c hc, rfl⟩

theorem mem_dots_mul {s : Text} {L : Language Char} (hs : ∀ c ∈ s, dot c = true) :
    s ∈ dots.lang * L ↔ ∃ u, u <:+ s ∧ u ∈ L := by
  rw [Language.mem_mul]
  constructor
  · rintro ⟨v, -, u, hu, rfl⟩
    exact ⟨u, ⟨v, rfl⟩, hu⟩
  · rintro ⟨u, ⟨v, rfl⟩, hu⟩
    exact ⟨v, mem_dots.2 fun c hc ↦ hs c (List.mem_append_left u hc), u, hu, rfl⟩

theorem mem_mul_dots {s : Text} {L : Language Char} (hs : ∀ c ∈ s, dot c = true) :
    s ∈ L * dots.lang ↔ ∃ u, u <+: s ∧ u ∈ L := by
  rw [Language.mem_mul]
  constructor
  · rintro ⟨u, hu, v, -, rfl⟩
    exact ⟨u, ⟨v, rfl⟩, hu⟩
  · rintro ⟨u, ⟨v, rfl⟩, hu⟩
    exact ⟨u, hu, v, mem_dots.2 fun c hc ↦ hs c (List.mem_append_right u hc), rfl⟩

theorem mem_dots_mul_dots {s : Text} {L : Language Char} (hs : ∀ c ∈ s, dot c = true) :
    s ∈ dots.lang * L * dots.lang ↔ ∃ u, u <:+: s ∧ u ∈ L := by
  rw [mem_mul_dots hs]
  constructor
  · rintro ⟨v, hv, hmem⟩
    obtain ⟨u, hu, hL⟩ := (mem_dots_mul fun c hc ↦ hs c (hv.subset hc)).1 hmem
    exact ⟨u, hu.isInfix.trans hv.isInfix, hL⟩
  · rintro ⟨u, ⟨v, w, rfl⟩, hL⟩
    refine ⟨v ++ u, ⟨w, rfl⟩, (mem_dots_mul fun c hc ↦ ?_).2 ⟨u, ⟨v, rfl⟩, hL⟩⟩
    exact hs c (List.mem_append_left w hc)

end Ecma
