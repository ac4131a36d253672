import Mathlib.Data.List.Basic
import NctuUnix.Lib.Input

/-!
# `getopt`

The options of a command line, taken off one by one as GNU `getopt` does it, for short options with
and without argument.  Words that are no options are passed over, and moved behind the options that
follow as soon as these are done with.

A `State` is the vector cut in pieces: the options in front, the operands that have been passed
over, the options since then, and the rest.  `parse` reads a command line at once and says what the
options are and which words belong to them.

## Main results

* `runs_iff` — the calls of `getopt` accept a command line if and only if it can be parsed, and
  deliver the options it is parsed into, each with the vector as it is arranged then.
* `length_le_of_runs` — there are at most as many options as characters.
* `perm_of_mem_deliveries` — the words are rearranged and none is lost.
* `todo_lt_of_option`, `length_argv_getopt`, `Ahead.getopt` — for a loop that calls `getopt`: there
  is less to be read after an option, there are as many words as before, and an option that stands
  behind operands is moved in front of them.
-/

set_option autoImplicit false

namespace Getopt

open Input

/-! ## The function

Between two calls the vector consists of four pieces, of which the middle two are exchanged at the
next call that starts a new word.  So an option is delivered while it still stands behind the
operands that were passed over, and a caller that reads the vector at that moment sees them in front
of it.
-/

/-- A word that is no option: `-`, and what does not start with it. -/
def isOperand (w : Text) : Bool := w.head? != some '-' || w.length == 1

/-- Whether the option takes an argument; `none`: there is no such option. -/
def takesArg? (optstring : Text) (c : Char) : Option Bool :=
  if c = ':' ∨ c = ';' then none
  else
    match optstring.dropWhile (· != c) with
    | [] => none
    | _ :: t => some (t.head? == some ':')

/-- The vector, and how far it has been read: `opts` goes up to `first_nonopt`, `operands` up to
`last_nonopt`, and `fresh` up to `optind`. -/
structure State where
  prog : Text
  opts : List Text
  operands : List Text
  fresh : List Text
  rest : List Text
  /-- What has not been read of the word at `optind`. -/
  nextchar : Text
  deriving DecidableEq, Repr

/-- The state at first. -/
def State.init (prog : Text) (words : List Text) : State := ⟨prog, [], [], [], words, []⟩

/-- The words as they are arranged. -/
def State.argv (st : State) : List Text :=
  st.prog :: (st.opts ++ st.operands ++ (st.fresh ++ st.rest))

/-- What a call returns, with `optarg`. -/
inductive Result
  | eof
  | option (c : Char) (optarg : Option Text)
  /-- An option that is not known, or without its argument. -/
  | error (c : Char)
  deriving DecidableEq, Repr

/-- Goes on behind the next `k` words. -/
def State.advance (k : Nat) (st : State) : State :=
  { st with fresh := st.fresh ++ st.rest.take k, rest := st.rest.drop k, nextchar := [] }

/-- Goes on in the same word, if it is not at its end. -/
def State.behind (cs : Text) (st : State) : State :=
  if cs = [] then st.advance 1 else { st with nextchar := cs }

/-- Looks at the next character of a word. -/
def shortOption (optstring : Text) (st : State) : Result × State :=
  match st.nextchar with
  | [] => (.eof, st)
  | c :: cs =>
    match takesArg? optstring c with
    | none => (.error c, st.behind cs)
    | some false => (.option c none, st.behind cs)
    | some true =>
      if cs ≠ [] then (.option c (some cs), st.advance 1)
      else
        match st.rest[1]? with
        | none => (.error c, st.advance 1)
        | some arg => (.option c (some arg), st.advance 2)

/-- Exchanges the operands and the options behind them, and passes over more operands. -/
def State.permute (st : State) : State :=
  { st with
    opts := st.opts ++ st.fresh
    operands := st.operands ++ st.rest.takeWhile isOperand
    fresh := []
    rest := st.rest.dropWhile isOperand }

/-- A call of `getopt`. -/
def getopt (optstring : Text) (st : State) : Result × State :=
  if st.nextchar ≠ [] then shortOption optstring st
  else
    match st.permute.rest with
    | [] => (.eof, st.permute)
    | w :: ws =>
      if w = "--".toList then
        (.eof, { st.permute with
          opts := st.permute.opts ++ [w]
          operands := st.permute.operands ++ ws
          rest := [] })
      else shortOption optstring { st.permute with nextchar := w.drop 1 }

/-- An option that is delivered, with the vector as it is then. -/
structure Delivery where
  letter : Char
  optarg : Option Text
  argv : List Text
  deriving DecidableEq, Repr

/-- The calls up to the end, none of which fails. -/
inductive Runs (optstring : Text) : State → List Delivery → Prop
  | eof {st st' : State} : getopt optstring st = (.eof, st') → Runs optstring st []
  | option {st st' : State} {c : Char} {optarg : Option Text} {ds : List Delivery} :
    getopt optstring st = (.option c optarg, st') → Runs optstring st' ds →
      Runs optstring st (⟨c, optarg, st'.argv⟩ :: ds)

/-! ## Reading a command line at once

Here a command line is cut into pieces, a word that is no option or a word of options with the
argument of the last of them, and what is delivered is read off the pieces.  There is no state, and
the only thing to accumulate is how the words are arranged by then (`deliveries`).
-/

/-- The options of one word, from `t` on, and how many words they take. -/
def cluster (optstring : Text) (ws : List Text) :
    Text → Option (List (Char × Option Text) × Nat)
  | [] => some ([], 1)
  | c :: cs =>
    match takesArg? optstring c with
    | none => none
    | some false => (cluster optstring ws cs).map fun r ↦ ((c, none) :: r.1, r.2)
    | some true =>
      if cs ≠ [] then some ([(c, some cs)], 1) else ws.head?.map fun a ↦ ([(c, some a)], 2)

/-- Some words, and the options in them; an operand has none. -/
structure Piece where
  words : List Text
  options : List (Char × Option Text)
  deriving DecidableEq, Repr

/-- The pieces of a command line, and what is not looked at: `--` and the words behind it. -/
def parse (optstring : Text) : List Text → Option (List Piece × List Text)
  | [] => some ([], [])
  | w :: ws =>
    if isOperand w then (parse optstring ws).map fun v ↦ (⟨[w], []⟩ :: v.1, v.2)
    else if w = "--".toList then some ([], w :: ws)
    else
      match cluster optstring ws (w.drop 1) with
      | none => none
      | some (options, k) =>
        if k = 1 then (parse optstring ws).map fun v ↦ (⟨[w], options⟩ :: v.1, v.2)
        else
          match ws with
          | [] => none
          | a :: ws' => (parse optstring ws').map fun v ↦ (⟨[w, a], options⟩ :: v.1, v.2)

/-- What is delivered for some pieces, behind `opts` and `operands`. -/
def deliveries (prog : Text) (opts operands : List Text) (tail : List Text) :
    List Piece → List Delivery
  | [] => []
  | p :: ps =>
    if p.options = [] then deliveries prog opts (operands ++ p.words) tail ps
    else
      p.options.map (fun o ↦ ⟨o.1, o.2, prog :: (opts ++ operands ++
          (p.words ++ (ps.flatMap Piece.words ++ tail)))⟩) ++
        deliveries prog (opts ++ p.words) operands tail ps

/-! ## Calls one by one

A call delivers an option, ends, or fails, and each of these determines the runs from there.
-/

variable {optstring : Text} {st st' : State} {ds : List Delivery}

/-- There are no options where the calls end. -/
theorem runs_of_eof (h : getopt optstring st = (.eof, st')) :
    Runs optstring st ds ↔ ds = [] := by
  constructor
  · intro hr
    cases hr with
    | eof _ => rfl
    | option h' _ =>
      rw [h] at h'
      exact absurd (congrArg Prod.fst h') (by simp)
  · rintro rfl
    exact .eof h

/-- An option, and the runs from the state behind it. -/
theorem runs_of_option {c : Char} {optarg : Option Text}
    (h : getopt optstring st = (.option c optarg, st')) : Runs optstring st ds ↔
      ∃ ds', ds = ⟨c, optarg, st'.argv⟩ :: ds' ∧ Runs optstring st' ds' := by
  constructor
  · intro hr
    cases hr with
    | eof h' =>
      rw [h] at h'
      exact absurd (congrArg Prod.fst h') (by simp)
    | option h' hr' =>
      rw [h, Prod.mk.injEq, Result.option.injEq] at h'
      obtain ⟨⟨rfl, rfl⟩, rfl⟩ := h'
      exact ⟨_, rfl, hr'⟩
  · rintro ⟨ds', rfl, hr⟩
    exact .option h hr

/-- An error is the end of it. -/
theorem not_runs_of_error {c : Char} (h : getopt optstring st = (.error c, st')) :
    ¬ Runs optstring st ds := by
  intro hr
  cases hr with
  | eof h' =>
    rw [h] at h'
    exact absurd (congrArg Prod.fst h') (by simp)
  | option h' _ =>
    rw [h] at h'
    exact absurd (congrArg Prod.fst h') (by simp)

/-- What a call does depends on nothing else. -/
theorem runs_congr (h : getopt optstring st = getopt optstring st') :
    Runs optstring st ds ↔ Runs optstring st' ds := by
  rcases hst : getopt optstring st' with ⟨_ | ⟨c, optarg⟩ | c, st''⟩
  · rw [runs_of_eof hst, runs_of_eof (h.trans hst)]
  · rw [runs_of_option hst, runs_of_option (h.trans hst)]
  · exact iff_of_false (not_runs_of_error (h.trans hst)) (not_runs_of_error hst)

/-- A word is passed, and stays where it is. -/
theorem argv_advance (k : Nat) (st : State) : (st.advance k).argv = st.argv := by
  simp only [State.argv, State.advance, List.append_assoc, List.take_append_drop]

/-- So it is within a word. -/
theorem argv_behind (cs : Text) (st : State) : (st.behind cs).argv = st.argv := by
  rw [State.behind]
  split
  · exact argv_advance 1 st
  · rfl

/-! ## Within a word

The options of a word are taken off by as many calls as there are, and none of these calls
rearranges anything.
-/

/-- A call within a word does not look at the vector. -/
theorem getopt_of_nextchar (h : st.nextchar ≠ []) :
    getopt optstring st = shortOption optstring st := if_pos h

/-- The options of a word, from some character on. -/
theorem runs_cluster {w : Text} {ws : List Text} (t : Text) : ∀ st : State, st.nextchar = t →
    t ≠ [] → st.rest = w :: ws →
    (Runs optstring st ds ↔ ∃ options k ds', cluster optstring ws t = some (options, k) ∧
      ds = options.map (fun o ↦ ⟨o.1, o.2, st.argv⟩) ++ ds' ∧
      Runs optstring (st.advance k) ds') := by
  -- a character at a time; an option with an argument is the last one of its word
  induction t generalizing ds with
  | nil => exact fun _ _ h ↦ absurd rfl h
  | cons c cs ih =>
    intro st hnext hne hrest
    have hcall : getopt optstring st = shortOption optstring st :=
      getopt_of_nextchar (hnext ▸ hne)
    rw [shortOption, hnext] at hcall
    rw [cluster]
    rcases hkind : takesArg? optstring c with _ | _ | _
    · simp only [hkind] at hcall
      exact iff_of_false (not_runs_of_error hcall) (by simp)
    · simp only [hkind] at hcall
      rw [runs_of_option hcall, argv_behind]
      by_cases hcs : cs = []
      · subst hcs
        have hbehind : st.behind [] = st.advance 1 := if_pos rfl
        rw [hbehind]
        simp [cluster]
      · have hbehind : st.behind cs = { st with nextchar := cs } := if_neg hcs
        have hih (ds' : List Delivery) : Runs optstring { st with nextchar := cs } ds' ↔
            ∃ options k ds'', cluster optstring ws cs = some (options, k) ∧
              ds' = options.map (fun o ↦ ⟨o.1, o.2, st.argv⟩) ++ ds'' ∧
              Runs optstring (st.advance k) ds'' := ih _ rfl hcs hrest
        rw [hbehind]
        constructor
        · rintro ⟨ds', rfl, hr⟩
          obtain ⟨options, k, ds'', hcluster, rfl, hr'⟩ := (hih ds').1 hr
          refine ⟨_, k, ds'', by rw [hcluster]; rfl, rfl, hr'⟩
        · rintro ⟨options, k, ds', hcluster, rfl, hr⟩
          obtain ⟨⟨options', k'⟩, hcluster', heq⟩ := Option.map_eq_some_iff.1 hcluster
          obtain ⟨rfl, rfl⟩ := Prod.mk.inj heq
          exact ⟨_, rfl, (hih _).2 ⟨options', k', ds', hcluster', rfl, hr⟩⟩
    · simp only [hkind, hrest, List.getElem?_cons_succ] at hcall
      by_cases hcs : cs = []
      · rw [if_neg (by simpa using hcs)] at hcall
        simp only [hcs, ne_eq, not_true_eq_false, if_false]
        rcases ws with _ | ⟨a, ws'⟩
        · exact iff_of_false (not_runs_of_error hcall) (by simp)
        · simp only [List.getElem?_cons_zero] at hcall
          rw [runs_of_option hcall, argv_advance]
          simp
      · rw [if_pos hcs] at hcall
        rw [runs_of_option hcall, argv_advance]
        simp [hcs]

/-- A second word is taken only where there is one. -/
theorem cluster_words {ws t : List _} {options : List (Char × Option Text)} {k : ℕ}
    (h : cluster optstring ws t = some (options, k)) : k = 1 ∨ k = 2 ∧ ws ≠ [] := by
  induction t generalizing options with
  | nil =>
    rw [cluster, Option.some.injEq, Prod.mk.injEq] at h
    exact .inl h.2.symm
  | cons c cs ih =>
    rw [cluster] at h
    rcases hkind : takesArg? optstring c with _ | _ | _
    · simp only [hkind, reduceCtorEq] at h
    · simp only [hkind, Option.map_eq_some_iff, Prod.mk.injEq] at h
      obtain ⟨r, hr, -, rfl⟩ := h
      exact ih hr
    · simp only [hkind] at h
      split at h
      · rw [Option.some.injEq, Prod.mk.injEq] at h
        exact .inl h.2.symm
      · obtain ⟨a, ha, heq⟩ := Option.map_eq_some_iff.1 h
        rw [Prod.mk.injEq] at heq
        refine .inr ⟨heq.2.symm, ?_⟩
        rintro rfl
        exact absurd ha (by simp)

/-- The word itself is taken in any case. -/
theorem cluster_pos {ws t : List _} {options : List (Char × Option Text)} {k : ℕ}
    (h : cluster optstring ws t = some (options, k)) : 1 ≤ k := by
  rcases cluster_words h with rfl | ⟨rfl, -⟩
  · exact Nat.le_refl 1
  · exact Nat.le_succ 1

/-- An option for each character, at most. -/
theorem length_cluster_le {ws : List Text} {t : Text} {options : List (Char × Option Text)} {k : ℕ}
    (h : cluster optstring ws t = some (options, k)) : options.length ≤ t.length := by
  induction t generalizing options with
  | nil =>
    rw [cluster, Option.some.injEq, Prod.mk.injEq] at h
    rw [← h.1]
    exact Nat.le_refl 0
  | cons c cs ih =>
    rw [cluster] at h
    rw [List.length_cons]
    rcases hkind : takesArg? optstring c with _ | _ | _
    · simp only [hkind, reduceCtorEq] at h
    · simp only [hkind, Option.map_eq_some_iff, Prod.mk.injEq] at h
      obtain ⟨r, hr, rfl, rfl⟩ := h
      exact Nat.succ_le_succ (ih hr)
    · simp only [hkind] at h
      split at h
      · rw [Option.some.injEq, Prod.mk.injEq] at h
        simp [← h.1]
      · obtain ⟨a, ha, heq⟩ := Option.map_eq_some_iff.1 h
        rw [Prod.mk.injEq] at heq
        simp [← heq.1]

/-- A word of options has at least one. -/
theorem cluster_ne_nil {ws : List Text} {t : Text} {options : List (Char × Option Text)} {k : ℕ}
    (ht : t ≠ []) (h : cluster optstring ws t = some (options, k)) : options ≠ [] := by
  rintro rfl
  obtain ⟨c, cs, rfl⟩ := List.exists_cons_of_ne_nil ht
  rw [cluster] at h
  rcases hkind : takesArg? optstring c with _ | _ | _
  · simp only [hkind, reduceCtorEq] at h
  · simp [hkind] at h
  · simp only [hkind] at h
    split at h
    · simp at h
    · simp at h

/-! ## From word to word

`settled` is the exchange of the operands with the options behind them, which is due before the next
word of options.  The state between two words delivers what the rest is parsed into (`Delivers`);
this is shown for each kind of word, and `delivers` goes through the rest by its length, since an
option may take two words.
-/

/-- An operand is a piece of its own. -/
theorem parse_operand {w : Text} {ws : List Text} (h : isOperand w = true) :
    parse optstring (w :: ws) = (parse optstring ws).map fun v ↦ (⟨[w], []⟩ :: v.1, v.2) := by
  rw [parse, if_pos h]

/-- `--` and what follows is not looked at. -/
theorem parse_dashes (ws : List Text) :
    parse optstring ("--".toList :: ws) = some ([], "--".toList :: ws) := by
  rw [parse, if_neg (by decide), if_pos rfl]

/-- A word of options is a piece, with the argument of the last one if that is a word of its own. -/
theorem parse_cluster {w : Text} {ws : List Text} (h : isOperand w = false)
    (hdashes : w ≠ "--".toList) {v : List Piece × List Text} :
    parse optstring (w :: ws) = some v ↔ ∃ options k v',
      cluster optstring ws (w.drop 1) = some (options, k) ∧
        parse optstring (ws.drop (k - 1)) = some v' ∧
          v = (⟨(w :: ws).take k, options⟩ :: v'.1, v'.2) := by
  rw [parse, if_neg (by simp [h]), if_neg hdashes]
  rcases hcluster : cluster optstring ws (w.drop 1) with _ | ⟨options, k⟩
  · simp
  · rcases cluster_words hcluster with rfl | ⟨rfl, hws⟩
    · simp only [if_true, Option.map_eq_some_iff]
      constructor
      · rintro ⟨v', hv', rfl⟩
        exact ⟨options, 1, v', rfl, hv', rfl⟩
      · rintro ⟨options', k', v', heq, hv', rfl⟩
        obtain ⟨rfl, rfl⟩ := Prod.mk.inj (Option.some.inj heq)
        exact ⟨v', hv', rfl⟩
    · rcases ws with _ | ⟨a, ws'⟩
      · exact absurd rfl hws
      · simp only [if_neg (show ¬ 2 = 1 by decide), Option.map_eq_some_iff]
        constructor
        · rintro ⟨v', hv', rfl⟩
          exact ⟨options, 2, v', rfl, hv', rfl⟩
        · rintro ⟨options', k', v', heq, hv', rfl⟩
          obtain ⟨rfl, rfl⟩ := Prod.mk.inj (Option.some.inj heq)
          exact ⟨v', hv', rfl⟩

/-- What holds of the command lines that can be parsed, word by word. -/
theorem parse_induction {P : List Text → List Piece → List Text → Prop} (nil : P [] [] [])
    (dashes : ∀ ws, P ("--".toList :: ws) [] ("--".toList :: ws))
    (operand : ∀ w ws ps tail, isOperand w = true → P ws ps tail →
      P (w :: ws) (⟨[w], []⟩ :: ps) tail)
    (option : ∀ w ws options k ps tail, isOperand w = false →
      cluster optstring ws (w.drop 1) = some (options, k) → P (ws.drop (k - 1)) ps tail →
        P (w :: ws) (⟨(w :: ws).take k, options⟩ :: ps) tail) (n : ℕ) :
    ∀ (ws : List Text) (v : List Piece × List Text), ws.length ≤ n →
      parse optstring ws = some v → P ws v.1 v.2 := by
  induction n with
  | zero =>
    intro ws v hn h
    obtain rfl := List.length_eq_zero_iff.1 (Nat.le_zero.1 hn)
    rw [parse, Option.some.injEq] at h
    exact h ▸ nil
  | succ n ih =>
    intro ws v hn h
    rcases ws with _ | ⟨w, ws⟩
    · rw [parse, Option.some.injEq] at h
      exact h ▸ nil
    · rw [List.length_cons] at hn
      rcases hop : isOperand w with _ | _
      · by_cases hdashes : w = "--".toList
        · rw [hdashes, parse_dashes, Option.some.injEq] at h
          exact hdashes ▸ h ▸ dashes ws
        · obtain ⟨options, k, v', hcluster, hv', rfl⟩ := (parse_cluster hop hdashes).1 h
          exact option w ws options k _ _ hop hcluster
            (ih _ v' (by rw [List.length_drop]; omega) hv')
      · rw [parse_operand hop] at h
        obtain ⟨v', hv', rfl⟩ := Option.map_eq_some_iff.1 h
        exact operand w ws _ _ hop (ih _ v' (by omega) hv')

/-- Nothing is lost: the pieces are the command line. -/
theorem words_of_parse {ws : List Text} {v : List Piece × List Text}
    (h : parse optstring ws = some v) : v.1.flatMap Piece.words ++ v.2 = ws := by
  refine parse_induction (P := fun ws ps tail ↦ ps.flatMap Piece.words ++ tail = ws) rfl
    (fun _ ↦ rfl) ?_ ?_ ws.length ws v (Nat.le_refl _) h
  · intro w ws ps tail _ ih
    rw [List.flatMap_cons, List.append_assoc, ih]
    rfl
  · intro w ws options k ps tail _ hcluster ih
    rw [List.flatMap_cons, List.append_assoc, ih, ← List.drop_cons (cluster_pos hcluster),
      List.take_append_drop]

/-- Nothing is left. -/
theorem getopt_of_end (h : st.nextchar = []) (hrest : st.rest = []) :
    getopt optstring st = (.eof, st.permute) := by
  have hpermute : st.permute.rest = [] := by rw [State.permute, hrest]; rfl
  rw [getopt, if_neg (by simp [h])]
  simp only [hpermute]

/-- The options behind the operands are exchanged with them. -/
def State.settled (st : State) : State := { st with opts := st.opts ++ st.fresh, fresh := [] }

/-- An operand is passed over. -/
theorem getopt_of_operand {w : Text} {ws : List Text} (h : st.nextchar = [])
    (hrest : st.rest = w :: ws) (hop : isOperand w = true) :
    getopt optstring st =
      getopt optstring { st.settled with operands := st.operands ++ [w], rest := ws } := by
  have hpermute : st.permute =
      State.permute { st.settled with operands := st.operands ++ [w], rest := ws } := by
    simp [State.permute, State.settled, hrest, hop]
  have hnext : ¬ st.settled.nextchar ≠ [] := by simp [State.settled, h]
  rw [getopt, getopt, if_neg (by simp [h]), if_neg hnext, hpermute]

/-- No operand is passed over in front of an option. -/
theorem permute_of_option {w : Text} {ws : List Text} (hrest : st.rest = w :: ws)
    (hop : isOperand w = false) : st.permute = st.settled := by
  simp [State.permute, State.settled, hrest, hop]

/-- `--` is the end. -/
theorem getopt_of_dashes {ws : List Text} (h : st.nextchar = [])
    (hrest : st.rest = "--".toList :: ws) : ∃ st', getopt optstring st = (.eof, st') := by
  have hpermute : st.permute.rest = "--".toList :: ws := by
    rw [permute_of_option hrest (by decide)]
    exact hrest
  rw [getopt, if_neg (by simp [h])]
  simp only [hpermute, if_true]
  exact ⟨_, rfl⟩

/-- There is something behind the `-` of an option. -/
theorem drop_ne_nil {w : Text} (hop : isOperand w = false) : w.drop 1 ≠ [] := by
  rw [isOperand, Bool.or_eq_false_iff] at hop
  rcases w with _ | ⟨c, _ | ⟨d, cs⟩⟩
  · exact absurd hop.1 (by simp)
  · exact absurd hop.2 (by simp)
  · simp

/-- The options of a word are looked at. -/
theorem getopt_of_option {w : Text} {ws : List Text} (h : st.nextchar = [])
    (hrest : st.rest = w :: ws) (hop : isOperand w = false) (hdashes : w ≠ "--".toList) :
    getopt optstring st = getopt optstring { st.settled with nextchar := w.drop 1 } := by
  have hlook : getopt optstring { st.settled with nextchar := w.drop 1 }
      = shortOption optstring { st.settled with nextchar := w.drop 1 } :=
    getopt_of_nextchar (drop_ne_nil hop)
  have hpermute := permute_of_option hrest hop
  have hrest' : st.settled.rest = w :: ws := hrest
  rw [hlook, getopt, if_neg (by simp [h]), hpermute]
  simp only [hrest', if_neg hdashes]

/-- The options of a word are delivered. -/
theorem runs_of_word {w : Text} {ws : List Text} (h : st.nextchar = [])
    (hrest : st.rest = w :: ws) (hop : isOperand w = false) (hdashes : w ≠ "--".toList) :
    Runs optstring st ds ↔ ∃ options k ds',
      cluster optstring ws (w.drop 1) = some (options, k) ∧
        ds = options.map (fun o ↦ ⟨o.1, o.2, st.settled.argv⟩) ++ ds' ∧
        Runs optstring (st.settled.advance k) ds' := by
  have hword : Runs optstring { st.settled with nextchar := w.drop 1 } ds ↔ _ :=
    runs_cluster (w.drop 1) _ rfl (drop_ne_nil hop) hrest
  rw [runs_congr (getopt_of_option h hrest hop hdashes)]
  exact hword

/-- The options of a word are delivered with the words as they are arranged. -/
theorem deliveries_of_cluster {w : Text} {ws : List Text} {options : List (Char × Option Text)}
    {k : ℕ} {v : List Piece × List Text} (hrest : st.rest = w :: ws) (hop : isOperand w = false)
    (hcluster : cluster optstring ws (w.drop 1) = some (options, k))
    (hv : parse optstring (ws.drop (k - 1)) = some v) :
    deliveries st.prog (st.opts ++ st.fresh) st.operands v.2 (⟨(w :: ws).take k, options⟩ :: v.1) =
      options.map (fun o ↦ ⟨o.1, o.2, st.settled.argv⟩) ++ deliveries st.prog
        (st.opts ++ st.fresh ++ (w :: ws).take k) st.operands v.2 v.1 := by
  have hargv : st.settled.argv = st.prog :: (st.opts ++ st.fresh ++ st.operands ++
      ((w :: ws).take k ++ (v.1.flatMap Piece.words ++ v.2))) := by
    rw [words_of_parse hv, ← List.drop_cons (cluster_pos hcluster), List.take_append_drop, ← hrest]
    rfl
  rw [deliveries, if_neg (cluster_ne_nil (drop_ne_nil hop) hcluster), hargv]

/-- What holds of a state between two words. -/
def Delivers (optstring : Text) (st : State) : Prop := ∀ ds, Runs optstring st ds ↔
  ∃ v, parse optstring st.rest = some v ∧
    ds = deliveries st.prog (st.opts ++ st.fresh) st.operands v.2 v.1

/-- At the end. -/
theorem delivers_of_end (h : st.nextchar = []) (hrest : st.rest = []) :
    Delivers optstring st := by
  intro ds
  rw [runs_of_eof (getopt_of_end h hrest), hrest]
  simp [parse, deliveries]

/-- In front of `--`. -/
theorem delivers_of_dashes {ws : List Text} (h : st.nextchar = [])
    (hrest : st.rest = "--".toList :: ws) : Delivers optstring st := by
  intro ds
  obtain ⟨st', hst'⟩ : ∃ st', getopt optstring st = (.eof, st') := getopt_of_dashes h hrest
  rw [runs_of_eof hst', hrest, parse_dashes]
  simp [deliveries]

/-- In front of an operand, which joins those that have been passed over. -/
theorem delivers_of_operand {w : Text} {ws : List Text} (h : st.nextchar = [])
    (hrest : st.rest = w :: ws) (hop : isOperand w = true)
    (ih : Delivers optstring { st.settled with operands := st.operands ++ [w], rest := ws }) :
    Delivers optstring st := by
  intro ds
  have hih : Runs optstring { st.settled with operands := st.operands ++ [w], rest := ws } ds ↔
      ∃ v, parse optstring ws = some v ∧ ds = deliveries st.prog (st.opts ++ st.fresh ++ [])
        (st.operands ++ [w]) v.2 v.1 := ih ds
  rw [runs_congr (getopt_of_operand h hrest hop), hih, hrest, parse_operand hop, List.append_nil]
  constructor
  · rintro ⟨v, hv, rfl⟩
    exact ⟨(⟨[w], []⟩ :: v.1, v.2), by rw [hv]; rfl, rfl⟩
  · rintro ⟨v, hv, rfl⟩
    obtain ⟨v', hv', rfl⟩ := Option.map_eq_some_iff.1 hv
    exact ⟨v', hv', rfl⟩

/-- In front of a word of options, which joins the options. -/
theorem delivers_of_word {w : Text} {ws : List Text} (h : st.nextchar = [])
    (hrest : st.rest = w :: ws) (hop : isOperand w = false) (hdashes : w ≠ "--".toList)
    (ih : ∀ k, 1 ≤ k → Delivers optstring (st.settled.advance k)) : Delivers optstring st := by
  intro ds
  have hstep (k : ℕ) (hk : 1 ≤ k) (ds' : List Delivery) :
      Runs optstring (st.settled.advance k) ds' ↔
        ∃ v, parse optstring (ws.drop (k - 1)) = some v ∧ ds' = deliveries st.prog
          (st.opts ++ st.fresh ++ (w :: ws).take k) st.operands v.2 v.1 := by
    have hdrop : (st.settled.advance k).rest = ws.drop (k - 1) := by
      rw [← List.drop_cons hk, ← hrest]
      rfl
    rw [ih k hk ds', hdrop]
    simp [State.advance, State.settled, hrest]
  rw [runs_of_word h hrest hop hdashes, hrest]
  constructor
  · rintro ⟨options, k, ds', hcluster, rfl, hr⟩
    obtain ⟨v, hv, rfl⟩ := (hstep k (cluster_pos hcluster) ds').1 hr
    exact ⟨_, (parse_cluster hop hdashes).2 ⟨options, k, v, hcluster, hv, rfl⟩,
      (deliveries_of_cluster hrest hop hcluster hv).symm⟩
  · rintro ⟨v, hv, rfl⟩
    obtain ⟨options, k, v', hcluster, hv', rfl⟩ := (parse_cluster hop hdashes).1 hv
    exact ⟨options, k, _, hcluster, deliveries_of_cluster hrest hop hcluster hv',
      (hstep k (cluster_pos hcluster) _).2 ⟨v', hv', rfl⟩⟩

/-- **Between two words** the state delivers what the rest is parsed into. -/
theorem delivers (n : ℕ) : ∀ st : State, st.rest.length ≤ n → st.nextchar = [] →
    Delivers optstring st := by
  induction n with
  | zero =>
    intro st hn h
    exact delivers_of_end h (List.length_eq_zero_iff.1 (Nat.le_zero.1 hn))
  | succ n ih =>
    intro st hn h
    rcases hrest : st.rest with _ | ⟨w, ws⟩
    · exact delivers_of_end h hrest
    · rw [hrest, List.length_cons] at hn
      rcases hop : isOperand w with _ | _
      · by_cases hdashes : w = "--".toList
        · exact delivers_of_dashes h (hdashes ▸ hrest)
        · refine delivers_of_word h hrest hop hdashes fun k hk ↦ ih _ ?_ rfl
          have hlen : (st.settled.advance k).rest.length = (w :: ws).length - k := by
            rw [← hrest]
            exact List.length_drop
          rw [hlen, List.length_cons]
          omega
      · exact delivers_of_operand h hrest hop (ih _ (Nat.le_of_succ_le_succ hn) h)

/-- **What is delivered.**  The calls come to the end without an error if and only if the command
line can be parsed, and then the options are those it is parsed into. -/
theorem runs_iff (prog : Text) (words : List Text) : Runs optstring (.init prog words) ds ↔
    ∃ v, parse optstring words = some v ∧ ds = deliveries prog [] [] v.2 v.1 :=
  delivers words.length (.init prog words) (Nat.le_refl _) rfl ds

/-- No word is lost when they are rearranged. -/
theorem perm_of_mem_deliveries {prog : Text} {tail : List Text} {d : Delivery} (ps : List Piece) :
    ∀ opts operands, d ∈ deliveries prog opts operands tail ps →
      d.argv.Perm (prog :: (opts ++ operands ++ (ps.flatMap Piece.words ++ tail))) := by
  induction ps with
  | nil => exact fun _ _ h ↦ absurd h List.not_mem_nil
  | cons p ps ih =>
    intro opts operands h
    rw [deliveries] at h
    rw [List.flatMap_cons]
    split at h
    · have hperm := ih _ _ h
      simpa only [List.append_assoc] using hperm
    · rcases List.mem_append.1 h with h | h
      · obtain ⟨o, -, rfl⟩ := List.mem_map.1 h
        simp only [List.append_assoc]
        exact List.Perm.refl _
      · have hperm := ih _ _ h
        have hswap : (p.words ++ operands).Perm (operands ++ p.words) := List.perm_append_comm
        have hrest := (hswap.append_right (ps.flatMap Piece.words ++ tail)).append_left opts
        refine hperm.trans (List.Perm.cons _ ?_)
        simpa only [List.append_assoc] using hrest

/-- As many options are delivered as the pieces have. -/
theorem length_deliveries {prog : Text} {tail : List Text} (ps : List Piece) :
    ∀ opts operands,
      (deliveries prog opts operands tail ps).length = (ps.flatMap Piece.options).length := by
  induction ps with
  | nil => exact fun _ _ ↦ rfl
  | cons p ps ih =>
    intro opts operands
    rw [deliveries, List.flatMap_cons, List.length_append]
    split
    · rename_i hnil
      rw [ih, hnil, List.length_nil, Nat.zero_add]
    · rw [List.length_append, List.length_map, ih]

/-- There are no more options than characters. -/
theorem length_le_of_runs {prog : Text} {words : List Text}
    (h : Runs optstring (.init prog words) ds) : ds.length ≤ words.flatten.length := by
  obtain ⟨v, hv, rfl⟩ := (runs_iff prog words).1 h
  rw [length_deliveries]
  refine parse_induction (P := fun ws ps _ ↦ (ps.flatMap Piece.options).length ≤ ws.flatten.length)
    (Nat.le_refl 0) (fun _ ↦ Nat.zero_le _) ?_ ?_ words.length words v (Nat.le_refl _) hv
  · intro w ws ps tail _ ih
    simp only [List.flatMap_cons, List.nil_append, List.flatten_cons, List.length_append]
    omega
  · intro w ws options k ps tail _ hcluster ih
    have hoptions := length_cluster_le hcluster
    have hdrop : (ws.drop (k - 1)).flatten.length ≤ ws.flatten.length := by
      rw [← congrArg List.flatten (List.take_append_drop (k - 1) ws), List.flatten_append,
        List.length_append]
      exact Nat.le_add_left _ _
    rw [List.length_drop] at hoptions
    simp only [List.flatMap_cons, List.flatten_cons, List.length_append]
    omega

/-! ## In a loop

A caller that does something else between two calls cannot use `runs_iff`.  What it needs of a
single call is here: a measure that decreases, the number of words, and the place where options go
to.
-/

/-- How many characters have not been read. -/
def State.todo (st : State) : ℕ :=
  if st.nextchar = [] then st.rest.flatten.length
  else st.nextchar.length + (st.rest.drop 1).flatten.length

/-- There are not more characters in fewer words. -/
theorem flatten_drop_le (k : ℕ) (ws : List Text) :
    (ws.drop k).flatten.length ≤ ws.flatten.length := by
  rw [← congrArg List.flatten (List.take_append_drop k ws), List.flatten_append, List.length_append]
  exact Nat.le_add_left _ _

/-- What is left behind a word. -/
theorem todo_advance_le {k : ℕ} (hk : 1 ≤ k) (st : State) :
    (st.advance k).todo ≤ (st.rest.drop 1).flatten.length := by
  have hdrop : st.rest.drop k = (st.rest.drop 1).drop (k - 1) := by
    rw [List.drop_drop, Nat.add_sub_cancel' hk]
  have hnext : (st.advance k).nextchar = [] := rfl
  rw [State.todo, if_pos hnext, State.advance, hdrop]
  exact flatten_drop_le _ _

/-- A word is taken, or the next character of it. -/
theorem shortOption_cases (optstring : Text) (hnext : st.nextchar ≠ []) : ∃ r, r ≠ .eof ∧
    ((∃ k, 1 ≤ k ∧ shortOption optstring st = (r, st.advance k)) ∨
      ∃ c cs, cs ≠ [] ∧ st.nextchar = c :: cs ∧
        shortOption optstring st = (r, { st with nextchar := cs })) := by
  rcases hcs : st.nextchar with _ | ⟨c, cs⟩
  · exact absurd hcs hnext
  · have hbehind : st.behind cs = st.advance 1 ∨
        cs ≠ [] ∧ st.behind cs = { st with nextchar := cs } := by
      rw [State.behind]
      split
      · exact .inl rfl
      · rename_i hne
        exact .inr ⟨hne, rfl⟩
    have hword (r : Result) (hr : r ≠ .eof) : ∃ r', r' ≠ .eof ∧
        ((∃ k, 1 ≤ k ∧ (r, st.behind cs) = (r', st.advance k)) ∨ ∃ c' cs', cs' ≠ [] ∧
          c :: cs = c' :: cs' ∧ (r, st.behind cs) = (r', { st with nextchar := cs' })) := by
      rcases hbehind with h | ⟨hne, h⟩
      · exact ⟨r, hr, .inl ⟨1, Nat.le_refl 1, by rw [h]⟩⟩
      · exact ⟨r, hr, .inr ⟨c, cs, hne, rfl, by rw [h]⟩⟩
    simp only [shortOption, hcs]
    split
    · exact hword _ (by simp)
    · exact hword _ (by simp)
    · split
      · exact ⟨_, by simp, .inl ⟨1, Nat.le_refl 1, rfl⟩⟩
      · split
        · exact ⟨_, by simp, .inl ⟨1, Nat.le_refl 1, rfl⟩⟩
        · exact ⟨_, by simp, .inl ⟨2, Nat.le_succ 1, rfl⟩⟩

/-- What a call does between two words: the end, or the options of the next word. -/
theorem getopt_cases (optstring : Text) (st : State) :
    (st.nextchar ≠ [] ∧ getopt optstring st = shortOption optstring st) ∨
    (st.nextchar = [] ∧ st.permute.rest = [] ∧ getopt optstring st = (.eof, st.permute)) ∨
    (st.nextchar = [] ∧ ∃ w ws, st.permute.rest = w :: ws ∧ isOperand w = false ∧
      (getopt optstring st = (.eof, { st.permute with
          opts := st.permute.opts ++ [w]
          operands := st.permute.operands ++ ws
          rest := [] }) ∨
        getopt optstring st = shortOption optstring { st.permute with nextchar := w.drop 1 })) := by
  by_cases hnext : st.nextchar = []
  · refine .inr ?_
    rw [getopt, if_neg (by simpa using hnext)]
    rcases hrest : st.permute.rest with _ | ⟨w, ws⟩
    · exact .inl ⟨hnext, rfl, rfl⟩
    · have hop : isOperand w = false := by
        have hhead := List.head?_dropWhile_not isOperand st.rest
        rw [show st.rest.dropWhile isOperand = w :: ws from hrest] at hhead
        simpa using hhead
      refine .inr ⟨hnext, w, ws, rfl, hop, ?_⟩
      dsimp only
      split
      · exact .inl rfl
      · exact .inr rfl
  · exact .inl ⟨hnext, getopt_of_nextchar hnext⟩

/-- Only operands are left. -/
theorem getopt_of_permute_nil (hnext : st.nextchar = []) (hrest : st.permute.rest = []) :
    getopt optstring st = (.eof, st.permute) := by
  rw [getopt, if_neg (by simpa using hnext)]
  simp only [hrest]

/-- `--` comes behind the operands that are passed over. -/
theorem getopt_of_permute_dashes {ws : List Text} (hnext : st.nextchar = [])
    (hrest : st.permute.rest = "--".toList :: ws) :
    getopt optstring st = (.eof, { st.permute with
      opts := st.permute.opts ++ ["--".toList]
      operands := st.permute.operands ++ ws
      rest := [] }) := by
  rw [getopt, if_neg (by simpa using hnext)]
  simp only [hrest, if_true]

/-- An option takes at least its character. -/
theorem todo_shortOption_lt (hnext : st.nextchar ≠ []) :
    (shortOption optstring st).2.todo < st.todo := by
  have htodo : st.todo = st.nextchar.length + (st.rest.drop 1).flatten.length := if_neg hnext
  obtain ⟨r, -, ⟨k, hk, h⟩ | ⟨c, cs, hcs, hcons, h⟩⟩ := shortOption_cases optstring hnext
  · have hle := todo_advance_le hk st
    have hpos := List.length_pos_of_ne_nil hnext
    rw [h, htodo]
    dsimp only
    omega
  · have htodo' : State.todo { st with nextchar := cs } =
        cs.length + (st.rest.drop 1).flatten.length := if_neg hcs
    rw [h, htodo', htodo, hcons, List.length_cons]
    omega

/-- Operands that are passed over need not be read. -/
theorem flatten_permute_le (st : State) :
    st.permute.rest.flatten.length ≤ st.rest.flatten.length := by
  have hsplit := congrArg (fun ws ↦ (List.flatten ws).length)
    (List.takeWhile_append_dropWhile (p := isOperand) (l := st.rest))
  simp only [List.flatten_append, List.length_append] at hsplit
  exact hsplit ▸ Nat.le_add_left _ _

/-- There is less to be read after each option, so a loop comes to its end. -/
theorem todo_lt_of_option {c : Char} {optarg : Option Text}
    (h : getopt optstring st = (.option c optarg, st')) : st'.todo < st.todo := by
  rcases getopt_cases optstring st with ⟨hnext, hs⟩ | ⟨-, -, hs⟩ |
    ⟨hnext, w, ws, hrest, hop, hs | hs⟩
  · have hlt : (shortOption optstring st).2.todo < st.todo := todo_shortOption_lt hnext
    rwa [← hs, h] at hlt
  · rw [h] at hs
    exact absurd (congrArg Prod.fst hs) (by simp)
  · rw [h] at hs
    exact absurd (congrArg Prod.fst hs) (by simp)
  · have hdrop := drop_ne_nil hop
    have hlt : (shortOption optstring { st.permute with nextchar := w.drop 1 }).2.todo <
        State.todo { st.permute with nextchar := w.drop 1 } := todo_shortOption_lt hdrop
    have hinner : State.todo { st.permute with nextchar := w.drop 1 } =
        (w.drop 1).length + (st.permute.rest.drop 1).flatten.length := if_neg hdrop
    have htodo : st.todo = st.rest.flatten.length := if_pos hnext
    have hle := flatten_permute_le st
    rw [← hs, h, hinner, hrest, List.drop_succ_cons, List.drop_zero, List.length_drop] at hlt
    rw [hrest, List.flatten_cons, List.length_append] at hle
    rw [htodo]
    dsimp only at hlt
    omega

/-- Within a word nothing moves. -/
theorem argv_shortOption (hnext : st.nextchar ≠ []) :
    (shortOption optstring st).2.argv = st.argv := by
  obtain ⟨r, -, ⟨k, -, h⟩ | ⟨c, cs, -, -, h⟩⟩ := shortOption_cases optstring hnext
  · rw [h, argv_advance]
  · rw [h]
    rfl

/-- The exchange keeps the number of words. -/
theorem length_argv_permute (st : State) : st.permute.argv.length = st.argv.length := by
  have hsplit := congrArg List.length
    (List.takeWhile_append_dropWhile (p := isOperand) (l := st.rest))
  simp only [List.length_append] at hsplit
  simp only [State.argv, State.permute, List.length_cons, List.length_append, List.length_nil]
  omega

/-- No word is lost or added. -/
theorem length_argv_getopt (st : State) :
    (getopt optstring st).2.argv.length = st.argv.length := by
  rcases getopt_cases optstring st with ⟨hnext, hs⟩ | ⟨-, -, hs⟩ |
    ⟨-, w, ws, hrest, hop, hs | hs⟩
  · rw [hs, argv_shortOption hnext]
  · rw [hs, length_argv_permute]
  · rw [hs, ← length_argv_permute st]
    simp only [State.argv, hrest, List.length_cons, List.length_append, List.length_nil]
    omega
  · have hargv : State.argv { st.permute with nextchar := w.drop 1 } = st.permute.argv := rfl
    rw [hs, argv_shortOption (drop_ne_nil hop), hargv, length_argv_permute]

/-- Where the calls end everything has been looked at. -/
theorem end_of_eof (h : getopt optstring st = (.eof, st')) :
    st'.fresh = [] ∧ st'.rest = [] ∧ st'.nextchar = [] := by
  rcases getopt_cases optstring st with ⟨hnext, hs⟩ | ⟨hnext, hrest, hs⟩ |
    ⟨hnext, w, ws, hrest, hop, hs | hs⟩
  · obtain ⟨r, hr, ⟨k, -, h'⟩ | ⟨c, cs, -, -, h'⟩⟩ := shortOption_cases optstring hnext
    · rw [hs, h'] at h
      exact absurd (congrArg Prod.fst h) hr
    · rw [hs, h'] at h
      exact absurd (congrArg Prod.fst h) hr
  · obtain rfl := congrArg Prod.snd (hs.symm.trans h)
    exact ⟨rfl, hrest, hnext⟩
  · obtain rfl := congrArg Prod.snd (hs.symm.trans h)
    exact ⟨rfl, rfl, hnext⟩
  · have hword : State.nextchar { st.permute with nextchar := w.drop 1 } ≠ [] := drop_ne_nil hop
    obtain ⟨r, hr, ⟨k, -, h'⟩ | ⟨c, cs, -, -, h'⟩⟩ := shortOption_cases optstring hword
    · rw [hs, h'] at h
      exact absurd (congrArg Prod.fst h) hr
    · rw [hs, h'] at h
      exact absurd (congrArg Prod.fst h) hr

/-- Behind `pre` stands a word that is no operand, among those that are in front of the operands or
will be moved there. -/
def Ahead (pre : List Text) (st : State) : Prop := ∃ w tail, isOperand w = false ∧
  st.opts ++ st.fresh ++ (if st.nextchar = [] then [] else st.rest.take 1) = pre ++ w :: tail

variable {pre : List Text}

/-- Taking an option off does not put anything in front. -/
theorem Ahead.shortOption (h : Ahead pre st) (hnext : st.nextchar ≠ []) :
    Ahead pre (shortOption optstring st).2 := by
  obtain ⟨w, tail, hop, heq⟩ := h
  rw [if_neg hnext] at heq
  obtain ⟨r, -, ⟨k, hk, hs⟩ | ⟨c, cs, hcs, -, hs⟩⟩ := shortOption_cases optstring hnext
  · refine ⟨w, tail ++ (st.rest.drop 1).take (k - 1), hop, ?_⟩
    have htake : st.rest.take k = st.rest.take 1 ++ (st.rest.drop 1).take (k - 1) := by
      rw [← List.take_add, Nat.add_sub_cancel' hk]
    have hend : (st.advance k).nextchar = [] := rfl
    rw [hs, if_pos hend, State.advance, htake, List.append_nil, ← List.append_assoc,
      ← List.append_assoc, heq, List.append_assoc, List.cons_append]
  · exact ⟨w, tail, hop, by rw [hs, if_neg hcs]; exact heq⟩

/-- The next word that is no operand is moved in front of the operands. -/
theorem ahead_of_permute {w : Text} {ws : List Text} (hrest : st.permute.rest = w :: ws)
    (hop : isOperand w = false) :
    Ahead (st.opts ++ st.fresh) { st.permute with nextchar := w.drop 1 } := by
  refine ⟨w, [], hop, ?_⟩
  rw [if_neg (drop_ne_nil hop), hrest]
  simp [State.permute]

/-- What stands behind more stands behind less. -/
theorem Ahead.weaken {more : List Text} (h : Ahead (pre ++ more) st)
    (hmore : ∀ w ∈ more.head?, isOperand w = false) : Ahead pre st := by
  obtain ⟨w, tail, hop, heq⟩ := h
  rcases more with _ | ⟨w', more⟩
  · exact ⟨w, tail, hop, by rw [heq, List.append_nil]⟩
  · exact ⟨w', more ++ w :: tail, hmore w' rfl, by rw [heq, List.append_assoc, List.cons_append]⟩

/-- **Options are moved to the front**: behind `pre`, once and for all. -/
theorem Ahead.getopt (h : Ahead pre st) : Ahead pre (getopt optstring st).2 := by
  rcases getopt_cases optstring st with ⟨hnext, hs⟩ | ⟨hnext, hrest, hs⟩ |
    ⟨hnext, w, ws, hrest, hop, hs | hs⟩
  · rw [hs]
    exact h.shortOption hnext
  all_goals
    obtain ⟨w', tail, hop', heq⟩ := h
    rw [if_pos hnext, List.append_nil] at heq
    rw [hs]
  · exact ⟨w', tail, hop', by simpa [State.permute, hnext] using heq⟩
  · refine ⟨w', tail ++ [w], hop', ?_⟩
    simp [State.permute, hnext, heq]
  · have hw := ahead_of_permute hrest hop
    rw [heq] at hw
    exact (hw.weaken fun _ hm ↦ Option.some.inj hm ▸ hop').shortOption (drop_ne_nil hop)

/-- So is the first one behind operands. -/
theorem ahead_getopt (hnext : st.nextchar = []) (hrest : st.rest.dropWhile isOperand ≠ []) :
    Ahead (st.opts ++ st.fresh) (Getopt.getopt optstring st).2 := by
  rcases getopt_cases optstring st with ⟨hn, hs⟩ | ⟨-, hnil, hs⟩ |
    ⟨-, w, ws, hcons, hop, hs | hs⟩
  · exact absurd hnext hn
  · exact absurd hnil hrest
  · rw [hs]
    exact ⟨w, [], hop, by simp [State.permute, hnext]⟩
  · rw [hs]
    exact (ahead_of_permute hcons hop).shortOption (drop_ne_nil hop)

end Getopt
