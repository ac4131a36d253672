import NctuUnix.Lib.Getopt
import NctuUnix.Hw1.Print

/-!
# The options of `lsof`

`main` of `hw1.cpp` takes the options `-c`, `-t` and `-f` with `getopt`, but not their arguments
from `optarg`: the argument of option number `i`, counted from 0, is taken to be `argv[2 * i + 2]`.
That is where it stands if all the options up to it are words by themselves, with their arguments in
the next word.

## Main results

* `stores_iff` — on a command line that `getopt` accepts, the loop stores what belongs to each
  option and stays within `argv` if and only if the words are there, as the vector is arranged when
  their turn comes, or the program is right to refuse the argument of a `-t`.
* `through_of_pairs` — so they are if the options are such pairs and the other words come behind.
* `Stored.filters` — what the loop has stored, as filters for a scan: `-t` has one of five types.
* `stores_fails` — `-cbash`, and `x -c bash`.
-/

set_option autoImplicit false

namespace Lsof

open Input Getopt

/-- The third argument of `getopt`. -/
def optstring : Text := "c:t:f:?".toList

/-- Which filter an option is for: 0, 1 or 2; `none`: the switch has no such case. -/
def slot? (opt : Char) : Option (Fin 3) := ['c', 't', 'f'].finIdxOf? opt

/-- `filter` and `filtargu`. -/
structure Stored where
  filter : Fin 3 → Bool
  filtargu : Fin 3 → Text

/-- They are global variables. -/
def Stored.init : Stored := ⟨fun _ ↦ false, fun _ ↦ []⟩

/-- Switches filter `k` on. -/
def Stored.set (k : Fin 3) (arg : Text) (a : Stored) : Stored :=
  ⟨Function.update a.filter k true, Function.update a.filtargu k arg⟩

/-- How the loop can break off. -/
inductive Stop
  /-- `Invalid TYPE option.` -/
  | invalidType
  /-- `argv[argc]` is used as a string, or a word behind it. -/
  | beyond
  deriving DecidableEq, Repr

/-- The switch. -/
def handle (opt : Char) (argv : List Text) (i : ℕ) (a : Stored) : Except Stop Stored :=
  match slot? opt with
  | none => .ok a
  | some k =>
    match argv[2 * i + 2]? with
    | none => .error .beyond
    | some w =>
      if opt == 't' && !types.contains w then .error .invalidType else .ok (a.set k w)

/-- The loop. -/
def optionLoop : ℕ → State → ℕ → Stored → Option (Except Stop Stored)
  | 0, _, _, _ => none
  | fuel + 1, st, i, a =>
    match getopt optstring st with
    | (.eof, _) => some (.ok a)
    | (.error _, st') => optionLoop fuel st' (i + 1) a
    | (.option opt _, st') =>
      match handle opt st'.argv i a with
      | .error stop => some (.error stop)
      | .ok a' => optionLoop fuel st' (i + 1) a'

/-- The loop of `main`; the words cannot hold more options than characters. -/
def options (prog : Text) (words : List Text) : Option (Except Stop Stored) :=
  optionLoop (words.flatten.length + 1) (.init prog words) 0 .init

variable {prog : Text} {words : List Text} {st : State} {ds : List Delivery}
  {n : Delivery × ℕ} {ns : List (Delivery × ℕ)} {k : Fin 3} {a : Stored}

/-! ## What should be stored -/

/-- The last option for filter `k`, with its number. -/
def last? (k : Fin 3) (ns : List (Delivery × ℕ)) : Option (Delivery × ℕ) :=
  ns.reverse.find? fun n ↦ slot? n.1.letter == some k

/-- The argument of some `-t` is no type. -/
def Invalid (ds : List Delivery) : Prop :=
  ∃ d ∈ ds, d.letter = 't' ∧ ∀ arg ∈ d.optarg, arg ∉ types

/-- The loop comes to its end with the argument of the last option for each filter, or refuses a
type that is none. -/
def Stores (ds : List Delivery) : Option (Except Stop Stored) → Prop
  | some (.ok a) => ∀ k, a.filter k = (last? k ds.zipIdx).isSome ∧
      ∀ n, last? k ds.zipIdx = some n → n.1.optarg = some (a.filtargu k)
  | some (.error .invalidType) => Invalid ds
  | some (.error .beyond) => False
  | none => False

/-- The word that is taken for the argument of an option. -/
def word? (n : Delivery × ℕ) : Option Text := n.1.argv[2 * n.2 + 2]?

/-- The switch goes through: there is a word in that place, and for `-t` it is a type. -/
structure Passes (words : List Text) (n : Delivery × ℕ) : Prop where
  inside : slot? n.1.letter ≠ none → 2 * n.2 + 2 ≤ words.length
  typed : n.1.letter = 't' → ∀ w ∈ word? n, w ∈ types

/-- All options pass, and for the last one for a filter the word is the right one. -/
structure Through (words : List Text) (ds : List Delivery) : Prop where
  passes : ∀ n ∈ ds.zipIdx, Passes words n
  last : ∀ k n, last? k ds.zipIdx = some n → word? n = n.1.optarg

/-- Behind options that pass there is a `-t` for which a word is found that is no type. -/
def Refused (words : List Text) (ns : List (Delivery × ℕ)) : Prop :=
  ∃ before n behind, ns = before ++ n :: behind ∧ (∀ m ∈ before, Passes words m) ∧
    n.1.letter = 't' ∧ ∃ w ∈ word? n, w ∉ types

/-! ## The loop goes through the options -/

/-- The switch for one option after the other. -/
def handleAll (a : Stored) : List (Delivery × ℕ) → Except Stop Stored
  | [] => .ok a
  | n :: ns =>
    match handle n.1.letter n.1.argv n.2 a with
    | .error stop => .error stop
    | .ok a' => handleAll a' ns

theorem optionLoop_of_runs (h : Runs optstring st ds) : ∀ fuel i a, ds.length < fuel →
    optionLoop fuel st i a = some (handleAll a (ds.zipIdx i)) := by
  induction h with
  | eof h =>
    intro fuel i a hfuel
    obtain ⟨fuel, rfl⟩ := Nat.exists_eq_add_of_lt hfuel
    rw [optionLoop, h]
    rfl
  | option h hr ih =>
    intro fuel i a hfuel
    obtain ⟨fuel, rfl⟩ := Nat.exists_eq_add_one_of_ne_zero (Nat.ne_zero_of_lt hfuel)
    rw [optionLoop, h, List.zipIdx_cons, handleAll]
    dsimp only
    split
    · rfl
    · exact ih fuel (i + 1) _ (Nat.lt_of_succ_lt_succ hfuel)

theorem options_of_runs (h : Runs optstring (.init prog words) ds) :
    options prog words = some (handleAll .init ds.zipIdx) :=
  optionLoop_of_runs h _ 0 _ (Nat.lt_succ_of_le (length_le_of_runs h))

/-- `argc` -/
theorem length_argv (h : Runs optstring (.init prog words) ds) (hn : n ∈ ds.zipIdx) :
    n.1.argv.length = words.length + 1 := by
  obtain ⟨v, hv, rfl⟩ := (runs_iff prog words).1 h
  have hmem := List.fst_mem_of_mem_zipIdx hn
  rw [(perm_of_mem_deliveries v.1 _ _ hmem).length_eq, words_of_parse hv]
  rfl

/-- The arrays after an option that passes. -/
def Stored.after (a : Stored) (n : Delivery × ℕ) : Stored :=
  match slot? n.1.letter with
  | none => a
  | some k => a.set k ((word? n).getD [])

theorem slot_t : slot? 't' = some 1 := rfl

theorem word_of_inside (hargc : n.1.argv.length = words.length + 1)
    (h : 2 * n.2 + 2 ≤ words.length) : ∃ w, word? n = some w :=
  ⟨_, List.getElem?_eq_getElem (by omega)⟩

theorem handle_of_passes (hargc : n.1.argv.length = words.length + 1) (h : Passes words n) :
    handle n.1.letter n.1.argv n.2 a = .ok (a.after n) := by
  rw [handle, Stored.after]
  rcases hslot : slot? n.1.letter with _ | k
  · rfl
  · obtain ⟨w, hw⟩ := word_of_inside hargc (h.inside (by simp [hslot]))
    have htyped : (n.1.letter == 't' && !types.contains w) = false := by
      simpa using fun ht ↦ h.typed ht w hw
    rw [word?] at hw
    simp only [word?, hw, htyped, Bool.false_eq_true, if_false, Option.getD_some]

theorem handle_of_refused {w : Text} (ht : n.1.letter = 't') (hw : word? n = some w)
    (htype : w ∉ types) : handle n.1.letter n.1.argv n.2 a = .error .invalidType := by
  have hcond : ('t' == 't' && !types.contains w) = true := by simpa using htype
  rw [word?] at hw
  rw [handle, ht, slot_t]
  simp only [hw, hcond, if_true]

theorem handle_of_beyond (hslot : slot? n.1.letter ≠ none) (h : n.1.argv.length ≤ 2 * n.2 + 2) :
    handle n.1.letter n.1.argv n.2 a = .error .beyond := by
  obtain ⟨k, hk⟩ := Option.ne_none_iff_exists'.1 hslot
  rw [handle, hk]
  simp only [List.getElem?_eq_none h]

/-- An option that does not pass ends the loop. -/
theorem handle_of_not_passes (hargc : n.1.argv.length = words.length + 1) (h : ¬ Passes words n) :
    (n.1.letter = 't' ∧ ∃ w ∈ word? n, w ∉ types) ∨
      handle n.1.letter n.1.argv n.2 a = .error .beyond := by
  by_cases hinside : slot? n.1.letter ≠ none → 2 * n.2 + 2 ≤ words.length
  · left
    by_contra hno
    exact h ⟨hinside, fun ht w hw ↦ by_contra fun htype ↦ hno ⟨ht, w, hw, htype⟩⟩
  · rw [Classical.not_imp] at hinside
    exact .inr (handle_of_beyond hinside.1 (by omega))

theorem handleAll_of_refused (hargc : ∀ n ∈ ns, n.1.argv.length = words.length + 1)
    (h : Refused words ns) : handleAll a ns = .error .invalidType := by
  obtain ⟨before, n, behind, rfl, hpasses, ht, w, hw, htype⟩ := h
  induction before generalizing a with
  | nil => rw [List.nil_append, handleAll, handle_of_refused ht hw htype]
  | cons m before ih =>
    rw [List.cons_append, handleAll,
      handle_of_passes (hargc m List.mem_cons_self) (hpasses m List.mem_cons_self)]
    exact ih (fun m' hm' ↦ hargc m' (List.mem_cons_of_mem _ hm'))
      fun m' hm' ↦ hpasses m' (List.mem_cons_of_mem _ hm')

/-- **How the loop ends.** -/
theorem handleAll_cases (hargc : ∀ n ∈ ns, n.1.argv.length = words.length + 1) :
    (∀ n ∈ ns, Passes words n) ∧ handleAll a ns = .ok (ns.foldl Stored.after a) ∨
      (¬ ∀ n ∈ ns, Passes words n) ∧
        (Refused words ns ∨ handleAll a ns = .error .beyond) := by
  induction ns generalizing a with
  | nil => exact .inl ⟨fun _ h ↦ absurd h List.not_mem_nil, rfl⟩
  | cons n ns ih =>
    have hn := hargc n List.mem_cons_self
    by_cases hp : Passes words n
    · rw [handleAll, handle_of_passes hn hp, List.foldl_cons, List.forall_mem_cons]
      rcases ih (a := a.after n) fun m hm ↦ hargc m (List.mem_cons_of_mem _ hm) with
        ⟨hall, heq⟩ | ⟨hall, ⟨before, m, behind, rfl, hbefore, hm⟩ | heq⟩
      · exact .inl ⟨⟨hp, hall⟩, heq⟩
      · refine .inr ⟨fun h ↦ hall h.2, .inl ⟨n :: before, m, behind, rfl, ?_, hm⟩⟩
        exact List.forall_mem_cons.2 ⟨hp, hbefore⟩
      · exact .inr ⟨fun h ↦ hall h.2, .inr heq⟩
    · refine .inr ⟨fun h ↦ hp (h n List.mem_cons_self), ?_⟩
      rcases handle_of_not_passes (a := a) hn hp with hrefused | hbeyond
      · exact .inl ⟨[], n, ns, rfl, fun _ h ↦ absurd h List.not_mem_nil, hrefused⟩
      · rw [handleAll, hbeyond]
        exact .inr rfl

/-! ## What is stored in the end -/

theorem last?_cons (k : Fin 3) (n : Delivery × ℕ) (ns : List (Delivery × ℕ)) :
    last? k (n :: ns) = (last? k ns).or (if slot? n.1.letter = some k then some n else none) := by
  simp only [last?, List.reverse_cons, List.find?_append, List.find?_singleton, beq_iff_eq]

theorem slot_of_last? (h : last? k ns = some n) : slot? n.1.letter = some k := by
  rw [last?] at h
  have hslot := List.find?_some h
  exact beq_iff_eq.1 hslot

theorem mem_of_last? (h : last? k ns = some n) : n ∈ ns :=
  List.mem_reverse.1 (List.mem_of_find?_eq_some h)

/-- An option for filter `k` sets it. -/
theorem after_same (h : slot? n.1.letter = some k) :
    (a.after n).filter k = true ∧ (a.after n).filtargu k = (word? n).getD [] := by
  rw [Stored.after, h]
  exact ⟨Function.update_self _ _ _, Function.update_self _ _ _⟩

/-- The others do not touch it. -/
theorem after_other (h : slot? n.1.letter ≠ some k) :
    (a.after n).filter k = a.filter k ∧ (a.after n).filtargu k = a.filtargu k := by
  rw [Stored.after]
  rcases hslot : slot? n.1.letter with _ | k'
  · exact ⟨rfl, rfl⟩
  · have hne : k ≠ k' := fun heq ↦ h (heq ▸ hslot)
    exact ⟨Function.update_of_ne hne _ _, Function.update_of_ne hne _ _⟩

theorem filter_foldl (ns : List (Delivery × ℕ)) : ∀ a : Stored,
    (ns.foldl Stored.after a).filter k = (a.filter k || (last? k ns).isSome) := by
  induction ns with
  | nil => simp [last?]
  | cons n ns ih =>
    intro a
    rw [List.foldl_cons, ih, last?_cons, Option.isSome_or]
    by_cases hslot : slot? n.1.letter = some k
    · simp [hslot, (after_same hslot).1]
    · simp [hslot, (after_other hslot).1]

theorem filtargu_foldl (ns : List (Delivery × ℕ)) : ∀ a : Stored,
    (ns.foldl Stored.after a).filtargu k =
      ((last? k ns).map fun n ↦ (word? n).getD []).getD (a.filtargu k) := by
  induction ns with
  | nil => simp [last?]
  | cons n ns ih =>
    intro a
    rw [List.foldl_cons, ih, last?_cons]
    rcases last? k ns with _ | m
    · by_cases hslot : slot? n.1.letter = some k
      · simp [hslot, (after_same hslot).2]
      · simp [hslot, (after_other hslot).2]
    · simp

/-- What is stored for options that pass is right if the last words are. -/
theorem stores_of_passes (hargc : ∀ n ∈ ds.zipIdx, n.1.argv.length = words.length + 1)
    (hall : ∀ n ∈ ds.zipIdx, Passes words n) :
    Stores ds (some (.ok (ds.zipIdx.foldl Stored.after .init))) ↔
      ∀ k n, last? k ds.zipIdx = some n → word? n = n.1.optarg := by
  have hstored {k : Fin 3} {n : Delivery × ℕ} (h : last? k ds.zipIdx = some n) :
      word? n = some ((ds.zipIdx.foldl Stored.after .init).filtargu k) := by
    have hslot : slot? n.1.letter ≠ none := by simp [slot_of_last? h]
    obtain ⟨w, hw⟩ := word_of_inside (hargc n (mem_of_last? h))
      ((hall n (mem_of_last? h)).inside hslot)
    rw [filtargu_foldl, h, Option.map_some, Option.getD_some, hw, Option.getD_some]
  constructor
  · exact fun hs k n hn ↦ (hstored hn).trans ((hs k).2 n hn).symm
  · intro hlast k
    refine ⟨filter_foldl _ _, fun n hn ↦ ?_⟩
    rw [← hlast k n hn, hstored hn]

/-- **What the loop stores.**  On a command line that `getopt` accepts, the loop stores the argument
of the last option for each filter, or refuses one that is no type, without a look behind the end of
`argv`, if and only if all options pass and the last ones find their arguments, or the loop stops
at a word that is no type while there is an argument that is none. -/
theorem stores_iff (h : Runs optstring (.init prog words) ds) :
    Stores ds (options prog words) ↔
      Through words ds ∨ Refused words ds.zipIdx ∧ Invalid ds := by
  rw [options_of_runs h]
  have hargc : ∀ n ∈ ds.zipIdx, n.1.argv.length = words.length + 1 := fun n ↦ length_argv h
  have hrefused (hr : Refused words ds.zipIdx) :
      handleAll .init ds.zipIdx = .error .invalidType := handleAll_of_refused hargc hr
  have hno {r : Except Stop Stored} (heq : handleAll .init ds.zipIdx = r)
      (hr : r ≠ .error .invalidType) : ¬ Refused words ds.zipIdx :=
    fun h ↦ hr (heq.symm.trans (hrefused h))
  rcases handleAll_cases (a := .init) hargc with ⟨hall, heq⟩ | ⟨hall, hr | heq⟩
  · have hnot := hno heq (by simp)
    rw [heq, stores_of_passes hargc hall]
    exact ⟨fun hlast ↦ .inl ⟨hall, hlast⟩, fun ht ↦ (ht.resolve_right fun hr ↦ hnot hr.1).last⟩
  · rw [hrefused hr]
    exact ⟨fun hi ↦ .inr ⟨hr, hi⟩, fun ht ↦ (ht.resolve_left fun ht ↦ hall ht.passes).2⟩
  · have hnot := hno heq (by simp)
    rw [heq]
    exact iff_of_false id fun ht ↦ ht.elim (fun ht ↦ hall ht.passes) fun ht ↦ hnot ht.1

/-- `lsof -t REG` -/
theorem stores_iff_reg :
    Stores [⟨'t', some "REG".toList, ["lsof".toList, "-t".toList, "REG".toList]⟩]
        (options "lsof".toList ["-t".toList, "REG".toList]) ↔
      Through ["-t".toList, "REG".toList]
          [⟨'t', some "REG".toList, ["lsof".toList, "-t".toList, "REG".toList]⟩] ∨
        Refused ["-t".toList, "REG".toList]
            [(⟨'t', some "REG".toList, ["lsof".toList, "-t".toList, "REG".toList]⟩, 0)] ∧
          Invalid [⟨'t', some "REG".toList, ["lsof".toList, "-t".toList, "REG".toList]⟩] :=
  stores_iff ((runs_iff _ _).2
    ⟨([⟨["-t".toList, "REG".toList], [('t', some "REG".toList)]⟩], []), by decide +kernel,
      by decide +kernel⟩)

/-- **Arguments that are not found.**  With `-cbash`, the string behind the last word is asked for;
with `x -c bash`, the filter is `-c`. -/
theorem stores_fails :
    (∃ ds, Runs optstring (.init "lsof".toList ["-cbash".toList]) ds ∧
      options "lsof".toList ["-cbash".toList] = some (.error .beyond) ∧
        ¬ Stores ds (options "lsof".toList ["-cbash".toList])) ∧
    ∃ ds, Runs optstring (.init "lsof".toList ["x".toList, "-c".toList, "bash".toList]) ds ∧
      ¬ Stores ds (options "lsof".toList ["x".toList, "-c".toList, "bash".toList]) := by
  constructor
  · refine ⟨[⟨'c', some "bash".toList, ["lsof".toList, "-cbash".toList]⟩], (runs_iff _ _).2
      ⟨([⟨["-cbash".toList], [('c', some "bash".toList)]⟩], []), by decide +kernel,
        by decide +kernel⟩, rfl, id⟩
  · refine ⟨[⟨'c', some "bash".toList, ["lsof".toList, "x".toList, "-c".toList, "bash".toList]⟩],
      (runs_iff _ _).2 ⟨([⟨["x".toList], []⟩,
        ⟨["-c".toList, "bash".toList], [('c', some "bash".toList)]⟩], []), by decide +kernel,
          by decide +kernel⟩, fun h ↦ ?_⟩
    exact absurd ((h 0).2 _ rfl) (by decide +kernel)

/-! ## Options in pairs -/

/-- Options with their arguments in the next words. -/
def pairs (ps : List (Char × Text)) : List Text := ps.flatMap fun p ↦ [['-', p.1], p.2]

/-- The piece of such an option. -/
def pairPiece (p : Char × Text) : Piece := ⟨[['-', p.1], p.2], [(p.1, some p.2)]⟩

theorem parse_operands {ws : List Text} (h : ∀ w ∈ ws, isOperand w = true) :
    parse optstring ws = some (ws.map fun w ↦ ⟨[w], []⟩, []) := by
  induction ws with
  | nil => rfl
  | cons w ws ih =>
    rw [parse_operand (h w List.mem_cons_self), ih fun w' hw' ↦ h w' (List.mem_cons_of_mem _ hw')]
    rfl

theorem takesArg?_of_slot {c : Char} (h : (slot? c).isSome = true) :
    takesArg? optstring c = some true := by
  have hmem : c = 'c' ∨ c = 't' ∨ c = 'f' := by
    rw [slot?, List.isSome_finIdxOf?] at h
    simpa using h
  rcases hmem with rfl | rfl | rfl
  · decide +kernel
  · decide +kernel
  · decide +kernel

theorem parse_pair {p : Char × Text} (h : (slot? p.1).isSome = true) (ws : List Text) :
    parse optstring (['-', p.1] :: p.2 :: ws) =
      (parse optstring ws).map fun v ↦ (pairPiece p :: v.1, v.2) := by
  have hcluster : cluster optstring (p.2 :: ws) (['-', p.1].drop 1) =
      some ([(p.1, some p.2)], 2) := by
    simp [cluster, takesArg?_of_slot h]
  have hop : isOperand ['-', p.1] = false := by simp [isOperand]
  have hdashes : ['-', p.1] ≠ "--".toList := by
    intro heq
    have hletter : p.1 = '-' := by simpa using heq
    rw [hletter] at h
    exact absurd h (by decide)
  rw [parse, if_neg (by simp [hop]), if_neg hdashes, hcluster]
  rfl

theorem parse_pairs {ps : List (Char × Text)} {operands : List Text}
    (hps : ∀ p ∈ ps, (slot? p.1).isSome = true) (h : ∀ w ∈ operands, isOperand w = true) :
    parse optstring (pairs ps ++ operands) =
      some (ps.map pairPiece ++ operands.map fun w ↦ ⟨[w], []⟩, []) := by
  induction ps with
  | nil => exact parse_operands h
  | cons p ps ih =>
    have hcons : pairs (p :: ps) ++ operands = ['-', p.1] :: p.2 :: (pairs ps ++ operands) := rfl
    rw [hcons, parse_pair (hps p List.mem_cons_self),
      ih fun p' hp' ↦ hps p' (List.mem_cons_of_mem _ hp')]
    rfl

theorem deliveries_operands (opts : List Text) (ws : List Text) : ∀ operands,
    deliveries prog opts operands [] (ws.map fun w ↦ ⟨[w], []⟩) = [] := by
  induction ws with
  | nil => exact fun _ ↦ rfl
  | cons w ws ih =>
    intro operands
    rw [List.map_cons, deliveries, if_pos rfl]
    exact ih _

theorem deliveries_pair (opts : List Text) (p : Char × Text) (ps : List Piece) :
    deliveries prog opts [] [] (pairPiece p :: ps) =
      ⟨p.1, some p.2, prog :: (opts ++ ['-', p.1] :: p.2 :: ps.flatMap Piece.words)⟩ ::
        deliveries prog (opts ++ [['-', p.1], p.2]) [] [] ps := by
  simp [deliveries, pairPiece]

/-- Each option finds its argument. -/
theorem word_of_pairs {operands : List Text} (ps : List (Char × Text)) :
    ∀ (opts : List Text) (i : ℕ), opts.length = 2 * i → ∀ n ∈ (deliveries prog opts [] []
      (ps.map pairPiece ++ operands.map fun w ↦ ⟨[w], []⟩)).zipIdx i,
        word? n = n.1.optarg ∧ ∃ p ∈ ps, n.1.letter = p.1 ∧ n.1.optarg = some p.2 := by
  induction ps with
  | nil =>
    intro opts i _ n hn
    rw [List.map_nil, List.nil_append, deliveries_operands] at hn
    exact absurd hn List.not_mem_nil
  | cons p ps ih =>
    intro opts i hi n hn
    rw [List.map_cons, List.cons_append, deliveries_pair, List.zipIdx_cons, List.mem_cons] at hn
    rcases hn with rfl | hn
    · refine ⟨?_, p, List.mem_cons_self, rfl, rfl⟩
      rw [word?, List.getElem?_cons_succ, List.getElem?_append_right (by omega), ← hi,
        Nat.add_sub_cancel_left]
      rfl
    · have hlen : (opts ++ [['-', p.1], p.2]).length = 2 * (i + 1) := by
        rw [List.length_append, hi]
        rfl
      obtain ⟨hw, p', hp', hletter⟩ := ih _ _ hlen n hn
      exact ⟨hw, p', List.mem_cons_of_mem _ hp', hletter⟩

/-- **Where the loop is right.**  Options with their arguments in the next words, and then the other
words. -/
theorem through_of_pairs {ps : List (Char × Text)} {operands : List Text}
    (hps : ∀ p ∈ ps, (slot? p.1).isSome = true) (htypes : ∀ p ∈ ps, p.1 = 't' → p.2 ∈ types)
    (h : ∀ w ∈ operands, isOperand w = true) :
    ∃ ds, Runs optstring (.init prog (pairs ps ++ operands)) ds ∧
      Through (pairs ps ++ operands) ds := by
  refine ⟨_, (runs_iff _ _).2 ⟨_, parse_pairs hps h, rfl⟩, ?_, ?_⟩
  · intro n hn
    have hargc := length_argv ((runs_iff _ _).2 ⟨_, parse_pairs hps h, rfl⟩) hn
    obtain ⟨hw, p, hp, hletter, hoptarg⟩ := word_of_pairs ps [] 0 rfl n hn
    refine ⟨fun _ ↦ ?_, fun ht w hmem ↦ ?_⟩
    · have hlt := (List.getElem?_eq_some_iff.1 (hw.trans hoptarg)).1
      omega
    · rw [hw, hoptarg, Option.mem_some_iff] at hmem
      exact hmem ▸ htypes p hp (hletter ▸ ht)
  · exact fun k n hn ↦ (word_of_pairs ps [] 0 rfl n (mem_of_last? hn)).1

/-! ## The filters of a scan -/

/-- What `main` has checked of `-t`. -/
def Stored.Typed (a : Stored) : Prop := Lsof.Typed a.filter a.filtargu

theorem eq_t_of_slot {opt : Char} (h : slot? opt = some 1) : opt = 't' := by
  rw [slot?, List.finIdxOf?_eq_some_iff] at h
  exact h.1.symm

theorem typed_handle {opt : Char} {argv : List Text} {i : ℕ} {a a' : Stored} (ha : a.Typed)
    (h : handle opt argv i a = .ok a') : a'.Typed := by
  rw [handle] at h
  rcases hslot : slot? opt with _ | k
  · simp only [hslot, Except.ok.injEq] at h
    exact h ▸ ha
  · rcases hword : argv[2 * i + 2]? with _ | w
    · simp [hslot, hword] at h
    · simp only [hslot, hword] at h
      split at h
      · exact absurd h (by simp)
      · rename_i htype
        obtain rfl := Except.ok.inj h
        intro hon
        by_cases hk : k = 1
        · obtain rfl := hk
          have hw : types.contains w = true := by simpa [eq_t_of_slot hslot] using htype
          have harg : (a.set 1 w).filtargu 1 = w := by simp [Stored.set]
          rw [harg]
          exact List.contains_iff_mem.1 hw
        · have hsame : (a.set k w).filter 1 = a.filter 1 := by simp [Stored.set, Ne.symm hk]
          have harg : (a.set k w).filtargu 1 = a.filtargu 1 := by simp [Stored.set, Ne.symm hk]
          rw [harg]
          exact ha (hsame ▸ hon)

theorem typed_optionLoop {a' : Stored} : ∀ (fuel : ℕ) (st : State) (i : ℕ) (a : Stored), a.Typed →
    optionLoop fuel st i a = some (.ok a') → a'.Typed := by
  intro fuel
  induction fuel with
  | zero => exact fun _ _ _ _ h ↦ absurd h (by simp [optionLoop])
  | succ fuel ih =>
    intro st i a ha h
    rw [optionLoop] at h
    split at h
    · exact Except.ok.inj (Option.some.inj h) ▸ ha
    · exact ih _ _ _ ha h
    · split at h
      · exact absurd h (by simp)
      · exact ih _ _ _ (typed_handle ha ‹_›) h

/-- **What comes out of the loop** has a type for `-t`. -/
theorem typed_options {prog : Text} {words : List Text} {a : Stored}
    (h : options prog words = some (.ok a)) : a.Typed :=
  typed_optionLoop _ _ _ _ (fun hon ↦ absurd hon (by decide)) h

/-- The filters of a scan, if all patterns are regular expressions. -/
def Stored.filters {regex : Regex} {prog : Text} {words : List Text} (a : Stored)
    (h : options prog words = some (.ok a))
    (hre : ∀ i, a.filter i = true → (regex (around (a.filtargu i))).isSome = true) :
    Filters regex :=
  ⟨a.filter, a.filtargu, hre, typed_options h⟩

end Lsof
