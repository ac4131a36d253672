import Mathlib.Data.List.TakeWhile
import NctuUnix.Lib.Getopt

/-!
# The options of `logger`

`main` of `hw2.cpp` takes its own options with `getopt` and then looks for the command to run: it is
what stands behind the first word `--` of the vector, as `getopt` has left it, and otherwise what
stands behind the name of the program.

## Main results

* `runs_given_iff` — a command line of the form that the usage text shows is obeyed if and only if
  the words in front of the command are none, or end in the first `--` there is, and nothing behind
  them can be taken for an option.
-/

set_option autoImplicit false

namespace Logger

open Input Getopt

/-! ## The program -/

/-- The third argument of `getopt`. -/
def optstring : Text := "o:p:".toList

/-- The environment variables that are set. -/
structure Env where
  LD_PRELOAD : Option Text
  LOGGER_OUTPUT : Option Text
  LOGGER_STDERR : Option Text
  deriving DecidableEq, Repr

/-- How `main` ends. -/
inductive Outcome
  /-- The usage text, behind the message of `getopt`. -/
  | usage
  /-- `no command given.` -/
  | noCommand
  /-- A child executes the first word with these arguments. -/
  | exec (env : Env) (cmd : List Text)
  deriving DecidableEq, Repr

/-- The switch. -/
def Env.handle (opt : Char) (optarg : Option Text) (env : Env) : Env :=
  if opt = 'o' then { env with LOGGER_OUTPUT := optarg }
  else if opt = 'p' then { env with LD_PRELOAD := optarg }
  else env

/-- What `main` sets at first. -/
def Env.preload (env : Env) : Env := { env with LD_PRELOAD := some "./logger.so".toList }

/-- What the child sets; `fd` is the duplicate of the standard error output. -/
def Env.child (fd : ℕ) (env : Env) : Env :=
  { env with LOGGER_STDERR := some (Nat.toDigits 10 fd) }

/-- The loop over the options. -/
def optionLoop : ℕ → State → Env → Option (Except Outcome (State × Env))
  | 0, _, _ => none
  | fuel + 1, st, env =>
    match getopt optstring st with
    | (.eof, st') => some (.ok (st', env))
    | (.error _, _) => some (.error .usage)
    | (.option opt optarg, st') => optionLoop fuel st' (env.handle opt optarg)

/-- `--`. -/
def dashes : Text := ['-', '-']

/-- Where the command starts. -/
def cmdIndex (argv : List Text) : ℕ :=
  match (argv.drop 1).findIdx? (· == dashes) with
  | none => 1
  | some i => (i + 1) + 1

/-- What comes behind the loop. -/
def launch (argc : ℕ) (argv : List Text) (env : Env) (fd : ℕ) : Outcome :=
  if cmdIndex argv = argc then .noCommand
  else .exec (env.child fd) (argv.drop (cmdIndex argv))

/-- `main`. -/
def main (prog : Text) (words : List Text) (env : Env) (fd : ℕ) : Option Outcome :=
  match optionLoop (words.flatten.length + 1) (.init prog words) env.preload with
  | none => none
  | some (.error outcome) => some outcome
  | some (.ok (st, env)) => some (launch (words.length + 1) st.argv env fd)

/-! ## Command lines -/

/-- `[-o file] [-p sopath] [--] cmd [cmd args ...]`.  Without the `--` a command that starts with
`-` would be an option. -/
structure CommandLine where
  options : List (Char × Text)
  known : ∀ o ∈ options, o.1 = 'o' ∨ o.1 = 'p'
  separated : Bool
  command : List Text
  plain : separated = false → ∀ w ∈ command.head?, isOperand w = true

/-- The words of some options. -/
def optionWords (options : List (Char × Text)) : List Text :=
  options.flatMap fun o ↦ [['-', o.1], o.2]

/-- The words in front of the command. -/
def CommandLine.front (cl : CommandLine) : List Text :=
  optionWords cl.options ++ if cl.separated then [dashes] else []

def CommandLine.words (cl : CommandLine) : List Text := cl.front ++ cl.command

/-- What some options set. -/
def Env.handleAll (options : List (Char × Text)) (env : Env) : Env :=
  options.foldl (fun env o ↦ env.handle o.1 (some o.2)) env

/-- The command is executed, if there is one. -/
def Outcome.ofCommand (env : Env) (cmd : List Text) : Outcome :=
  if cmd = [] then .noCommand else .exec env cmd

/-- What a command line means. -/
def CommandLine.meaning (cl : CommandLine) (env : Env) (fd : ℕ) : Outcome :=
  .ofCommand ((env.preload.handleAll cl.options).child fd) cl.command

/-- The words in front of the command are none, or end in the first `--`; and if they do not end in
the separator, no word of the command starts with `-`, but for `-` itself. -/
structure CommandLine.Clear (cl : CommandLine) : Prop where
  front : cl.front = [] ∨ ∃ before, cl.front = before ++ [dashes] ∧ dashes ∉ before
  operands : cl.separated = false → ∀ w ∈ cl.command, isOperand w = true

variable {st st' : State} {env env' : Env} {fd : ℕ} {cl : CommandLine} {prog : Text}

theorem toList_dashes : "--".toList = dashes := by decide

/-! ## The loop comes to its end -/

/-- There is an option for each round, so the rounds suffice. -/
theorem optionLoop_isSome (fuel : ℕ) : ∀ (st : State) (env : Env), st.todo < fuel →
    (optionLoop fuel st env).isSome = true := by
  induction fuel with
  | zero => exact fun _ _ h ↦ absurd h (Nat.not_lt_zero _)
  | succ fuel ih =>
    intro st env h
    rw [optionLoop]
    rcases hst : getopt optstring st with ⟨_ | ⟨c, optarg⟩ | c, st'⟩
    · rfl
    · have hlt := todo_lt_of_option hst
      exact ih _ _ (by omega)
    · rfl

theorem main_isSome (prog : Text) (words : List Text) (env : Env) (fd : ℕ) :
    (main prog words env fd).isSome = true := by
  have h : (optionLoop (words.flatten.length + 1) (.init prog words) env.preload).isSome = true :=
    optionLoop_isSome _ _ _ (Nat.lt_succ_self _)
  obtain ⟨r, hr⟩ := Option.isSome_iff_exists.1 h
  rw [main, hr]
  rcases r with outcome | ⟨st, env⟩ <;> rfl

/-! ## Over the options -/

theorem takesArg?_of_known {c : Char} (h : c = 'o' ∨ c = 'p') :
    takesArg? optstring c = some true := by
  rcases h with rfl | rfl <;> decide

theorem getopt_option {o : Char × Text} {rest : List Text} (ho : o.1 = 'o' ∨ o.1 = 'p')
    (hnext : st.nextchar = []) (hrest : st.rest = ['-', o.1] :: o.2 :: rest) :
    getopt optstring st = (.option o.1 (some o.2), { st with
      opts := st.opts ++ st.fresh, fresh := [['-', o.1], o.2], rest := rest, nextchar := [] }) := by
  have hop : isOperand ['-', o.1] = false := by simp [isOperand]
  have hdashes : ['-', o.1] ≠ "--".toList := by
    intro h
    rw [toList_dashes, dashes, List.cons.injEq, List.cons.injEq] at h
    rw [h.2.1] at ho
    exact absurd ho (by decide)
  have hword : State.nextchar { st.settled with nextchar := ['-', o.1].drop 1 } ≠ [] :=
    List.cons_ne_nil _ _
  rw [getopt_of_option hnext hrest hop hdashes, getopt_of_nextchar hword, shortOption]
  simp [takesArg?_of_known ho, State.settled, State.advance, hrest]

/-- The options are read off one by one. -/
theorem optionLoop_options (options : List (Char × Text)) : ∀ (st : State) (env : Env)
    (rest : List Text), (∀ o ∈ options, o.1 = 'o' ∨ o.1 = 'p') → st.nextchar = [] →
      st.rest = optionWords options ++ rest → ∃ st', st'.prog = st.prog ∧
        st'.opts ++ st'.fresh = st.opts ++ st.fresh ++ optionWords options ∧
        st'.operands = st.operands ∧ st'.rest = rest ∧ st'.nextchar = [] ∧
        ∀ fuel, optionLoop (fuel + options.length) st env = optionLoop fuel st'
          (env.handleAll options) := by
  induction options with
  | nil =>
    intro st env rest _ hnext hrest
    exact ⟨st, rfl, (List.append_nil _).symm, rfl, hrest, hnext, fun _ ↦ rfl⟩
  | cons o options ih =>
    intro st env rest hknown hnext hrest
    have hcall := getopt_option (hknown o List.mem_cons_self) hnext hrest
    obtain ⟨st', hprog, hopts, hoperands, hrest', hnext', hloop⟩ :=
      ih { st with opts := st.opts ++ st.fresh, fresh := [['-', o.1], o.2],
                   rest := optionWords options ++ rest, nextchar := [] }
        (env.handle o.1 (some o.2)) rest (fun o' ho' ↦ hknown o' (List.mem_cons_of_mem o ho')) rfl
        rfl
    refine ⟨st', hprog, ?_, hoperands, hrest', hnext', fun fuel ↦ ?_⟩
    · rw [hopts]
      simp [optionWords]
    · rw [List.length_cons, ← Nat.add_assoc, optionLoop, hcall]
      exact hloop fuel

/-- Behind the options the vector starts with them. -/
theorem exists_behind_options (cl : CommandLine) (prog : Text) (env : Env) : ∃ st' fuel,
    st'.prog = prog ∧ st'.opts ++ st'.fresh = optionWords cl.options ∧ st'.operands = [] ∧
    st'.rest = (if cl.separated then [dashes] else []) ++ cl.command ∧ st'.nextchar = [] ∧
    optionLoop (cl.words.flatten.length + 1) (.init prog cl.words) env.preload =
      optionLoop (fuel + 1) st' (env.preload.handleAll cl.options) := by
  obtain ⟨st', hprog, hopts, hoperands, hrest, hnext, hloop⟩ :=
    optionLoop_options cl.options (.init prog cl.words) env.preload _ cl.known rfl
      (List.append_assoc (optionWords cl.options) _ cl.command)
  have hlen : cl.options.length ≤ (optionWords cl.options).flatten.length := by
    induction cl.options with
    | nil => exact Nat.le_refl 0
    | cons o options ih =>
      rw [optionWords, List.flatMap_cons, List.flatten_append, List.length_append, List.length_cons]
      have hword : 1 ≤ [['-', o.1], o.2].flatten.length := by simp
      rw [optionWords] at ih
      omega
  have hle : cl.options.length ≤ cl.words.flatten.length := by
    rw [CommandLine.words, CommandLine.front, List.append_assoc, List.flatten_append,
      List.length_append]
    omega
  refine ⟨st', cl.words.flatten.length - cl.options.length, hprog, hopts, hoperands, hrest, hnext,
    ?_⟩
  rw [← hloop]
  congr 1
  omega

/-! ## Where the command is looked for -/

theorem launch_of_mem {before after : List Text} (h : dashes ∉ before) :
    launch ((before ++ dashes :: after).length + 1) (prog :: (before ++ dashes :: after)) env fd =
      .ofCommand (env.child fd) after := by
  have hfind : (before ++ dashes :: after).findIdx? (· == dashes) = some before.length := by
    rw [List.findIdx?_append, List.findIdx?_eq_none_iff.2 fun w hw ↦ ?_]
    · simp [List.findIdx?_cons]
    · exact beq_false_of_ne fun heq ↦ h (heq ▸ hw)
  have hindex : cmdIndex (prog :: (before ++ dashes :: after)) = before.length + 1 + 1 := by
    rw [cmdIndex, List.drop_succ_cons, List.drop_zero, hfind]
  have hlen : (before ++ dashes :: after).length = before.length + 1 + after.length := by
    simp
    omega
  have hdrop : (prog :: (before ++ dashes :: after)).drop (before.length + 1 + 1) = after := by
    rw [List.drop_succ_cons, List.drop_append, List.drop_of_length_le (by omega)]
    simp
  rw [launch, hindex, hlen, hdrop, Outcome.ofCommand]
  refine if_congr ?_ rfl rfl
  rw [← List.length_eq_zero_iff]
  omega

theorem launch_of_notMem {ws : List Text} (h : dashes ∉ ws) :
    launch (ws.length + 1) (prog :: ws) env fd =
      .ofCommand (env.child fd) ws := by
  have hfind : ws.findIdx? (· == dashes) = none :=
    List.findIdx?_eq_none_iff.2 fun w hw ↦ beq_false_of_ne fun heq ↦ h (heq ▸ hw)
  have hindex : cmdIndex (prog :: ws) = 1 := by
    rw [cmdIndex, List.drop_succ_cons, List.drop_zero, hfind]
  rw [launch, hindex, Outcome.ofCommand, List.drop_succ_cons, List.drop_zero]
  refine if_congr ?_ rfl rfl
  rw [← List.length_eq_zero_iff]
  omega

/-- Nothing may stand in front of the command. -/
theorem ofCommand_append_iff {front command : List Text} :
    Outcome.ofCommand env (front ++ command) = .ofCommand env command ↔ front = [] := by
  refine ⟨fun h ↦ ?_, fun h ↦ by rw [h, List.nil_append]⟩
  rw [Outcome.ofCommand, Outcome.ofCommand] at h
  split at h
  · rename_i hnil
    exact (List.append_eq_nil_iff.1 hnil).1
  · split at h
    · exact absurd h (by simp)
    · rw [Outcome.exec.injEq] at h
      have hlen := congrArg List.length h.2
      rw [List.length_append] at hlen
      exact List.length_eq_zero_iff.1 (by omega)

/-- The command is found if and only if there is nothing in front of it, or what there is ends in
the first `--`. -/
theorem launch_iff {front command : List Text} (h : dashes ∈ front ∨ dashes ∉ command) :
    launch ((front ++ command).length + 1) (prog :: (front ++ command)) env fd =
        .ofCommand (env.child fd) command ↔
      front = [] ∨ ∃ before, front = before ++ [dashes] ∧ dashes ∉ before := by
  by_cases hmem : dashes ∈ front
  · obtain ⟨before, after, rfl, hbefore⟩ := List.eq_append_cons_of_mem hmem
    rw [List.append_assoc, List.cons_append, launch_of_mem hbefore, ofCommand_append_iff]
    refine ⟨?_, ?_⟩
    · rintro rfl
      exact .inr ⟨before, rfl, hbefore⟩
    · rintro (hnil | ⟨before', heq, hbefore'⟩)
      · exact absurd hnil (by simp)
      · rcases List.eq_nil_or_concat after with hnil | ⟨after', w, rfl⟩
        · exact hnil
        · have hends : (before ++ dashes :: after') ++ [w] = before' ++ [dashes] := by
            rw [← heq]
            simp
          have hsplit := (List.append_inj' hends rfl).1
          exact absurd (hsplit ▸ List.mem_append_right before List.mem_cons_self) hbefore'
  · have hnone : dashes ∉ front ++ command := fun hm ↦ (List.mem_append.1 hm).elim hmem
      (h.resolve_left hmem)
    rw [launch_of_notMem hnone, ofCommand_append_iff]
    refine ⟨.inl, fun hor ↦ hor.resolve_right ?_⟩
    rintro ⟨before, rfl, -⟩
    exact hmem (List.mem_append_right before List.mem_cons_self)

/-! ## Command lines that are not permuted -/

/-- Behind the options stands the end: the separator, or nothing that looks like an option. -/
theorem main_of_operands (hoperands : cl.separated = false → ∀ w ∈ cl.command, isOperand w = true) :
    main prog cl.words env fd = some (launch ((cl.front ++ cl.command).length + 1)
      (prog :: (cl.front ++ cl.command)) (env.preload.handleAll cl.options) fd) := by
  obtain ⟨st', fuel, hprog, hopts, hops, hrest, hnext, hloop⟩ := exists_behind_options cl prog env
  have hend : ∃ st'', getopt optstring st' = (.eof, st'') ∧
      st''.argv = prog :: (cl.front ++ cl.command) := by
    rcases hsep : cl.separated with _ | _
    · have hall := hoperands hsep
      have htake : st'.rest.takeWhile isOperand = cl.command := by
        rw [hrest, hsep]
        exact List.takeWhile_eq_self_iff.2 hall
      have hdrop : st'.permute.rest = [] := by
        rw [State.permute, hrest, hsep]
        exact List.dropWhile_eq_nil_iff.2 hall
      refine ⟨st'.permute, getopt_of_permute_nil hnext hdrop, ?_⟩
      rw [State.argv, hdrop]
      simp [State.permute, hprog, hopts, hops, htake, CommandLine.front, hsep]
    · have hdrop : st'.permute.rest = "--".toList :: cl.command := by
        rw [State.permute, hrest, hsep, toList_dashes]
        rfl
      have htake : st'.rest.takeWhile isOperand = [] := by
        rw [hrest, hsep]
        rfl
      refine ⟨_, getopt_of_permute_dashes hnext hdrop, ?_⟩
      simp [State.argv, State.permute, hprog, hopts, hops, htake, CommandLine.front, hsep,
        toList_dashes]
  obtain ⟨st'', heof, hargv⟩ := hend
  have hround : optionLoop (fuel + 1) st' (env.preload.handleAll cl.options) =
      some (.ok (st'', env.preload.handleAll cl.options)) := by
    rw [optionLoop, heof]
  rw [main, hloop, hround]
  simp only [hargv, CommandLine.words]

/-! ## Command lines that are permuted -/

/-- What an option among the arguments does to the vector. -/
theorem optionLoop_ahead (pre : List Text) (fuel : ℕ) : ∀ (st : State) (env : Env),
    optionLoop fuel st env = some (.ok (st', env')) →
      st'.argv.length = st.argv.length ∧
      (Ahead pre st ∨ st.nextchar = [] ∧ st.rest.dropWhile isOperand ≠ [] ∧
        st.opts ++ st.fresh = pre → ∃ w tail, isOperand w = false ∧
          st'.argv = st'.prog :: (pre ++ w :: tail)) := by
  induction fuel with
  | zero => exact fun _ _ h ↦ absurd h (by simp [optionLoop])
  | succ fuel ih =>
    intro st env h
    have hahead (hst : Ahead pre st ∨ st.nextchar = [] ∧ st.rest.dropWhile isOperand ≠ [] ∧
        st.opts ++ st.fresh = pre) : Ahead pre (getopt optstring st).2 := by
      rcases hst with hst | ⟨hnext, hrest, rfl⟩
      · exact hst.getopt
      · exact ahead_getopt hnext hrest
    have hlen : (getopt optstring st).2.argv.length = st.argv.length := length_argv_getopt st
    rw [optionLoop] at h
    rcases hcall : getopt optstring st with ⟨_ | ⟨c, optarg⟩ | c, st₁⟩
    · rw [hcall] at hahead hlen
      simp only [hcall, Option.some.injEq, Except.ok.injEq, Prod.mk.injEq] at h
      obtain ⟨rfl, rfl⟩ := h
      refine ⟨hlen, fun hst ↦ ?_⟩
      obtain ⟨hfresh, hrest, hnext⟩ := end_of_eof hcall
      obtain ⟨w, tail, hop, heq⟩ := hahead hst
      dsimp only at heq
      rw [hfresh, if_pos hnext, List.append_nil, List.append_nil] at heq
      refine ⟨w, tail ++ st₁.operands, hop, ?_⟩
      rw [State.argv, hfresh, hrest, heq]
      simp
    · simp only [hcall] at h
      rw [hcall] at hahead hlen
      obtain ⟨hlen', hargv⟩ := ih st₁ _ h
      exact ⟨hlen'.trans hlen, fun hst ↦ hargv (.inl (hahead hst))⟩
    · simp [hcall] at h

/-- The loop breaks off in one way. -/
theorem optionLoop_error {outcome : Outcome} (fuel : ℕ) : ∀ (st : State) (env : Env),
    optionLoop fuel st env = some (.error outcome) → outcome = .usage := by
  induction fuel with
  | zero => exact fun _ _ h ↦ absurd h (by simp [optionLoop])
  | succ fuel ih =>
    intro st env h
    rw [optionLoop] at h
    rcases hcall : getopt optstring st with ⟨_ | ⟨c, optarg⟩ | c, st₁⟩
    · simp [hcall] at h
    · simp only [hcall] at h
      exact ih _ _ h
    · simp only [hcall, Option.some.injEq, Except.error.injEq] at h
      exact h.symm

/-- With an option among its arguments the command is not what is executed. -/
theorem main_ne_of_option (hsep : cl.separated = false)
    (hoption : ¬ ∀ w ∈ cl.command, isOperand w = true) :
    main prog cl.words env fd ≠ some (cl.meaning env fd) := by
  intro h
  obtain ⟨st', fuel, hprog, hopts, hops, hrest, hnext, hloop⟩ := exists_behind_options cl prog env
  rw [hsep] at hrest
  have hne : cl.command ≠ [] := fun hnil ↦ hoption fun w hw ↦ by simp [hnil] at hw
  have hdrop : st'.rest.dropWhile isOperand ≠ [] := by
    rw [hrest]
    exact fun hnil ↦ hoption (List.dropWhile_eq_nil_iff.1 hnil)
  rw [main, hloop, CommandLine.meaning, Outcome.ofCommand, if_neg hne] at h
  rcases hr : optionLoop (fuel + 1) st' (env.preload.handleAll cl.options) with _ |
    outcome | ⟨st'', env''⟩
  · simp [hr] at h
  · obtain rfl := optionLoop_error _ _ _ hr
    simp [hr] at h
  · obtain ⟨hlen, hargv⟩ := optionLoop_ahead (optionWords cl.options) _ _ _ hr
    obtain ⟨w, tail, hop, hargv⟩ := hargv (.inr ⟨hnext, hdrop, hopts⟩)
    have hargc : st''.argv.length = 1 + (optionWords cl.options).length + cl.command.length := by
      rw [hlen, State.argv, hrest, hops]
      have hoptsLen := congrArg List.length hopts
      simp only [List.length_append, List.length_cons, List.length_nil] at hoptsLen ⊢
      simp
      omega
    simp only [hr, Option.some.injEq, launch] at h
    split at h
    · exact absurd h (by simp)
    · rw [Outcome.exec.injEq] at h
      have hcmd := h.2
      have hcount := congrArg List.length hcmd
      have hpos := List.length_pos_of_ne_nil hne
      rw [List.length_drop, hargc] at hcount
      have hindex : cmdIndex st''.argv = (optionWords cl.options).length + 1 := by omega
      rw [hindex, hargv, List.drop_succ_cons, List.drop_left] at hcmd
      have hplain := cl.plain hsep w (by rw [← hcmd]; rfl)
      rw [hop] at hplain
      exact absurd hplain (by simp)

/-- **The command that is given** is run, with its arguments and the options in front of it, if and
only if there is nothing in front of it or what there is ends in the first `--`, and without the
separator there is nothing behind it that looks like an option. -/
theorem runs_given_iff (cl : CommandLine) (prog : Text) (env : Env) (fd : ℕ) :
    main prog cl.words env fd = some (cl.meaning env fd) ↔ cl.Clear := by
  by_cases hoperands : cl.separated = false → ∀ w ∈ cl.command, isOperand w = true
  · have hmem : dashes ∈ cl.front ∨ dashes ∉ cl.command := by
      rcases hsep : cl.separated with _ | _
      · exact .inr fun hm ↦ absurd (hoperands hsep _ hm) (by decide)
      · exact .inl (List.mem_append_right _ (by rw [hsep]; exact List.mem_cons_self))
    rw [main_of_operands hoperands, Option.some.injEq, CommandLine.meaning, launch_iff hmem]
    exact ⟨fun h ↦ ⟨h, hoperands⟩, CommandLine.Clear.front⟩
  · refine iff_of_false ?_ fun h ↦ hoperands h.operands
    obtain ⟨hsep, hoption⟩ := Classical.not_imp.1 hoperands
    exact main_ne_of_option hsep hoption

/-- `logger -o ls.txt ls` -/
def lsLogged : CommandLine where
  options := [('o', "ls.txt".toList)]
  known := by simp
  separated := false
  command := ["ls".toList]
  plain := by
    rintro - w hw
    obtain rfl := Option.some.inj hw
    decide

/-- `logger ls -al` -/
def lsLong : CommandLine where
  options := []
  known := by simp
  separated := false
  command := ["ls".toList, "-al".toList]
  plain := by
    rintro - w hw
    obtain rfl := Option.some.inj hw
    decide

/-- Without the separator the first one executes `-o`, and the second one refuses `-a`. -/
theorem runs_given_fails :
    main "logger".toList lsLogged.words ⟨none, none, none⟩ 3 =
      some (.exec ⟨some "./logger.so".toList, some "ls.txt".toList, some "3".toList⟩
        ["-o".toList, "ls.txt".toList, "ls".toList]) ∧
    main "logger".toList lsLong.words ⟨none, none, none⟩ 3 = some .usage ∧
    ¬ ∀ (cl : CommandLine) (prog : Text) (env : Env) (fd : ℕ),
      main prog cl.words env fd = some (cl.meaning env fd) := by
  refine ⟨by decide +kernel, by decide +kernel, fun h ↦ ?_⟩
  exact absurd (h lsLong "logger".toList ⟨none, none, none⟩ 3) (by decide +kernel)

end Logger
