import NctuUnix.Lib.Input
import NctuUnix.Hw4.Tiny

/-!
# The main loop

`main` takes its command lines from a script, when one is given with `-s`, and from the standard
input otherwise.  A turn of its loop reads a line, splits it and runs the command.  Only the branch
for a script looks at the result of `getline`: from the standard input the loop goes on after the
end of the text, with the line that is left in `cmd_line`.

## Main results

* `quits_script_iff` — a script is executed line by line up to the first `exit`, and the loop ends,
  as long as its commands return.
* `sources_agree_iff` — the standard input is executed like the script, and ends, exactly when there
  is an `exit` in it.
* `not_quits_stdin` — without one the loop does not end at all.
-/

set_option autoImplicit false

namespace Sdb

open Bytes Input

variable {ε : Type} {h : Host ε} {s : Sdb ε}

/-! ## Command lines -/

/-- `void split(const string cmd_line, vector<string> &cmd_table)` -/
def split (cmdLine : Text) : List String := (words cmdLine).map String.ofList

/-- The branch of `main` that a command line selects, with its arguments converted. -/
def parse (cmdLine : Text) : Command :=
  let cmdTable := split cmdLine
  let arg1 := cmdTable.getD 1 ""
  let arg2 := cmdTable.getD 2 ""
  match cmdTable.getD 0 "" with
  | "break" | "b" => if arg1.isEmpty then .noAddress else .break (strtoul16 arg1.toList)
  | "cont" | "c" => .cont
  | "delete" => if arg1.isEmpty then .noBreakpointId else .delete (atoi arg1.toList)
  | "disasm" | "d" => .disasm (strtoul16 arg1.toList)
  | "dump" | "x" => .dump (strtoul16 arg1.toList)
  | "exit" | "q" => .exit
  | "get" | "g" => .get arg1
  | "getregs" => .getregs
  | "help" | "h" => .help
  | "list" | "l" => .list
  | "load" => .load arg1
  | "run" | "r" => .run
  | "vmmap" | "m" => .vmmap
  | "set" | "s" =>
    if arg1.isEmpty || arg2.isEmpty then .notEnoughArguments else .set arg1 (strtoul16 arg2.toList)
  | "si" => .si
  | "start" => .start
  | _ => .nothing

/-! ## Turns of the loop -/

/-- Where the command lines come from. -/
inductive Source
  | script
  | stdin
  deriving DecidableEq, Repr

/-- The variables of `main`. -/
structure Repl (ε : Type) where
  dbg : Sdb ε
  /-- `f`, or `cin`. -/
  stream : IStream
  cmdLine : Text
  /-- How much had been printed at each prompt. -/
  prompts : List Nat

/-- What a turn comes to: the command that was executed, if any, and the variables, unless the
debugger ended. -/
inductive Turn (ε : Type)
  | next (cmd : Command) (m : Repl ε)
  | ended (cmd : Option Command) (e : Exit)

/-- The part of a turn that is common to both sources. -/
def dispatch (h : Host ε) (fuel : Nat) (m : Repl ε) : Option (Turn ε) :=
  match exec h fuel (parse m.cmdLine) m.dbg with
  | none => none
  | some (.error e) => some (.ended (some (parse m.cmdLine)) e)
  | some (.ok s) => some (.next (parse m.cmdLine) { m with dbg := s })

/-- One turn of `while(1)`; `none` when `fuel` is not enough for its command. -/
def turn (h : Host ε) (fuel : Nat) (src : Source) (m : Repl ε) : Option (Turn ε) :=
  let (stream, cmdLine) := getline m.stream m.cmdLine
  let m' := { m with stream := stream, cmdLine := cmdLine }
  match src with
  | .script => if stream.fail then some (.ended none .quit) else dispatch h fuel m'
  | .stdin => dispatch h fuel { m' with prompts := m.prompts ++ [m.dbg.log.length] }

/-- The loop executes the commands `cmds`, one a turn, and then ends with the `quit()` of `main`: at
an `exit`, or at the end of a script. -/
inductive Quits (h : Host ε) (src : Source) : Repl ε → List Command → Prop
  | endOfFile {m : Repl ε} {fuel : Nat} (ht : turn h fuel src m = some (.ended none .quit)) :
      Quits h src m []
  | exit {m : Repl ε} {fuel : Nat} (ht : turn h fuel src m = some (.ended (some .exit) .quit)) :
      Quits h src m [.exit]
  | turn {m m' : Repl ε} {cmd : Command} {cmds : List Command} {fuel : Nat}
      (ht : turn h fuel src m = some (.next cmd m')) (hq : Quits h src m' cmds) :
      Quits h src m (cmd :: cmds)

/-! ### Before the loop -/

/-- The text of a file. -/
def textOf (data : List Byte) : Text := data.map fun b ↦ Char.ofNat b.toNat

/-- The loop over `argv`: the script that is open, and the debugger. -/
def readArgs (h : Host ε) : List String → Option IStream → Sdb ε →
    Except Exit (Option IStream × Sdb ε)
  | [], f, s => .ok (f, s)
  | arg :: args, f, s =>
    if arg = "-s" then
      match args with
      | [] => .error .crash
      | scriptPath :: args =>
        match f, h.files ("./" ++ scriptPath) with
        | none, some data => readArgs h args (some (.open (textOf data))) s
        -- a stream that is open already cannot be opened
        | _, _ => .error (.error scriptPath)
    else
      match load h arg s with
      | .error e => .error e
      | .ok s => readArgs h args f s

/-- `main` before its first turn. -/
def main (h : Host ε) (args : List String) (cin : Text) : Except Exit (Source × Repl ε) :=
  match readArgs h args none init with
  | .error e => .error e
  | .ok (some f, s) => .ok (.script, ⟨s, f, [], []⟩)
  | .ok (none, s) => .ok (.stdin, ⟨s, .open cin, [], []⟩)

/-- The variables of `main` before its first turn, with a text still to be read. -/
def Repl.start (s : Sdb ε) (text : Text) : Repl ε := ⟨s, .open text, [], []⟩

theorem readArgs_cons {arg : String} {args : List String} {f : Option IStream} (hne : arg ≠ "-s") :
    readArgs h (arg :: args) f s =
      match load h arg s with
      | .error e => .error e
      | .ok s => readArgs h args f s := by
  rw [readArgs.eq_def]
  simp only [if_neg hne]

theorem readArgs_script {args : List String} {scriptPath : String} {data : List Byte} {s₀ : Sdb ε}
    (hno : "-s" ∉ args) (hf : h.files ("./" ++ scriptPath) = some data)
    (hs : readArgs h args none s₀ = .ok (none, s)) :
    readArgs h (args ++ ["-s", scriptPath]) none s₀ = .ok (some (.open (textOf data)), s) := by
  induction args generalizing s₀ with
  | nil =>
    simp only [readArgs, Except.ok.injEq, Prod.mk.injEq] at hs
    simp only [List.nil_append, readArgs, if_pos, hf, hs.2]
  | cons arg args ih =>
    have harg : arg ≠ "-s" := fun he ↦ hno (he ▸ List.mem_cons_self)
    rw [readArgs_cons harg] at hs
    rw [List.cons_append, readArgs_cons harg]
    split at hs
    · exact absurd hs (by simp)
    · exact ih (fun hin ↦ hno (List.mem_cons_of_mem arg hin)) hs

/-- A script is read from its file, after the same programs have been loaded. -/
theorem main_script {args : List String} {scriptPath : String} {data : List Byte} {cin cin' : Text}
    (hno : "-s" ∉ args) (hf : h.files ("./" ++ scriptPath) = some data)
    (hm : main h args cin = .ok (.stdin, .start s cin)) :
    main h (args ++ ["-s", scriptPath]) cin' = .ok (.script, .start s (textOf data)) := by
  have hread : readArgs h args none init = .ok (none, s) := by
    rw [main] at hm
    split at hm
    · exact absurd hm (by simp)
    · exact absurd hm (by simp)
    · rename_i s' hs'
      rw [Except.ok.injEq, Prod.mk.injEq, Repl.start, Repl.mk.injEq] at hm
      rw [hs', hm.2.1]
  rw [main, readArgs_script hno hf hread]
  rfl

/-! ## What a turn does -/

variable {src : Source} {m m' : Repl ε} {l : Text} {ls : List Text} {cmd : Command}
  {cmds : List Command} {fuel : Nat}

theorem dispatch_next :
    dispatch h fuel m = some (.next cmd m') ↔ cmd = parse m.cmdLine ∧
      ∃ s, exec h fuel (parse m.cmdLine) m.dbg = some (.ok s) ∧ m' = { m with dbg := s } := by
  rw [dispatch]
  split
  · simp [*]
  · simp [*]
  · simp [*, eq_comm]

theorem dispatch_ended {c : Option Command} {e : Exit} :
    dispatch h fuel m = some (.ended c e) ↔
      c = some (parse m.cmdLine) ∧ exec h fuel (parse m.cmdLine) m.dbg = some (.error e) := by
  rw [dispatch]
  split
  · simp [*]
  · simp [*, eq_comm]
  · simp [*]

/-- **A turn with a line to read**: from both sources it is that line which is executed. -/
theorem turn_line (src : Source) (ha : m.stream.Ahead (l :: ls)) :
    ∃ m', m'.dbg = m.dbg ∧ m'.cmdLine = l ∧ m'.stream.Ahead ls ∧
      ∀ fuel, turn h fuel src m = dispatch h fuel m' := by
  obtain ⟨is, hget, hfail, ha'⟩ := getline_cons m.cmdLine ha
  rcases src with _ | _
  · exact ⟨{ m with stream := is, cmdLine := l }, rfl, rfl, ha', fun fuel ↦ by
      simp [turn, hget, hfail]⟩
  · exact ⟨{ m with stream := is, cmdLine := l, prompts := m.prompts ++ [m.dbg.log.length] },
      rfl, rfl, ha', fun fuel ↦ by simp [turn, hget]⟩

/-- A script that has been read ends the loop. -/
theorem turn_script_end (fuel : Nat) (ha : m.stream.Ahead []) :
    turn h fuel .script m = some (.ended none .quit) := by
  obtain ⟨is, -, hfail, hget⟩ := getline_nil m.cmdLine ha
  rcases hget with hget | ⟨-, hget⟩ <;> simp [turn, hget, hfail]

/-- **The end of the standard input** is not noticed: a line is executed that has not been read, the
empty one, or the last one again if it was not terminated. -/
theorem turn_stdin_end (ha : m.stream.Ahead []) :
    ∃ m', m'.dbg = m.dbg ∧ (m'.cmdLine = [] ∨ m.stream.eof = true ∧ m'.cmdLine = m.cmdLine) ∧
      m'.stream.Ahead [] ∧ ∀ fuel, turn h fuel .stdin m = dispatch h fuel m' := by
  obtain ⟨is, heof, -, hget⟩ := getline_nil m.cmdLine ha
  rcases hget with hget | ⟨he, hget⟩
  · exact ⟨{ m with stream := is, cmdLine := [], prompts := m.prompts ++ [m.dbg.log.length] },
      rfl, .inl rfl, .inr ⟨heof, rfl⟩, fun fuel ↦ by simp [turn, hget]⟩
  · exact ⟨{ m with stream := is, prompts := m.prompts ++ [m.dbg.log.length] },
      rfl, .inr ⟨he, rfl⟩, .inr ⟨heof, rfl⟩, fun fuel ↦ by simp [turn, hget]⟩

/-- A loop whose next turn executes a line: it quits there, or the command returns and the loop
goes on. -/
theorem quits_of_dispatch (ht : ∀ fuel, turn h fuel src m = dispatch h fuel m') :
    Quits h src m cmds ↔ parse m'.cmdLine = .exit ∧ cmds = [.exit] ∨
      ∃ s cmds', Does h m'.dbg (parse m'.cmdLine) s ∧ cmds = parse m'.cmdLine :: cmds' ∧
        Quits h src { m' with dbg := s } cmds' := by
  constructor
  · rintro (h₁ | h₁ | ⟨h₁, hq⟩)
    · rw [ht, dispatch_ended] at h₁
      exact absurd h₁.1 (by simp)
    · rw [ht, dispatch_ended, Option.some.injEq] at h₁
      exact .inl ⟨h₁.1.symm, rfl⟩
    · rw [ht, dispatch_next] at h₁
      obtain ⟨rfl, s, hs, rfl⟩ := h₁
      exact .inr ⟨s, _, ⟨_, hs⟩, rfl, hq⟩
  · rintro (⟨hexit, rfl⟩ | ⟨s, cmds', ⟨fuel, hs⟩, rfl, hq⟩)
    · exact .exit ((ht 0).trans (dispatch_ended.2 (by rw [hexit]; exact ⟨rfl, rfl⟩)))
    · exact .turn ((ht fuel).trans (dispatch_next.2 ⟨rfl, s, hs, rfl⟩)) hq

/-! ## Whole texts -/

/-- The command lines of a text. -/
def commands (text : Text) : List Command := (lines text).map parse

/-- The commands up to the first `exit`. -/
def upToExit : List Command → List Command
  | [] => []
  | cmd :: cmds => if cmd = .exit then [.exit] else cmd :: upToExit cmds

/-- The commands in front of the first `exit` return, one after the other. -/
def Returns (h : Host ε) : List Command → Sdb ε → Prop
  | [], _ => True
  | cmd :: cmds, s => cmd = .exit ∨ ∃ s', Does h s cmd s' ∧ Returns h cmds s'

/-- Where there is nothing left to read only a script quits. -/
theorem quits_nil_iff (ha : m.stream.Ahead []) : Quits h src m [] ↔ src = .script := by
  constructor
  · rintro (ht | _ | _)
    rcases src with _ | _
    · rfl
    · obtain ⟨m', -, -, -, hturn⟩ := turn_stdin_end (h := h) ha
      rw [hturn, dispatch_ended] at ht
      exact absurd ht.1 (by simp)
  · rintro rfl
    exact .endOfFile (turn_script_end 0 ha)

/-- **The lines of a text are executed up to the first `exit`**, and the loop quits, when the
commands in front of it return; and the standard input needs it. -/
theorem quits_iff (ha : m.stream.Ahead ls) :
    Quits h src m (upToExit (ls.map parse)) ↔
      Returns h (ls.map parse) m.dbg ∧ (src = .script ∨ .exit ∈ ls.map parse) := by
  induction ls generalizing m with
  | nil => simpa [upToExit, Returns] using quits_nil_iff ha
  | cons l ls ih =>
    obtain ⟨m', hdbg, rfl, ha', ht⟩ := turn_line (h := h) src ha
    rw [quits_of_dispatch ht, List.map_cons, upToExit, Returns, hdbg]
    by_cases hexit : parse m'.cmdLine = .exit
    · simp [hexit]
    · rw [if_neg hexit]
      constructor
      · rintro (⟨hexit', -⟩ | ⟨s, cmds', hd, heq, hq⟩)
        · exact absurd hexit' hexit
        rw [List.cons.injEq] at heq
        rw [← heq.2] at hq
        obtain ⟨hret, hsrc⟩ := (ih (m := { m' with dbg := s }) ha').1 hq
        exact ⟨.inr ⟨s, hd, hret⟩, hsrc.imp_right (List.mem_cons_of_mem _)⟩
      · rintro ⟨hexit' | ⟨s, hd, hret⟩, hsrc⟩
        · exact absurd hexit' hexit
        refine .inr ⟨s, _, hd, rfl, (ih (m := { m' with dbg := s }) ha').2 ⟨hret, ?_⟩⟩
        exact hsrc.imp_right fun hin ↦ (List.mem_cons.1 hin).resolve_left fun he ↦ hexit he.symm

/-- A turn on the standard input, where there is no `exit` to come. -/
theorem turn_stdin (ha : m.stream.Ahead ls) (hno : .exit ∉ ls.map parse)
    (hcur : parse m.cmdLine ≠ .exit) :
    ∃ m' ls', m'.stream.Ahead ls' ∧ .exit ∉ ls'.map parse ∧ parse m'.cmdLine ≠ .exit ∧
      ∀ fuel, turn h fuel .stdin m = dispatch h fuel m' := by
  rcases ls with _ | ⟨l, ls⟩
  · obtain ⟨m', -, hline, ha', ht⟩ := turn_stdin_end (h := h) ha
    refine ⟨m', [], ha', hno, ?_, ht⟩
    rcases hline with hline | ⟨-, hline⟩
    · rw [hline]
      decide +kernel
    · rwa [hline]
  · obtain ⟨m', -, hline, ha', ht⟩ := turn_line (h := h) .stdin ha
    rw [List.map_cons, List.mem_cons, not_or] at hno
    exact ⟨m', ls, ha', hno.2, by rw [hline]; exact fun he ↦ hno.1 he.symm, ht⟩

/-- **Without an `exit` the loop on the standard input never quits**, whatever it executes. -/
theorem not_quits_stdin (ha : m.stream.Ahead ls) (hno : .exit ∉ ls.map parse)
    (hcur : parse m.cmdLine ≠ .exit) : ¬ Quits h .stdin m cmds := by
  intro hq
  induction hq generalizing ls with
  | endOfFile ht =>
    obtain ⟨m', _, -, -, -, hturn⟩ := turn_stdin (h := h) ha hno hcur
    rw [hturn, dispatch_ended] at ht
    exact absurd ht.1 (by simp)
  | exit ht =>
    obtain ⟨m', _, -, -, hne, hturn⟩ := turn_stdin (h := h) ha hno hcur
    rw [hturn, dispatch_ended, Option.some.injEq] at ht
    exact hne ht.1.symm
  | turn ht _ ih =>
    obtain ⟨m', ls', ha', hno', hne, hturn⟩ := turn_stdin (h := h) ha hno hcur
    rw [hturn, dispatch_next] at ht
    obtain ⟨-, s, -, rfl⟩ := ht
    exact ih ha' hno' hne

/-- **The two sources of command lines.**  From any state of the debugger, both sources execute the
lines of a text once each up to the first `exit`, and end with `quit()`, exactly when there is an
`exit` in the text and the commands in front of it return. -/
theorem sources_agree_iff (h : Host ε) (s : Sdb ε) (text : Text) :
    Quits h .script (.start s text) (upToExit (commands text)) ∧
        Quits h .stdin (.start s text) (upToExit (commands text)) ↔
      .exit ∈ commands text ∧ Returns h (commands text) s := by
  have ha : (Repl.start s text).stream.Ahead (lines text) := IStream.ahead_open text
  rw [commands, quits_iff ha, quits_iff ha]
  constructor
  · rintro ⟨⟨hret, -⟩, -, hsrc⟩
    exact ⟨hsrc.resolve_left (by simp), hret⟩
  · rintro ⟨hexit, hret⟩
    exact ⟨⟨hret, .inl rfl⟩, hret, .inr hexit⟩

/-- **A text without `exit`.**  One command, whose line is not terminated: the script executes it
and ends; the standard input executes it again and again, and never ends. -/
theorem sources_disagree :
    commands "help".toList = [.help] ∧
      Quits (Tiny.host []) .script (.start init "help".toList) [.help] ∧
      (∃ m₁ m₂ : Repl Nat, turn (Tiny.host []) 0 .stdin (.start init "help".toList)
          = some (.next .help m₁) ∧ turn (Tiny.host []) 0 .stdin m₁ = some (.next .help m₂)) ∧
      ∀ cmds, ¬ Quits (Tiny.host []) .stdin (.start init "help".toList) cmds := by
  have hcmds : commands "help".toList = [.help] := by decide +kernel
  have ha : (Repl.start (init : Sdb Nat) "help".toList).stream.Ahead (lines "help".toList) :=
    IStream.ahead_open _
  refine ⟨hcmds, ?_, ⟨_, _, rfl, rfl⟩, fun cmds ↦ ?_⟩
  · have hret : Returns (Tiny.host []) (commands "help".toList) init := by
      rw [hcmds]
      exact .inr ⟨_, ⟨0, rfl⟩, trivial⟩
    have hq : Quits (Tiny.host []) .script (.start init "help".toList)
        (upToExit (commands "help".toList)) := (quits_iff ha).2 ⟨hret, .inl rfl⟩
    rw [hcmds] at hq
    exact hq
  · refine not_quits_stdin ha ?_ (by decide +kernel)
    rw [← commands, hcmds]
    simp

end Sdb
