import NctuUnix.Lib.CallText
import NctuUnix.Lib.Radix
import NctuUnix.Hw2.Intercept
import NctuUnix.Hw2.Launch

/-!
# The log of `logger.so`

The other wrappers of `hw2_so.c` show a path, resolved by `realpath` if it can be, and the rest of
the arguments as they are.  All of them print through the macro `log`, which opens its stream when
it is used first: the file that `LOGGER_OUTPUT` names, or the descriptor that `LOGGER_STDERR` is the
number of.  Texts are put in quotation marks, and nothing is escaped.

What is modelled is the text that is handed to this stream.  The stream is buffered: what becomes of
the text is a matter of the standard library and of the program that is watched, which can end
without a flush, or fork, or close the descriptor under the stream.

## Main results

* `log_read_iff` — what a process hands to the stream can be read back, call by call, if and only if
  no text in it has a quotation mark.
* `log_goes_to` — which stream that is, for a command line of `logger`.
-/

set_option autoImplicit false

namespace Logger

open Input CString Bytes CallText

/-! ## The other wrappers -/

def O_CREAT : BitVec 32 := 0o100

def O_TMPFILE : BitVec 32 := 0o20200000

/-- A call of one of the functions that have no descriptor among their arguments.  `open` takes its
third argument whether it has been given one or not. -/
inductive PathCall
  | chmod (pathname : Text) (mode : BitVec 32)
  | chown (pathname : Text) (owner group : BitVec 32)
  | creat (path : Text) (mode : BitVec 32)
  | creat64 (path : Text) (mode : BitVec 32)
  | fopen (pathname mode : Text)
  | fopen64 (pathname mode : Text)
  | open (pathname : Text) (flags mode : BitVec 32)
  | open64 (pathname : Text) (flags mode : BitVec 32)
  | remove (path : Text)
  | rename (oldpath newpath : Text)
  | tmpfile
  | tmpfile64
  deriving DecidableEq, Repr

/-- An intercepted call of one of them, with everything it finds. -/
structure PathEvent where
  call : PathCall
  /-- `realpath`, before the original function is called. -/
  realpath : Text → Option Text
  /-- What the original function returns, if it is a number. -/
  ret : BitVec 32
  /-- What it returns, if it is a stream. -/
  stream : Addr

/-- `res ? real_pathname : pathname` -/
def PathEvent.real (e : PathEvent) (pathname : Text) : Text := (e.realpath pathname).getD pathname

/-- `%o` -/
def octal (x : BitVec 32) : Text := Nat.toDigits 8 x.toNat

/-- A number with a sign. -/
def signed (i : ℤ) : Text := (toString i).toList

/-- `%d` -/
def decimal (x : BitVec 32) : Text := signed x.toInt

/-- `%p` -/
def pointer (p : Addr) : Text :=
  if p = 0 then "(nil)".toList else '0' :: 'x' :: Nat.toDigits 16 p.toNat

/-- `"[logger] "` and `__func__`. -/
def logHead (func : Text) : Text := "[logger] ".toList ++ func

/-- A line of the log, of what the format makes of the arguments. -/
def logLine (func : String) (fields : List Field) (ret : Text) : Record :=
  ⟨logHead func.toList, fields, ret⟩

/-- `chmod`, and what is like it. -/
def withMode (func : String) (pathname : Text) (mode : BitVec 32) (e : PathEvent) : Record :=
  logLine func [.quoted (e.real pathname), .bare (octal mode)] (decimal e.ret)

def chmod (pathname : Text) (mode : BitVec 32) : PathEvent → Record :=
  withMode "chmod" pathname mode

def creat (path : Text) (mode : BitVec 32) : PathEvent → Record := withMode "creat" path mode

def creat64 (path : Text) (mode : BitVec 32) : PathEvent → Record := withMode "creat64" path mode

def chown (pathname : Text) (owner group : BitVec 32) (e : PathEvent) : Record :=
  logLine "chown" [.quoted (e.real pathname), .bare (decimal owner), .bare (decimal group)]
    (decimal e.ret)

/-- `fopen`, and what is like it. -/
def withStream (func : String) (pathname mode : Text) (e : PathEvent) : Record :=
  logLine func [.quoted (e.real pathname), .quoted mode] (pointer e.stream)

def fopen (pathname mode : Text) : PathEvent → Record := withStream "fopen" pathname mode

def fopen64 (pathname mode : Text) : PathEvent → Record := withStream "fopen64" pathname mode

/-- `open`, and what is like it. -/
def withFlags (func : String) (pathname : Text) (flags mode : BitVec 32) (e : PathEvent) : Record :=
  if flags &&& O_CREAT ≠ O_CREAT ∧ flags &&& O_TMPFILE ≠ O_TMPFILE then
    logLine func [.quoted (e.real pathname), .bare (octal flags)] (decimal e.ret)
  else
    logLine func [.quoted (e.real pathname), .bare (octal flags), .bare (octal mode)]
      (decimal e.ret)

def «open» (pathname : Text) (flags mode : BitVec 32) : PathEvent → Record :=
  withFlags "open" pathname flags mode

def open64 (pathname : Text) (flags mode : BitVec 32) : PathEvent → Record :=
  withFlags "open64" pathname flags mode

def remove (path : Text) (e : PathEvent) : Record :=
  logLine "remove" [.quoted (e.real path)] (decimal e.ret)

def rename (oldpath newpath : Text) (e : PathEvent) : Record :=
  logLine "rename" [.quoted (e.real oldpath), .quoted (e.real newpath)] (decimal e.ret)

def tmpfile (e : PathEvent) : Record := logLine "tmpfile" [] (pointer e.stream)

def tmpfile64 (e : PathEvent) : Record := logLine "tmpfile64" [] (pointer e.stream)

/-- What a call prints. -/
def PathEvent.record (e : PathEvent) : Record :=
  match e.call with
  | .chmod pathname mode => chmod pathname mode e
  | .chown pathname owner group => chown pathname owner group e
  | .creat path mode => creat path mode e
  | .creat64 path mode => creat64 path mode e
  | .fopen pathname mode => fopen pathname mode e
  | .fopen64 pathname mode => fopen64 pathname mode e
  | .open pathname flags mode => «open» pathname flags mode e
  | .open64 pathname flags mode => open64 pathname flags mode e
  | .remove path => remove path e
  | .rename oldpath newpath => rename oldpath newpath e
  | .tmpfile => tmpfile e
  | .tmpfile64 => tmpfile64 e

/-! ## The log -/

/-- An intercepted call of any of the functions. -/
inductive Intercepted
  | file (e : Event)
  | path (e : PathEvent)

/-- What a stream is opened on. -/
inductive Sink
  | file (path : Text)
  | descriptor (fd : ℤ)
  deriving DecidableEq, Repr

/-- What `log` opens; `none`: there is no number to read. -/
def Env.sink? (env : Env) : Option Sink :=
  match env.LOGGER_OUTPUT with
  | some log_output => some (.file log_output)
  | none => env.LOGGER_STDERR.map fun fd ↦ .descriptor (atoi fd)

/-- What the library keeps in a process, with what it has handed to its stream. -/
structure Logging where
  lib : Lib
  /-- What the stream has been opened on, if it has been. -/
  output : Option Sink
  handed : Text

def Logging.init : Logging := ⟨.init, none, []⟩

section

variable (env : Env) (opens : Sink → Bool)

/-- The macro `log`; `opens` tells what can be opened.  `none`: a null pointer is used. -/
def Logging.log (text : Text) (s : Logging) : Option Logging :=
  (s.output.or (env.sink?.filter opens)).map fun sink ↦
    { s with output := some sink, handed := s.handed ++ text }

/-- An intercepted call; `none`: the process ends in the wrapper. -/
def Logging.call (s : Logging) : Intercepted → Option Logging
  | .file e =>
    (s.lib.call e).bind fun lib ↦
      { s with lib := lib }.log env opens ((lib.log.drop s.lib.log.length).flatMap Line.text)
  | .path e => s.log env opens e.record.text

/-- The intercepted calls of a process; `none`: one of them ends it. -/
def runProcess (es : List Intercepted) : Option Logging :=
  es.foldlM (Logging.call env opens) .init

end

/-- A line of the six wrappers that are given a descriptor or a stream. -/
def Line.record : Line → Record
  | .closed f name ret => ⟨logHead f.name, [.quoted name], signed ret⟩
  | .bytes f name content count ret =>
    ⟨logHead f.name, [.quoted name, .quoted content, .bare (Nat.toDigits 10 count)], signed ret⟩
  | .items f content size nmemb name ret =>
    ⟨logHead f.name, [.quoted content, .bare (Nat.toDigits 10 size), .bare (Nat.toDigits 10 nmemb),
      .quoted name], signed ret⟩

/-- What some calls print, as far as the process comes. -/
def recordsFrom : Lib → List Intercepted → List Record
  | _, [] => []
  | l, .file e :: es =>
    match l.call e with
    | none => []
    | some l' => (l'.log.drop l.log.length).map Line.record ++ recordsFrom l' es
  | l, .path e :: es => e.record :: recordsFrom l es

/-- A call does not end the process in its wrapper: what is looked at of its buffer can be read. -/
def Intercepted.Returns : Intercepted → Prop
  | .file e => e.Readable
  | .path _ => True

variable {env : Env} {opens : Sink → Bool} {s : Logging}

theorem Line.text_record (l : Line) : l.record.text = l.text := by
  have hopen : "(\"".toList = ['(', '"'] := rfl
  have hclose : "\") = ".toList = ['"', ')', ' ', '=', ' '] := rfl
  have hbetween : "\", \"".toList = ['"', ',', ' ', '"'] := rfl
  have hbehind : "\", ".toList = ['"', ',', ' '] := rfl
  have hcomma : ", ".toList = [',', ' '] := rfl
  have hbefore : ", \"".toList = [',', ' ', '"'] := rfl
  have hret : ") = ".toList = [')', ' ', '=', ' '] := rfl
  have heq : " = ".toList = [' ', '=', ' '] := rfl
  cases l with
  | closed f name ret =>
    have htext : (Line.closed f name ret).text =
      logHead f.name ++ "(\"".toList ++ name ++ "\") = ".toList ++
        signed ret ++ ['\n'] := rfl
    rw [htext, Line.record, Record.text, hopen, hclose, heq]
    simp only [fieldsText, Field.text, List.append_assoc, List.cons_append, List.nil_append]
  | bytes f name content count ret =>
    have htext : (Line.bytes f name content count ret).text =
      logHead f.name ++ "(\"".toList ++ name ++ "\", \"".toList ++ content ++
        "\", ".toList ++ Nat.toDigits 10 count ++ ") = ".toList ++ signed ret ++
        ['\n'] := rfl
    rw [htext, Line.record, Record.text, hopen, hbetween, hbehind, hret, heq]
    simp only [fieldsText, Field.text, List.append_assoc, List.cons_append, List.nil_append]
  | items f content size nmemb name ret =>
    have htext : (Line.items f content size nmemb name ret).text =
      logHead f.name ++ "(\"".toList ++ content ++ "\", ".toList ++
        Nat.toDigits 10 size ++ ", ".toList ++ Nat.toDigits 10 nmemb ++ ", \"".toList ++ name ++
        "\") = ".toList ++ signed ret ++ ['\n'] := rfl
    rw [htext, Line.record, Record.text, hopen, hbehind, hcomma, hbefore, hclose, heq]
    simp only [fieldsText, Field.text, List.append_assoc, List.cons_append, List.nil_append]

/-! ## What can be read back -/

theorem plain_toDigits {b : ℕ} (hb : 0 < b) (hten : b ≤ 10) (n : ℕ) :
    (Field.bare (Nat.toDigits b n)).Plain := by
  have hdigit {c : Char} (hc : c ∈ Nat.toDigits b n) : c.isDigit = true :=
    Nat.isDigit_of_mem_toDigits hb hten hc
  refine ⟨Nat.toDigits_ne_nil, fun h ↦ ?_, fun h ↦ ?_, fun h ↦ ?_⟩ <;>
    exact absurd (hdigit h) (by decide)

theorem plain_octal (x : BitVec 32) : (Field.bare (octal x)).Plain :=
  plain_toDigits (by decide) (by decide) _

theorem plain_decimal (x : BitVec 32) : (Field.bare (decimal x)).Plain :=
  ⟨toString_ne_nil _, notMem_toString (by decide) (by decide) _,
    notMem_toString (by decide) (by decide) _, notMem_toString (by decide) (by decide) _⟩

theorem newline_notMem_decimal (x : BitVec 32) : '\n' ∉ decimal x :=
  notMem_toString (by decide) (by decide) _

theorem newline_notMem_pointer (p : Addr) : '\n' ∉ pointer p := by
  rw [pointer]
  split
  · decide
  · intro h
    rcases List.mem_cons.1 h with h | h
    · exact absurd h (by decide)
    · rcases List.mem_cons.1 h with h | h
      · exact absurd h (by decide)
      · exact absurd (toDigits_noSpace (by decide) (by decide) _ h) (by decide)

theorem safe_logLine {func : String} {fields : List Field} {ret : Text}
    (hfunc : '(' ∉ func.toList) (hfields : ∀ f ∈ fields, f.Safe) (hret : '\n' ∉ ret) :
    (logLine func fields ret).Safe := by
  refine Record.safe (fun hm ↦ ?_) hfields hret
  rcases List.mem_append.1 hm with hm | hm
  · exact absurd hm (by decide)
  · exact hfunc hm

theorem PathEvent.safe_record (e : PathEvent) : e.record.Safe := by
  have hret := newline_notMem_decimal e.ret
  have hptr := newline_notMem_pointer e.stream
  have hmode (func : String) (h : '(' ∉ func.toList) (p : Text) (m : BitVec 32) :
      (withMode func p m e).Safe :=
    safe_logLine h (by simp [Field.safe_quoted, (plain_octal m).safe]) hret
  have hstream (func : String) (h : '(' ∉ func.toList) (p m : Text) :
      (withStream func p m e).Safe :=
    safe_logLine h (by simp [Field.safe_quoted]) hptr
  have hflags (func : String) (h : '(' ∉ func.toList) (p : Text) (flags m : BitVec 32) :
      (withFlags func p flags m e).Safe := by
    rw [withFlags]
    split
    · exact safe_logLine h (by simp [Field.safe_quoted, (plain_octal _).safe]) hret
    · exact safe_logLine h (by simp [Field.safe_quoted, (plain_octal _).safe]) hret
  rw [PathEvent.record]
  rcases e.call with _ | _ | _ | _ | _ | _ | _ | _ | _ | _ | _ | _
  · exact hmode _ (by decide) _ _
  · exact safe_logLine (by decide) (by simp [Field.safe_quoted, (plain_decimal _).safe]) hret
  · exact hmode _ (by decide) _ _
  · exact hmode _ (by decide) _ _
  · exact hstream _ (by decide) _ _
  · exact hstream _ (by decide) _ _
  · exact hflags _ (by decide) _ _ _
  · exact hflags _ (by decide) _ _ _
  · exact safe_logLine (by decide) (by simp [Field.safe_quoted]) hret
  · exact safe_logLine (by decide) (by simp [Field.safe_quoted]) hret
  · exact safe_logLine (by decide) (by simp) hptr
  · exact safe_logLine (by decide) (by simp) hptr

theorem Line.safe_record (l : Line) : l.record.Safe := by
  have hhead (f : Func) : '(' ∉ logHead f.name := by
    cases f <;> decide
  have hret (ret : ℤ) : '\n' ∉ signed ret := notMem_toString (by decide) (by decide) ret
  have hsize (n : ℕ) : (Field.bare (Nat.toDigits 10 n)).Safe :=
    (plain_toDigits (by decide) (by decide) n).safe
  rcases l with ⟨f, name, ret⟩ | ⟨f, name, content, count, ret⟩ |
    ⟨f, content, size, nmemb, name, ret⟩
  · exact Record.safe (hhead f) (by simp [Line.record, Field.safe_quoted]) (hret ret)
  · exact Record.safe (hhead f) (by simp [Line.record, Field.safe_quoted, hsize]) (hret ret)
  · exact Record.safe (hhead f) (by simp [Line.record, Field.safe_quoted, hsize]) (hret ret)

/-! ## The log of a process -/

theorem recordsFrom_safe (es : List Intercepted) : ∀ (l : Lib), ∀ r ∈ recordsFrom l es, r.Safe := by
  induction es with
  | nil => exact fun l r hr ↦ absurd hr (by simp [recordsFrom])
  | cons e es ih =>
    intro l r hr
    cases e with
    | file e =>
      rw [recordsFrom] at hr
      rcases hcall : l.call e with _ | l'
      · rw [hcall] at hr
        exact absurd hr List.not_mem_nil
      · rw [hcall] at hr
        rcases List.mem_append.1 hr with hr | hr
        · obtain ⟨line, -, rfl⟩ := List.mem_map.1 hr
          exact line.safe_record
        · exact ih l' r hr
    | path e =>
      rw [recordsFrom, List.mem_cons] at hr
      rcases hr with rfl | hr
      · exact e.safe_record
      · exact ih _ r hr

theorem Logging.log_eq_some {text : Text} {s' : Logging} (h : s.log env opens text = some s') :
    s'.lib = s.lib ∧ s'.handed = s.handed ++ text := by
  obtain ⟨sink, -, rfl⟩ := Option.map_eq_some_iff.1 h
  exact ⟨rfl, rfl⟩

theorem flatMap_text (ls : List Line) :
    ls.flatMap Line.text = (ls.map Line.record).flatMap Record.text := by
  rw [List.flatMap_map]
  exact congrArg (ls.flatMap ·) (funext fun l ↦ l.text_record.symm)

/-- There is one record for each call, and it is handed to the stream. -/
theorem handed_of_foldlM (es : List Intercepted) : ∀ s s' : Logging,
    es.foldlM (Logging.call env opens) s = some s' →
      s'.handed = s.handed ++ (recordsFrom s.lib es).flatMap Record.text ∧
        (recordsFrom s.lib es).length = es.length := by
  induction es with
  | nil =>
    intro s s' h
    obtain rfl := Option.some.inj h
    exact ⟨(List.append_nil _).symm, rfl⟩
  | cons e es ih =>
    intro s s' h
    rw [List.foldlM_cons, Option.bind_eq_bind, Option.bind_eq_some_iff] at h
    obtain ⟨t, ht, hes⟩ := h
    obtain ⟨hrest, hlen⟩ := ih t s' hes
    cases e with
    | file e =>
      obtain ⟨l', hcall, hlog⟩ := Option.bind_eq_some_iff.1 ht
      obtain ⟨hlib, hhanded⟩ := Logging.log_eq_some hlog
      rw [hlib] at hrest hlen
      obtain ⟨line, hline⟩ := log_of_call hcall
      rw [recordsFrom, hcall]
      constructor
      · rw [hrest, hhanded, List.flatMap_append, List.append_assoc, flatMap_text]
      · rw [List.length_append, hlen, hline, List.drop_left, List.length_map, List.length_singleton,
          List.length_cons, Nat.add_comm]
    | path e =>
      obtain ⟨hlib, hhanded⟩ := Logging.log_eq_some ht
      rw [hlib] at hrest hlen
      rw [recordsFrom, List.length_cons, hlen, hrest, hhanded, List.flatMap_cons,
        List.append_assoc]
      exact ⟨rfl, rfl⟩

/-- **The log of a process can be read back.**  A process that comes to the end of some calls has
handed one record for each of them to the stream, and they can be read back if and only if no text
that they show has a quotation mark. -/
theorem log_read_iff {es : List Intercepted} (h : runProcess env opens es = some s) :
    (recordsFrom .init es).length = es.length ∧
      (readLog s.handed = some (recordsFrom .init es) ↔
        ∀ r ∈ recordsFrom .init es, ∀ f ∈ r.fields, f.Quiet) := by
  obtain ⟨hhanded, hlen⟩ := handed_of_foldlM es .init s h
  refine ⟨hlen, ?_⟩
  rw [hhanded]
  exact readLog_iff (recordsFrom_safe es .init)

/-- `remove(path)`, which succeeds. -/
def removing (path : String) : Intercepted := .path ⟨.remove path.toList, fun _ ↦ none, 0, 0⟩

/-- A file whose name has a whole line in it, and two files. -/
theorem log_read_iff_forged : ∃ s s',
    runProcess ⟨none, none, some ['3']⟩ (fun _ ↦ true)
      [removing "a\") = 0\n[logger] remove(\"b"] = some s ∧
    runProcess ⟨none, none, some ['3']⟩ (fun _ ↦ true) [removing "a", removing "b"] = some s' ∧
    s.handed = s'.handed ∧
    readLog s'.handed = some (recordsFrom .init [removing "a", removing "b"]) := by
  obtain ⟨s', hs'⟩ : ∃ s', runProcess ⟨none, none, some ['3']⟩ (fun _ ↦ true)
      [removing "a", removing "b"] = some s' := ⟨_, rfl⟩
  refine ⟨_, s', rfl, hs', ?_, (log_read_iff hs').2.2 ?_⟩
  · obtain rfl := Option.some.inj hs'
    decide +kernel
  · decide +kernel

/-! ## Where it goes -/

/-- The file of the last `-o`, or the one that `LOGGER_OUTPUT` has named before, or what the
standard error output of `logger` is. -/
def destination (options : List (Char × Text)) (env : Env) (fd : ℕ) : Sink :=
  match (options.filter (·.1 = 'o')).getLast? with
  | some o => .file o.2
  | none => (env.LOGGER_OUTPUT.map Sink.file).getD (.descriptor fd)

theorem output_handleAll (options : List (Char × Text)) (env : Env) :
    (env.handleAll options).LOGGER_OUTPUT =
      ((options.filter (·.1 = 'o')).getLast?.map Prod.snd).or env.LOGGER_OUTPUT := by
  induction options using List.reverseRecOn with
  | nil => rfl
  | append_singleton options o ih =>
    rw [Env.handleAll, List.foldl_append, List.foldl_cons, List.foldl_nil, ← Env.handleAll,
      List.filter_append, Env.handle]
    by_cases ho : o.1 = 'o'
    · simp [ho]
    · rw [if_neg ho]
      split <;> simp [ho, ih]

/-- The environment that a command is executed with leads to the destination. -/
theorem sink?_child {fd : ℕ} (hfd : fd < 2 ^ 31) (options : List (Char × Text)) (env : Env) :
    ((env.preload.handleAll options).child fd).sink? = some (destination options env fd) := by
  have hatoi : atoi (Nat.toDigits 10 fd) = fd := by
    have hread : readIn 10 10 fd = fd := readIn_self (by decide) (by decide)
    rw [atoi_toDigits (by decide) (by decide) (by rw [hread]; exact hfd), hread]
  have hout : ((env.preload.handleAll options).child fd).LOGGER_OUTPUT =
      ((options.filter (·.1 = 'o')).getLast?.map Prod.snd).or env.LOGGER_OUTPUT :=
    output_handleAll options env.preload
  have herr : ((env.preload.handleAll options).child fd).LOGGER_STDERR =
      some (Nat.toDigits 10 fd) := rfl
  rw [Env.sink?, hout, herr, destination]
  cases (options.filter (·.1 = 'o')).getLast? with
  | some o => rfl
  | none =>
    cases henv : env.LOGGER_OUTPUT with
    | some path => simp
    | none => simp [hatoi]

theorem Logging.log_of_sink {sink : Sink} {s : Logging}
    (h : s.output.or (env.sink?.filter opens) = some sink) (text : Text) :
    s.log env opens text = some { s with output := some sink, handed := s.handed ++ text } := by
  rw [Logging.log, h, Option.map_some]

/-- A call that returns has its record handed to the stream. -/
theorem Logging.call_of_sink {e : Intercepted} (he : e.Returns) {sink : Sink}
    (h : s.output.or (env.sink?.filter opens) = some sink) :
    ∃ s', s.call env opens e = some s' ∧ s'.output = some sink := by
  cases e with
  | file e =>
    obtain ⟨l', hcall, -⟩ := call_of_readable s.lib he
    have hsink : ({ s with lib := l' } : Logging).output.or (env.sink?.filter opens) = some sink :=
      h
    have hlog := Logging.log_of_sink hsink ((l'.log.drop s.lib.log.length).flatMap Line.text)
    exact ⟨_, by rw [Logging.call, hcall, Option.bind_some, hlog], rfl⟩
  | path e => exact ⟨_, by rw [Logging.call, Logging.log_of_sink h], rfl⟩

/-- Once there is a stream it stays. -/
theorem foldlM_output (es : List Intercepted) : ∀ (s : Logging) {sink : Sink},
    (∀ e ∈ es, e.Returns) → s.output = some sink →
      ∃ s', es.foldlM (Logging.call env opens) s = some s' ∧ s'.output = some sink := by
  induction es with
  | nil => exact fun s _ _ h ↦ ⟨s, rfl, h⟩
  | cons e es ih =>
    intro s sink hes h
    have hor : s.output.or (env.sink?.filter opens) = some sink := by
      rw [h, Option.some_or]
    obtain ⟨t, ht, hout⟩ := Logging.call_of_sink (hes e List.mem_cons_self) hor
    obtain ⟨s', hs', hout'⟩ := ih t (fun e' he' ↦ hes e' (List.mem_cons_of_mem _ he')) hout
    exact ⟨s', by rw [List.foldlM_cons, ht]; exact hs', hout'⟩

/-- **Where the log goes.**  The command of a command line is executed, and its process opens one
stream, on the destination, and hands the records of all its calls to it; where the destination
cannot be opened, the first call ends the process. -/
theorem log_goes_to {cl : CommandLine} (hclear : cl.Clear) (hcmd : cl.command ≠ []) {fd : ℕ}
    (hfd : fd < 2 ^ 31) (prog : Text) (env : Env) : ∃ env',
      main prog cl.words env fd = some (.exec env' cl.command) ∧
      ∀ (opens : Sink → Bool) (es : List Intercepted), es ≠ [] →
        (opens (destination cl.options env fd) = true → (∀ e ∈ es, e.Returns) →
          ∃ s, runProcess env' opens es = some s ∧
            s.output = some (destination cl.options env fd) ∧
            s.handed = (recordsFrom .init es).flatMap Record.text) ∧
        (opens (destination cl.options env fd) = false → runProcess env' opens es = none) := by
  have hmem : dashes ∈ cl.front ∨ dashes ∉ cl.command := by
    rcases hsep : cl.separated with _ | _
    · exact .inr fun hm ↦ absurd (hclear.operands hsep _ hm) (by decide)
    · exact .inl (List.mem_append_right _ (by rw [hsep]; exact List.mem_cons_self))
  refine ⟨(env.preload.handleAll cl.options).child fd, ?_, fun opens es hes ↦ ?_⟩
  · rw [main_of_operands hclear.operands, (launch_iff hmem).2 hclear.front, Outcome.ofCommand,
      if_neg hcmd]
  · have hsink := sink?_child hfd cl.options env
    obtain ⟨e, es, rfl⟩ := List.exists_cons_of_ne_nil hes
    constructor
    · intro hopens hreturns
      have hor : Logging.init.output.or
          (((env.preload.handleAll cl.options).child fd).sink?.filter opens) =
            some (destination cl.options env fd) := by
        rw [hsink]
        simp [Logging.init, hopens]
      obtain ⟨t, ht, hout⟩ := Logging.call_of_sink (hreturns e List.mem_cons_self) hor
      obtain ⟨s, hs, hout'⟩ := foldlM_output es t
        (fun e' he' ↦ hreturns e' (List.mem_cons_of_mem _ he')) hout
      have hrun : runProcess ((env.preload.handleAll cl.options).child fd) opens (e :: es) =
          some s := by
        rw [runProcess, List.foldlM_cons, ht]
        exact hs
      exact ⟨s, hrun, hout', (handed_of_foldlM (e :: es) .init s hrun).1⟩
    · intro hopens
      have hor : Logging.init.output.or
          (((env.preload.handleAll cl.options).child fd).sink?.filter opens) = none := by
        rw [hsink]
        simp [Logging.init, hopens]
      have hcall : Logging.init.call ((env.preload.handleAll cl.options).child fd) opens e =
          none := by
        cases e with
        | file e =>
          rw [Logging.call, Option.bind_eq_none_iff]
          intro l' _
          exact Option.map_eq_none_iff.2 hor
        | path e => rw [Logging.call, Logging.log, hor, Option.map_none]
      rw [runProcess, List.foldlM_cons, hcall]
      rfl

/-- `logger -o ls.txt -- ls -al` -/
def lsSeparated : CommandLine where
  options := [('o', "ls.txt".toList)]
  known _ ho := .inl (congrArg Prod.fst (List.mem_singleton.1 ho))
  separated := true
  command := ["ls".toList, "-al".toList]
  plain h := Bool.noConfusion h

/-- The file is the one behind `-o`, whatever the environment says. -/
theorem log_goes_to_file : ∃ env',
    main "logger".toList lsSeparated.words ⟨none, some "other".toList, none⟩ 3 =
      some (.exec env' lsSeparated.command) ∧
    ∃ s, runProcess env' (fun _ ↦ true) [removing "a", .file (longWrite 0), removing "b"] = some s ∧
      s.output = some (.file "ls.txt".toList) ∧
      s.handed = ("[logger] remove(\"a\") = 0\n[logger] write(\"/tmp/bbbb\", \"a\", 1) = 1\n" ++
        "[logger] remove(\"b\") = 0\n").toList := by
  have hclear : lsSeparated.Clear :=
    ⟨.inr ⟨[['-', 'o'], "ls.txt".toList], rfl, by decide⟩, fun h ↦ absurd h (by decide)⟩
  have hfd : 3 < 2 ^ 31 := by decide
  have hreturns : ∀ e ∈ [removing "a", .file (longWrite 0), removing "b"], e.Returns := by
    have hread : (longWrite 0).Readable := by decide
    exact List.forall_mem_cons.2 ⟨trivial, List.forall_mem_cons.2 ⟨hread,
      List.forall_mem_cons.2 ⟨trivial, fun _ h ↦ absurd h List.not_mem_nil⟩⟩⟩
  obtain ⟨env', hmain, hlog⟩ := log_goes_to hclear (by decide) hfd "logger".toList
    ⟨none, some "other".toList, none⟩
  obtain ⟨s, hrun, hout, hhanded⟩ :=
    (hlog (fun _ ↦ true) [removing "a", .file (longWrite 0), removing "b"] (by simp)).1 rfl hreturns
  refine ⟨env', hmain, s, hrun, hout, ?_⟩
  rw [hhanded]
  decide +kernel

end Logger
