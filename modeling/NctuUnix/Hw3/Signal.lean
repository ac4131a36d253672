import NctuUnix.Hw3.Sigset
import NctuUnix.Hw3.Wrappers

/-!
# Signal handlers

`signal` and `sigaction` of `libmini.c`.  The kernel keeps an action for each signal, and
`rt_sigaction` replaces one and hands over the old one.  `sigaction` completes the structure of its
caller before it passes it on: the kernel is told to return from a handler through `myrt`.
`signal` builds a structure of its own, on the stack, with the functions for signal sets.

What the kernel does with a structure is a hypothesis, `RtSigaction`: it keeps the flags that it
knows, drops the others, and lets nobody block `SIGKILL` or `SIGSTOP`.  The structures of a call
have to be `Accessible`.

## Main results

* `signal_refines` — any sequence of calls does to the actions what a table of handlers and sets of
  signals would do, and returns what the table says.
* `restores_iff` — when an action that has been saved by `sigaction` is put back as it was.
-/

set_option autoImplicit false

namespace Mini

open Bytes

/-! ## Structures -/

/-- `struct sigaction` -/
structure Action where
  sa_handler : Word
  sa_flags : Word
  sa_restorer : Word
  sa_mask : Word
  deriving DecidableEq, Repr

/-- The structure at an address. -/
def loadAction (m : Mem) (a : Addr) : Action :=
  ⟨loadWord m a, loadWord m (a + 8), loadWord m (a + 16), loadWord m (a + 24)⟩

/-- The memory with a structure at an address. -/
def storeAction (m : Mem) (a : Addr) (x : Action) : Mem :=
  storeWord (storeWord (storeWord (storeWord m a x.sa_handler) (a + 8) x.sa_flags) (a + 16)
    x.sa_restorer) (a + 24) x.sa_mask

def saRestart : Word := 0x10000000

/-- `SIG_ERR` -/
def sigErr : Word := -1

/-! ## The functions -/

/-- The actions of a process. -/
abbrev Actions := Int → Action

/-- A process. -/
structure Process where
  libc : Libc
  actions : Actions

section

variable (mapped : Addr → Bool) (sys : SysSigaction Actions) (myrt : Word)

/-- `sigaction`, called by a process: the value, and what has become of the process. -/
def Process.sigaction (sig : Int) (act oact : Addr) (s : Process) : Option (Int × Process) :=
  (Mini.sigaction mapped sys myrt sig act oact s.libc.mem s.actions).map fun r ↦
    (r.1.2, ⟨⟨r.2.1, r.1.1⟩, r.2.2⟩)

/-- `sighandler_t signal(int sig, sighandler_t handler)`, with `act` and `oact` on the stack at
`frame`; `none`: a fault. -/
def signal (sig : Int) (handler : Word) (frame : Addr) (s : Process) : Option (Word × Process) :=
  if handler = sigErr ∨ sig < 1 ∨ sig ≥ nsig then
    some (sigErr, { s with libc := { s.libc with errno := einval } })
  else
    let libc := { s.libc with mem := storeWord s.libc.mem frame handler }
    let libc := (sigemptyset (frame + 24) libc).2
    let libc := (sigaddset (frame + 24) sig libc).2
    let libc := { libc with mem := storeWord libc.mem (frame + 8) saRestart }
    (Process.sigaction mapped sys myrt sig frame (frame + 32) { s with libc := libc }).map fun r ↦
      if r.1 < 0 then (sigErr, r.2) else (loadWord r.2.libc.mem (frame + 32), r.2)

end

/-- The signals that no action can be given for: `SIGKILL` and `SIGSTOP`. -/
def Reserved (sig : Int) : Prop := sig = 9 ∨ sig = 19

instance {sig : Int} : Decidable (Reserved sig) := instDecidableOr

/-- An action can be given for a signal. -/
def Settable (sig : Int) : Prop := sig ∈ Set.Icc 1 64 ∧ ¬ Reserved sig

instance {sig : Int} : Decidable (Settable sig) :=
  inferInstanceAs (Decidable ((1 ≤ sig ∧ sig ≤ 64) ∧ ¬ Reserved sig))

/-- What the kernel keeps of a mask. -/
def keptMask (w : Word) : Word := w &&& ~~~(sigmask 9 ||| sigmask 19)

/-- The action that is kept for a structure, by a kernel that knows the flags `known`. -/
def Action.kept (known : Word) (x : Action) : Action :=
  { x with sa_flags := x.sa_flags &&& known, sa_mask := keptMask x.sa_mask }

/-- What `rt_sigaction` does with a structure that the process can access, for sets of eight bytes;
`known` are the flags that the kernel knows. -/
structure RtSigaction (mapped : Addr → Bool) (known : Word) (sys : SysSigaction Actions) :
    Prop where
  knows : (saRestart ||| saRestorer) &&& known = saRestart ||| saRestorer
  refuses : ∀ (sig : Int) (act oact : Addr) (m : Mem) (t : Actions), act ≠ 0 →
    Accessible mapped act 32 → ¬ Settable sig → sys sig act oact 8 m t = (-einval, m, t)
  installs : ∀ (sig : Int) (act oact : Addr) (m : Mem) (t : Actions), act ≠ 0 →
    Accessible mapped act 32 → (oact ≠ 0 → Accessible mapped oact 32) → Settable sig →
    sys sig act oact 8 m t = (0, if oact = 0 then m else storeAction m oact (t sig),
      Function.update t sig ((loadAction m act).kept known))

variable {mapped : Addr → Bool} {known : Word} {sys : SysSigaction Actions} {myrt : Word}
  {sig : Int} {act oact frame : Addr} {m : Mem} {x : Action} {s : Process}

/-! ## Structures in memory -/

theorem loadWord_storeWord_head {a : Addr} {x w : Word} (h : Apart x 8 0 8) :
    loadWord (storeWord m (a + x) w) a = loadWord m a := by
  have hzero : a + 0 = a := BitVec.add_zero a
  have hoff := loadWord_storeWord_off (m := m) (a := a) (w := w) h
  rwa [hzero] at hoff

theorem loadWord_storeWord_tail {a : Addr} {y w : Word} (h : Apart 0 8 y 8) :
    loadWord (storeWord m a w) (a + y) = loadWord m (a + y) := by
  have hzero : a + 0 = a := BitVec.add_zero a
  have hoff := loadWord_storeWord_off (m := m) (a := a) (w := w) h
  rwa [hzero] at hoff

/-- The fields of a structure do not meet. -/
@[simp] theorem loadAction_storeAction (m : Mem) (a : Addr) (x : Action) :
    loadAction (storeAction m a x) a = x := by
  simp (disch := decide) only [loadAction, storeAction, loadWord_storeWord_head,
    loadWord_storeWord_off, loadWord_storeWord_same]

/-- What the kernel is told to return through. -/
def Action.returning (myrt : Word) (x : Action) : Action :=
  { x with sa_flags := x.sa_flags ||| saRestorer, sa_restorer := myrt }

theorem loadAction_completed (myrt : Word) (m : Mem) (act : Addr) :
    loadAction (completed myrt m act) act = (loadAction m act).returning myrt := by
  simp (disch := decide) only [loadAction, completed, Action.returning, loadWord_storeWord_head,
    loadWord_storeWord_off, loadWord_storeWord_same]

/-! ## One call -/

/-- The action that a call of `sigaction` leads to. -/
def Action.installed (myrt known : Word) (x : Action) : Action := (x.returning myrt).kept known

/-- Part of what a process can access. -/
theorem Accessible.part {n k : Nat} {a : Addr} (h : Accessible mapped a n) {i : Nat}
    (hi : i + k ≤ n) : Accessible mapped (a + BitVec.ofNat 64 i) k := by
  intro j hj
  have hadd : a + BitVec.ofNat 64 i + BitVec.ofNat 64 j = a + BitVec.ofNat 64 (i + j) := by
    rw [BitVec.ofNat_add, BitVec.add_assoc]
  rw [hadd]
  exact h (i + j) (by omega)

theorem sigaction_of_settable (hK : RtSigaction mapped known sys) (hact : act ≠ 0)
    (hacc : Accessible mapped act 32) (hoacc : oact ≠ 0 → Accessible mapped oact 32)
    (hsig : Settable sig) : s.sigaction mapped sys myrt sig act oact = some (0, ⟨⟨
      if oact = 0 then completed myrt s.libc.mem act
        else storeAction (completed myrt s.libc.mem act) oact (s.actions sig), 0⟩,
      Function.update s.actions sig ((loadAction s.libc.mem act).installed myrt known)⟩) := by
  have hsys := hK.installs sig act oact (completed myrt s.libc.mem act) s.actions hact hacc hoacc
    hsig
  rw [loadAction_completed] at hsys
  have hfields : Accessible mapped (act + 8) 16 := hacc.part (show 8 + 16 ≤ 32 by decide)
  rw [Process.sigaction, sigaction, if_pos hfields]
  simp only [show (65 / 8 : Word) = 8 by decide, hsys]
  rfl

theorem sigaction_of_not_settable (hK : RtSigaction mapped known sys) (hact : act ≠ 0)
    (hacc : Accessible mapped act 32) (hsig : ¬ Settable sig) :
    s.sigaction mapped sys myrt sig act oact =
      some (-1, ⟨⟨completed myrt s.libc.mem act, einval⟩, s.actions⟩) := by
  have hsys := hK.refuses sig act oact (completed myrt s.libc.mem act) s.actions hact hacc hsig
  have hfields : Accessible mapped (act + 8) 16 := hacc.part (show 8 + 16 ≤ 32 by decide)
  rw [Process.sigaction, sigaction, if_pos hfields]
  simp only [show (65 / 8 : Word) = 8 by decide, hsys]
  rfl

/-- Where `signal` has its structures: the process can access them, and no address in it is
`NULL`. -/
structure Frame (mapped : Addr → Bool) (frame : Addr) : Prop where
  act : frame ≠ 0
  mask : frame + 24 ≠ 0
  oact : frame + 32 ≠ 0
  accessible : Accessible mapped frame 64

theorem Frame.acts (h : Frame mapped frame) :
    Accessible mapped frame 32 ∧ Accessible mapped (frame + 32) 32 := by
  have hzero : frame + BitVec.ofNat 64 0 = frame := BitVec.add_zero frame
  have hfirst := h.accessible.part (show 0 + 32 ≤ 64 by decide)
  rw [hzero] at hfirst
  exact ⟨hfirst, h.accessible.part (show 32 + 32 ≤ 64 by decide)⟩

/-- The memory when `signal` calls `sigaction`. -/
def built (m : Mem) (frame : Addr) (sig : Int) (handler : Word) : Mem :=
  storeWord (storeWord (storeWord (storeWord m frame handler) (frame + 24) 0) (frame + 24)
    (sigmask sig)) (frame + 8) saRestart

/-- `signal` fills in three of the four fields. -/
theorem loadAction_built (m : Mem) (frame : Addr) (sig : Int) (handler : Word) :
    loadAction (built m frame sig handler) frame =
      ⟨handler, saRestart, loadWord m (frame + 16), sigmask sig⟩ := by
  simp (disch := decide) only [loadAction, built, loadWord_storeWord_head, loadWord_storeWord_off,
    loadWord_storeWord_same, loadWord_storeWord_tail]

/-- What `signal` has built before it calls `sigaction`. -/
theorem signal_eq (hframe : Frame mapped frame) {handler : Word} (herr : handler ≠ sigErr)
    (hsig : sig ∈ Set.Icc 1 64) : signal mapped sys myrt sig handler frame s =
      (Process.sigaction mapped sys myrt sig frame (frame + 32)
        ⟨⟨built s.libc.mem frame sig handler, s.libc.errno⟩, s.actions⟩).map fun r ↦
      if r.1 < 0 then (sigErr, r.2) else (loadWord r.2.libc.mem (frame + 32), r.2) := by
  have hlo : ¬ sig < 1 := Int.not_lt.2 hsig.1
  have hhi : ¬ sig ≥ nsig := by
    rw [nsig]
    have := hsig.2
    omega
  have hadd : ¬ (frame + 24 = 0 ∨ sig ≤ 0 ∨ sig ≥ nsig) := fun h ↦
    invalid_iff.1 h ⟨hframe.mask, hsig⟩
  rw [signal, if_neg (by simp only [herr, hlo, hhi, or_self, not_false_eq_true])]
  have hempty (m : Mem) : memset (frame + 24) 0 8 m = storeWord m (frame + 24) 0 :=
    memset_eq_storeWord (by decide)
  have hor : (0 : Word) ||| sigmask sig = sigmask sig := BitVec.zero_or
  simp only [sigemptyset, if_neg hframe.mask, sigaddset, if_neg hadd, hempty,
    loadWord_storeWord_same, hor]
  rfl

/-! ## Calls -/

/-- A call of one of the two.  For `sigaction` the program has put `x` at `act` before. -/
inductive SigCall
  | signal (sig : Int) (handler : Word) (frame : Addr)
  | sigaction (sig : Int) (x : Action) (act oact : Addr)
  deriving DecidableEq, Repr

/-- What a call returns, with the structure that it hands over. -/
inductive SigResult
  | handler (h : Word)
  | code (r : Int) (old : Option Action)
  deriving DecidableEq, Repr

namespace SigCall

/-- The call: its result, `errno`, and the process. -/
def exec (mapped : Addr → Bool) (sys : SysSigaction Actions) (myrt : Word) (s : Process) :
    SigCall → Option ((SigResult × Word) × Process)
  | .signal sig handler frame =>
    (Mini.signal mapped sys myrt sig handler frame s).map fun r ↦
      ((.handler r.1, r.2.libc.errno), r.2)
  | .sigaction sig x act oact =>
    (Process.sigaction mapped sys myrt sig act oact
      ⟨⟨storeAction s.libc.mem act x, s.libc.errno⟩, s.actions⟩).map fun r ↦
        ((.code r.1 (if r.1 < 0 ∨ oact = 0 then none else some (loadAction r.2.libc.mem oact)),
          r.2.libc.errno), r.2)

/-- A sequence of calls. -/
def execAll (mapped : Addr → Bool) (sys : SysSigaction Actions) (myrt : Word) :
    List SigCall → Process → Option (List (SigResult × Word) × Process)
  | [], s => some ([], s)
  | c :: cs, s => (c.exec mapped sys myrt s).bind fun r ↦
    (execAll mapped sys myrt cs r.2).map fun rs ↦ (r.1 :: rs.1, rs.2)

/-- The process can access the structures that the call passes on; `oact` may be `NULL`. -/
def Good (mapped : Addr → Bool) : SigCall → Prop
  | .signal _ _ frame => Frame mapped frame
  | .sigaction _ _ act oact =>
    act ≠ 0 ∧ Accessible mapped act 32 ∧ (oact ≠ 0 → Accessible mapped oact 32)

end SigCall

/-! ## The table of handlers -/

/-- What is to be done with a signal. -/
structure Disposition where
  handler : Word
  flags : Word
  restorer : Word
  /-- The signals that are blocked meanwhile. -/
  mask : Set Int

def Action.disposition (x : Action) : Disposition :=
  ⟨x.sa_handler, x.sa_flags, x.sa_restorer, members x.sa_mask⟩

abbrev Handlers := Int → Disposition

def Process.handlers (s : Process) : Handlers := fun sig ↦ (s.actions sig).disposition

namespace SigCall

def signo : SigCall → Int
  | .signal sig _ _ | .sigaction sig _ _ _ => sig

/-- The call is obeyed. -/
def Accepted : SigCall → Prop
  | .signal sig handler _ => handler ≠ sigErr ∧ Settable sig
  | .sigaction sig _ _ _ => Settable sig

/-- What the signal gets: `signal` blocks the signal itself, and lets system calls go on. -/
def disposition (myrt known : Word) : SigCall → Disposition
  | .signal sig handler _ => ⟨handler, saRestart ||| saRestorer, myrt, {sig}⟩
  | .sigaction _ x _ _ =>
    ⟨x.sa_handler, (x.sa_flags ||| saRestorer) &&& known, myrt, members x.sa_mask \ {9, 19}⟩

/-- What the call answers where it is obeyed, and where it is not. -/
def granted (T : Handlers) : SigCall → SigResult × Word → Prop
  | .signal sig _ _, r => r = (.handler (T sig).handler, 0)
  | .sigaction sig _ _ oact, r => r.2 = 0 ∧ ∃ old, r.1 = .code 0 old ∧
      old.map Action.disposition = if oact = 0 then none else some (T sig)

def refused : SigCall → SigResult × Word
  | .signal .. => (.handler sigErr, einval)
  | .sigaction .. => (.code (-1) none, einval)

/-- What the call answers. -/
def Answers (T : Handlers) (c : SigCall) (r : SigResult × Word) : Prop :=
  (c.Accepted → c.granted T r) ∧ (¬ c.Accepted → r = c.refused)

open Classical in
/-- What the call does to the table. -/
noncomputable def apply (myrt known : Word) (T : Handlers) (c : SigCall) : Handlers :=
  if c.Accepted then Function.update T c.signo (c.disposition myrt known) else T

/-- A sequence of answers. -/
def AllAnswer (myrt known : Word) : Handlers → List SigCall → List (SigResult × Word) → Prop
  | _, [], rs => rs = []
  | T, c :: cs, rs =>
    ∃ r rs', rs = r :: rs' ∧ c.Answers T r ∧ AllAnswer myrt known (c.apply myrt known T) cs rs'

end SigCall

theorem members_keptMask (w : Word) : members (keptMask w) = members w \ {9, 19} := by
  have hsplit : keptMask w = w &&& ~~~sigmask 9 &&& ~~~sigmask 19 := by
    rw [keptMask, BitVec.not_or, BitVec.and_assoc]
  rw [hsplit, members_and_not_sigmask (by decide), members_and_not_sigmask (by decide),
    Set.sdiff_sdiff, Set.singleton_union]

theorem members_sigmask (h : sig ∈ Set.Icc 1 64) : members (sigmask sig) = {sig} := by
  have hone := members_or_sigmask (w := 0) h
  have hor : (0 : Word) ||| sigmask sig = sigmask sig := BitVec.zero_or
  rwa [hor, members_zero, insert_empty_eq] at hone

theorem Settable.ne {sig : Int} (h : Settable sig) : sig ∉ ({9, 19} : Set Int) := h.2

theorem handlers_update {t : Actions} {libc : Libc} :
    (⟨libc, Function.update t sig x⟩ : Process).handlers =
      Function.update (⟨libc, t⟩ : Process).handlers sig x.disposition := by
  funext i
  rw [Process.handlers, Function.apply_update (fun _ ↦ Action.disposition)]
  rfl

variable {c : SigCall}

/-- A call that is obeyed. -/
theorem SigCall.exec_accepted (hK : RtSigaction mapped known sys) (hgood : c.Good mapped)
    (h : c.Accepted) (myrt : Word) (s : Process) :
    ∃ r s', c.exec mapped sys myrt s = some (r, s') ∧ c.granted s.handlers r ∧
      s'.handlers = Function.update s.handlers c.signo (c.disposition myrt known) := by
  rcases c with ⟨sig, handler, frame⟩ | ⟨sig, x, act, oact⟩
  · obtain ⟨herr, hsig⟩ := h
    have hcall : Mini.signal mapped sys myrt sig handler frame s = _ := signal_eq hgood herr hsig.1
    obtain ⟨hacc, hoacc⟩ := hgood.acts
    rw [sigaction_of_settable hK hgood.act hacc (fun _ ↦ hoacc) hsig, if_neg hgood.oact,
      Option.map_some, if_neg (Int.lt_irrefl 0)] at hcall
    have hold (m : Mem) : loadWord (storeAction m (frame + 32) (s.actions sig)) (frame + 32) =
        (s.actions sig).sa_handler :=
      congrArg Action.sa_handler (loadAction_storeAction m (frame + 32) (s.actions sig))
    refine ⟨_, _, by rw [exec, hcall, Option.map_some], ?_, ?_⟩
    · rw [SigCall.granted, hold]
      rfl
    · rw [handlers_update, loadAction_built]
      have hmask : members (keptMask (sigmask sig)) = {sig} := by
        rw [members_keptMask, members_sigmask hsig.1]
        exact sdiff_eq_left.2 (Set.disjoint_singleton_left.2 hsig.ne)
      simp only [Action.disposition, Action.installed, Action.kept, Action.returning, hmask,
        hK.knows]
      rfl
  · obtain ⟨hact, hacc, hoacc⟩ := hgood
    have hcall : Process.sigaction mapped sys myrt sig act oact
        ⟨⟨storeAction s.libc.mem act x, s.libc.errno⟩, s.actions⟩ = _ :=
      sigaction_of_settable hK hact hacc hoacc h
    refine ⟨_, _, by rw [exec, hcall, Option.map_some], ⟨rfl, _, rfl, ?_⟩, ?_⟩
    · by_cases hnull : oact = 0
      · rw [if_pos (.inr hnull), if_pos hnull, Option.map_none]
      · have hcode : ¬ ((0 : Int) < 0 ∨ oact = 0) := not_or.2 ⟨Int.lt_irrefl 0, hnull⟩
        rw [if_neg hcode, if_neg hnull, Option.map_some]
        simp only [if_neg hnull, loadAction_storeAction]
        rfl
    · rw [handlers_update, loadAction_storeAction]
      simp only [Action.disposition, Action.installed, Action.kept, Action.returning,
        members_keptMask]
      rfl

/-- A call that is not. -/
theorem SigCall.exec_refused (hK : RtSigaction mapped known sys) (hgood : c.Good mapped)
    (h : ¬ c.Accepted) (myrt : Word) (s : Process) :
    ∃ s', c.exec mapped sys myrt s = some (c.refused, s') ∧ s'.handlers = s.handlers := by
  rcases c with ⟨sig, handler, frame⟩ | ⟨sig, x, act, oact⟩
  · by_cases hchecked : handler = sigErr ∨ sig < 1 ∨ sig ≥ nsig
    · refine ⟨{ s with libc := { s.libc with errno := einval } }, ?_, rfl⟩
      rw [exec, Mini.signal, if_pos hchecked]
      rfl
    · -- it is left to the kernel to refuse it
      rw [not_or, not_or, nsig] at hchecked
      obtain ⟨herr, hlo, hhi⟩ := hchecked
      have hrange : sig ∈ Set.Icc 1 64 := ⟨by omega, by omega⟩
      have hcall : Mini.signal mapped sys myrt sig handler frame s = _ :=
        signal_eq hgood herr hrange
      rw [sigaction_of_not_settable hK hgood.act hgood.acts.1 fun hs ↦ h ⟨herr, hs⟩,
        Option.map_some, if_pos (show (-1 : Int) < 0 by decide)] at hcall
      exact ⟨⟨⟨completed myrt (built s.libc.mem frame sig handler) frame, einval⟩, s.actions⟩,
        by rw [exec, hcall, Option.map_some]; rfl, rfl⟩
  · obtain ⟨hact, hacc, -⟩ := hgood
    have hcall : Process.sigaction mapped sys myrt sig act oact
        ⟨⟨storeAction s.libc.mem act x, s.libc.errno⟩, s.actions⟩ = _ :=
      sigaction_of_not_settable hK hact hacc h
    exact ⟨⟨⟨completed myrt (storeAction s.libc.mem act x) act, einval⟩, s.actions⟩,
      by rw [exec, hcall, Option.map_some, if_pos (.inl (show (-1 : Int) < 0 by decide))]; rfl, rfl⟩

/-- **One call.** -/
theorem SigCall.exec_refines (hK : RtSigaction mapped known sys) (hgood : c.Good mapped)
    (myrt : Word) (s : Process) : ∃ r s', c.exec mapped sys myrt s = some (r, s') ∧
      c.Answers s.handlers r ∧ s'.handlers = c.apply myrt known s.handlers := by
  by_cases h : c.Accepted
  · obtain ⟨r, s', he, hr, hs⟩ := exec_accepted hK hgood h myrt s
    exact ⟨r, s', he, ⟨fun _ ↦ hr, fun hn ↦ absurd h hn⟩, hs.trans (if_pos h).symm⟩
  · obtain ⟨s', he, hs⟩ := exec_refused hK hgood h myrt s
    exact ⟨_, s', he, ⟨fun ha ↦ absurd ha h, fun _ ↦ rfl⟩, hs.trans (if_neg h).symm⟩

/-- **The actions are a table of handlers.**  Any sequence of calls with structures that the process
can access comes to its end, changes the table as it should, and each call answers what the table
says at its turn. -/
theorem signal_refines (hK : RtSigaction mapped known sys) (myrt : Word) (calls : List SigCall)
    (hgood : ∀ c ∈ calls, c.Good mapped) (s : Process) :
    ∃ rs s', SigCall.execAll mapped sys myrt calls s = some (rs, s') ∧
      s'.handlers = calls.foldl (SigCall.apply myrt known) s.handlers ∧
      SigCall.AllAnswer myrt known s.handlers calls rs := by
  induction calls generalizing s with
  | nil => exact ⟨[], s, rfl, rfl, rfl⟩
  | cons c calls ih =>
    obtain ⟨r, t, he, hr, ht⟩ := SigCall.exec_refines hK (hgood c List.mem_cons_self) myrt s
    obtain ⟨rs, s', hes, hs, hrs⟩ := ih (fun c' hc' ↦ hgood c' (List.mem_cons_of_mem c hc')) t
    refine ⟨r :: rs, s', ?_, ?_, r, rs, rfl, hr, ?_⟩
    · rw [SigCall.execAll, he, Option.bind_some, hes, Option.map_some]
    · rw [List.foldl_cons, ← ht, hs]
    · rw [← ht]
      exact hrs

/-! ### A kernel -/

/-- The flags of the interface: `SA_NOCLDSTOP`, `SA_NOCLDWAIT`, `SA_SIGINFO`, `SA_EXPOSE_TAGBITS`,
`SA_RESTORER`, `SA_ONSTACK`, `SA_RESTART`, `SA_NODEFER` and `SA_RESETHAND`. -/
def uapiFlags : Word := 0xdc000807

/-- Three pages. -/
def page (a : Addr) : Bool := 0x7000 ≤ a && a < 0xa000

/-- A kernel with nothing but actions. -/
def actionKernel : SysSigaction Actions := fun sig act oact _ m t ↦
  if ¬ Accessible page act 32 then (-14, m, t)
  else if ¬ Settable sig then (-einval, m, t)
  else
    let t' := Function.update t sig ((loadAction m act).kept uapiFlags)
    if oact = 0 then (0, m, t')
    else if Accessible page oact 32 then (0, storeAction m oact (t sig), t')
    else (-14, m, t')

theorem actionKernel_rtSigaction : RtSigaction page uapiFlags actionKernel where
  knows := by decide
  refuses _ _ _ _ _ _ hacc h := by
    rw [actionKernel, if_neg (not_not.2 hacc), if_pos h]
  installs _ _ oact _ _ _ hacc hoacc h := by
    rw [actionKernel, if_neg (not_not.2 hacc), if_neg (not_not.2 h)]
    by_cases hnull : oact = 0
    · simp only [if_pos hnull]
    · simp only [if_neg hnull, if_pos (hoacc hnull)]

/-- Nothing is set yet. -/
def fresh : Process := ⟨⟨fun _ ↦ 0, 0⟩, fun _ ↦ ⟨0, 0, 0, 0⟩⟩

/-- A handler for `SIGINT`, one that `SIGKILL` does not get, and `SIG_IGN` for `SIGINT`. -/
theorem signal_refines_sigint : ∃ rs s', SigCall.execAll page actionKernel 0x401000
      [.signal 2 0x402000 0x7000, .signal 9 0x402000 0x7000, .signal 2 1 0x7000] fresh =
        some (rs, s') ∧
    rs = [(.handler 0, 0), (.handler (-1), 22), (.handler 0x402000, 0)] ∧
    (s'.handlers 2).handler = 1 ∧ (s'.handlers 2).mask = {2} := by
  have hframe : Frame page 0x7000 := ⟨by decide, by decide, by decide, by decide⟩
  have hgood : ∀ c ∈ ([.signal 2 0x402000 0x7000, .signal 9 0x402000 0x7000,
      .signal 2 1 0x7000] : List SigCall), c.Good page := by
    simpa [SigCall.Good] using hframe
  obtain ⟨rs, s', he, hs, r₁, _, rfl, h₁, r₂, _, rfl, h₂, r₃, _, rfl, h₃, rfl⟩ :=
    signal_refines actionKernel_rtSigaction 0x401000 _ hgood fresh
  have hkill : ¬ (SigCall.signal 9 0x402000 0x7000).Accepted := fun h ↦ h.2.2 (.inl rfl)
  have hfirst (T : Handlers) : (SigCall.signal 2 0x402000 0x7000).apply 0x401000 uapiFlags T = _ :=
    if_pos ⟨by decide, by decide⟩
  have hsecond (T : Handlers) : (SigCall.signal 9 0x402000 0x7000).apply 0x401000 uapiFlags T = T :=
    if_neg hkill
  have hthird (T : Handlers) : (SigCall.signal 2 1 0x7000).apply 0x401000 uapiFlags T = _ :=
    if_pos ⟨by decide, by decide⟩
  have hr₁ := h₁.1 ⟨by decide, by decide⟩
  have hr₂ := h₂.2 hkill
  have hr₃ := h₃.1 ⟨by decide, by decide⟩
  rw [SigCall.granted] at hr₁ hr₃
  rw [hfirst, hsecond] at hr₃
  simp only [List.foldl_cons, List.foldl_nil, hfirst, hsecond, hthird] at hs
  refine ⟨_, s', he, ?_, ?_, ?_⟩
  · rw [hr₁, hr₂, hr₃]
    rfl
  · rw [hs]
    rfl
  · rw [hs]
    rfl

/-- What has been installed is not changed by being installed again. -/
theorem installed_installed (myrt known : Word) (x : Action) :
    (x.installed myrt known).installed myrt known = x.installed myrt known := by
  have hflags : ((x.sa_flags ||| saRestorer) &&& known ||| saRestorer) &&& known =
      (x.sa_flags ||| saRestorer) &&& known := by
    ext i
    simp only [BitVec.getElem_and, BitVec.getElem_or]
    cases x.sa_flags[i] <;> cases saRestorer[i] <;> cases known[i] <;> rfl
  simp only [Action.installed, Action.kept, Action.returning, keptMask, hflags, BitVec.and_assoc,
    BitVec.and_self]

/-- **Putting an action back.**  `old` is a structure that `sigaction` has handed over, and nothing
has been written to it since.  The handler is the old one again in any case; the whole action is if
and only if it was one that these functions install. -/
theorem restores_iff (hK : RtSigaction mapped known sys) (hsig : Settable sig) (hact : act ≠ 0)
    (hacc : Accessible mapped act 32) {old : Addr} (hold : old ≠ 0)
    (hoacc : Accessible mapped old 32) (s : Process) :
    ∃ s₁, s.sigaction mapped sys myrt sig act old = some (0, s₁) ∧
      ∀ (s₂ : Process) (oact : Addr), (oact ≠ 0 → Accessible mapped oact 32) →
        loadAction s₂.libc.mem old = loadAction s₁.libc.mem old →
        ∃ s₃, s₂.sigaction mapped sys myrt sig old oact = some (0, s₃) ∧
          (s₃.actions sig).sa_handler = (s.actions sig).sa_handler ∧
          (s₃.actions sig = s.actions sig ↔
            ∃ x : Action, s.actions sig = x.installed myrt known) := by
  refine ⟨_, sigaction_of_settable hK hact hacc (fun _ ↦ hoacc) hsig, fun s₂ oact ho h₂ ↦
    ⟨_, sigaction_of_settable hK hold hoacc ho hsig, ?_⟩⟩
  rw [if_neg hold, loadAction_storeAction] at h₂
  simp only [Function.update_self, h₂]
  refine ⟨rfl, fun h ↦ ⟨_, h.symm⟩, ?_⟩
  rintro ⟨x, hx⟩
  rw [hx, installed_installed]

/-- The action that the process started with does not come back as it was. -/
theorem restores_iff_fresh : ∃ s₁ s₃,
    fresh.sigaction page actionKernel 0x401000 2 0x8000 0x9000 = some (0, s₁) ∧
    s₁.sigaction page actionKernel 0x401000 2 0x9000 0 = some (0, s₃) ∧
    (s₃.actions 2).sa_handler = 0 ∧ s₃.actions 2 ≠ fresh.actions 2 := by
  obtain ⟨s₁, h₁, hback⟩ :
      ∃ s₁, fresh.sigaction page actionKernel 0x401000 2 0x8000 0x9000 = some (0, s₁) ∧ _ :=
    restores_iff actionKernel_rtSigaction (by decide) (by decide) (by decide) (by decide)
      (by decide) fresh
  obtain ⟨s₃, h₃, hhandler, hiff⟩ := hback s₁ 0 (fun h ↦ absurd rfl h) rfl
  refine ⟨s₁, s₃, h₁, h₃, hhandler, fun h ↦ ?_⟩
  obtain ⟨x, hx⟩ := hiff.1 h
  have hrestorer : (0 : Word) = 0x401000 := congrArg Action.sa_restorer hx
  exact absurd hrestorer (by decide)

end Mini
