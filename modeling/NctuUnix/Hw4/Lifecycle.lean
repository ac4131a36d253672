import NctuUnix.Hw4.BpList

/-!
# The life of the tracee

Three pieces of the debugger's state speak about one process: `state`, `pid`, and whether the
process behind `pid` is still there.  They are in step (`InStep`) as long as every status that
`waitpid` reports is one the debugger takes apart correctly, and those are the normal exit and the
stop by `SIGTRAP` (`Understood`).  A death by a signal is overlooked, because the test for it sits
inside the branch for a normal exit; a stop by any other signal is announced as the end of the
child, which is still there.

## Main results

* `Does.reported` — a command either asks for no status and stays in step, or receives exactly one
  and goes through `After` with it.
* `lifecycle_iff` — in a session whose statuses have all been understood the state is in step, and
  the next command is `Correct` exactly when its status is understood too.
* `lifecycle_fails` — the two ways in which it goes wrong otherwise.
-/

set_option autoImplicit false

namespace Sdb

open Bytes Trap

variable {ε : Type} {h : Host ε} {s s' s₁ : Sdb ε} {c : Tracee ε} {cmd : Command}
  {ev ev' : Event Regs ε}

/-! ## The statuses a command receives -/

/-- `waitpid` reports the event `ev` to a command. -/
inductive Reports (h : Host ε) : Sdb ε → Command → Event Regs ε → Prop
  | cont {s : Sdb ε} {c : Tracee ε} {ev : Event Regs ε} {fuel : Nat} (hrun : s.state = .running)
      (hc : s.tracee = some c) (hev : h.resume fuel (rearmed s.bpList c) = some ev) :
      Reports h s .cont ev
  | si {s : Sdb ε} {c : Tracee ε} {ev : Event Regs ε} (hrun : s.state = .running)
      (hc : s.tracee = some c) (hev : h.singleStep (rearmed s.bpList c) = ev) :
      Reports h s .si ev
  | run {s : Sdb ε} {ev : Event Regs ε} (hrun : s.state = .running)
      (hw : Reports h s .cont ev) : Reports h s .run ev
  | startRun {s s₁ : Sdb ε} {ev : Event Regs ε} (hst : s.state = .loaded)
      (hs : Does h s .start s₁) (hw : Reports h s₁ .cont ev) : Reports h s .run ev

/-- An event whose status the debugger takes apart correctly. -/
def Understood : Event Regs ε → Prop
  | .exited _ => True
  | .killed _ _ => False
  | .stopped sig _ => sig = sigtrap

instance : DecidablePred (Understood : Event Regs ε → Prop)
  | .exited _ => .isTrue trivial
  | .killed _ _ => .isFalse id
  | .stopped sig _ => inferInstanceAs (Decidable (sig = sigtrap))

/-- The tracee terminates in this command. -/
def Terminates (h : Host ε) (s : Sdb ε) (cmd : Command) : Prop :=
  ∃ ev, Reports h s cmd ev ∧ ev.survivor = none

theorem Reports.cont_running (hr : Reports h s .cont ev) : s.state = .running := by
  rcases hr with ⟨hrun, -, -⟩
  exact hrun

theorem Reports.si_running (hr : Reports h s .si ev) : s.state = .running := by
  rcases hr with _ | ⟨hrun, -, -⟩
  exact hrun

/-- A `cont` has one event, whatever the fuel it was found with. -/
theorem Reports.cont_unique (hr : Reports h s .cont ev) (hr' : Reports h s .cont ev') :
    ev' = ev := by
  rcases hr with @⟨_, c, _, n, -, hc, hev⟩
  rcases hr' with @⟨_, c', _, n', -, hc', hev'⟩
  obtain rfl := Option.some.inj (hc.symm.trans hc')
  have hm := Machine.resume_mono hev (Nat.le_max_left n n')
  rw [Machine.resume_mono hev' (Nat.le_max_right n n')] at hm
  exact Option.some.inj hm

/-- And so has a `si`. -/
theorem Reports.si_unique (hr : Reports h s .si ev) (hr' : Reports h s .si ev') : ev' = ev := by
  rcases hr with _ | ⟨-, hc, rfl⟩
  rcases hr' with _ | ⟨-, hc', rfl⟩
  rw [Option.some.inj (hc'.symm.trans hc)]

theorem does_start_unique {s₂ : Sdb ε} (hs : Does h s .start s₁) (hs' : Does h s .start s₂) :
    s₁ = s₂ := by
  obtain ⟨n, hs⟩ := hs
  obtain ⟨n', hs'⟩ := hs'
  have hsame : exec h n .start s = exec h n' .start s := rfl
  rw [hs, hs'] at hsame
  exact Except.ok.inj (Option.some.inj hsame)

/-! ## In step -/

/-- `state == RUNNING` exactly when there is a process behind `pid`. -/
def InStep (s : Sdb ε) : Prop := s.state = .running ↔ s.pid ≠ 0 ∧ s.tracee.isSome = true

theorem inStep_init : InStep (init : Sdb ε) := by simp [InStep, init]

/-- Whatever the command does to a process that is there and stays there. -/
theorem InStep.of_running (hrun : s.state = .running) (hpid : s.pid ≠ 0)
    (hc : s.tracee = some c) : InStep s :=
  ⟨fun _ ↦ ⟨hpid, by rw [hc]; rfl⟩, fun _ ↦ hrun⟩

theorem InStep.pid (hin : InStep s) (hrun : s.state = .running) : s.pid ≠ 0 := (hin.1 hrun).1

theorem InStep.of_same (hin : InStep s) (hst : s'.state = s.state) (hp : s'.pid = s.pid)
    (ht : s'.tracee = s.tracee) : InStep s' := by
  rw [InStep, hst, hp, ht]
  exact hin

/-- Nor does it matter what is done to the process, if it is not let go. -/
theorem InStep.of_kept (hin : InStep s) (hrun : s.state = .running) (hst : s'.state = s.state)
    (hp : s'.pid = s.pid) (hc : s'.tracee = some c) : InStep s' :=
  .of_running (hst.trans hrun) (by rw [hp]; exact hin.pid hrun) hc

/-- The moves that wait for nothing keep the state in step. -/
theorem Move.inStep (hin : InStep s) (hm : Move h s cmd s') (hcont : cmd ≠ .cont)
    (hsi : cmd ≠ .si) : InStep s' := by
  rcases hm with ⟨-, hcore, -⟩ | ⟨e, hst, hcore⟩ | ⟨e, hst, hcore⟩ |
    ⟨pid, c, hst, hpid, hexec, hcore⟩ | ⟨c, hrun, hc, hcore⟩ | ⟨c, hrun, hc, hl, hcore⟩ |
    ⟨c, hrun, htext, hc, hbyte, hl, hcore⟩ | ⟨i, b, c, hrun, hb, hc, hcore⟩ |
    ⟨c, ev, fuel, hrun, hc, hev, hafter⟩ | ⟨c, hrun, hc, hafter⟩
  · exact hin.of_same (congrArg Core.state hcore) (congrArg Core.pid hcore)
      (congrArg Core.tracee hcore)
  · exact hin.of_same (congrArg Core.state hcore) (congrArg Core.pid hcore)
      (congrArg Core.tracee hcore)
  · have hs' : s'.state = .loaded := congrArg Core.state hcore
    have hp : s'.pid = s.pid := congrArg Core.pid hcore
    have ht : s'.tracee = s.tracee := congrArg Core.tracee hcore
    have hno : ¬ (s.pid ≠ 0 ∧ s.tracee.isSome = true) := fun hy ↦ by
      have hr := hin.2 hy
      rw [hst] at hr
      cases hr
    rw [InStep, hs', hp, ht]
    exact iff_of_false (by simp) hno
  · have hp : s'.pid = pid.val := congrArg Core.pid hcore
    exact .of_running (c := c) (congrArg Core.state hcore) (by rw [hp]; exact pid.2)
      (congrArg Core.tracee hcore)
  · exact hin.of_kept hrun (congrArg Core.state hcore) (congrArg Core.pid hcore)
      (congrArg Core.tracee hcore)
  · exact hin.of_kept hrun (congrArg Core.state hcore) (congrArg Core.pid hcore)
      (congrArg Core.tracee hcore)
  · exact hin.of_kept hrun (congrArg Core.state hcore) (congrArg Core.pid hcore)
      (congrArg Core.tracee hcore)
  · exact hin.of_kept hrun (congrArg Core.state hcore) (congrArg Core.pid hcore)
      (congrArg Core.tracee hcore)
  · exact absurd rfl hcont
  · exact absurd rfl hsi

/-! ## What is announced -/

/-- What has been said between two states is one thing. -/
theorem Says.unique {a b : Bool} (ha : Says s s' a) (hb : Says s s' b) : a = b := by
  obtain ⟨ms, hlog, rfl⟩ := ha
  obtain ⟨ms', hlog', rfl⟩ := hb
  rw [List.append_cancel_left (hlog.symm.trans hlog')]

/-- The commands that do not let the tracee run do not announce its end. -/
theorem Does.silent (hw : WF s) (hcont : cmd ≠ .cont) (hsi : cmd ≠ .si) (hrun : cmd ≠ .run)
    (hd : Does h s cmd s') : Says s s' false := by
  obtain ⟨fuel, hs⟩ := hd
  by_cases hq : cmd.quiet = true
  · exact (quiet_spec hq hs).2
  cases cmd with
  | «break» a => exact (bp_spec (Option.some.inj hs)).1
  | delete id => exact (del_spec hw.numbered (Option.some.inj hs)).1
  | load path => exact (load_spec (Option.some.inj hs)).1
  | set reg val => exact (set_spec (Option.some.inj hs)).1
  | start => exact (start_spec (Option.some.inj hs)).1
  | cont => exact absurd rfl hcont
  | si => exact absurd rfl hsi
  | run => exact absurd rfl hrun
  | _ => exact absurd rfl hq

/-- What the claim on a command asks for: the state stays in step, and the end of the child is
announced exactly when it ends, after which the debugger has let go of it. -/
def Correct (h : Host ε) (s : Sdb ε) (cmd : Command) (s' : Sdb ε) : Prop :=
  InStep s' ∧ (Says s s' true ↔ Terminates h s cmd) ∧
    (Terminates h s cmd → s'.pid = 0 ∧ s'.state = .loaded)

/-! ## One command -/

/-- A `cont` or a `si` in a program that does not run, and every command that waits for nothing. -/
theorem correct_of_quiet (hin : InStep s') (hsay : Says s s' false)
    (hno : ∀ ev, ¬ Reports h s cmd ev) : Correct h s cmd s' := by
  have hnt : ¬ Terminates h s cmd := fun ⟨ev, hev, _⟩ ↦ hno ev hev
  refine ⟨hin, ⟨fun hy ↦ ?_, fun ht ↦ absurd ht hnt⟩, fun ht ↦ absurd ht hnt⟩
  have := hsay.unique hy
  cases this

/-- **The command's status decides.** -/
theorem After.correct_iff {undo : Tracee ε → Tracee ε} (hrun : s₁.state = .running)
    (hpid : s₁.pid ≠ 0) (hsay : Says s s₁ false) (hone : ∀ ev', Reports h s cmd ev' ↔ ev' = ev)
    (ha : After undo s₁ ev s') : Correct h s cmd s' ↔ Understood ev := by
  have hterm : Terminates h s cmd ↔ ev.survivor = none :=
    ⟨fun ⟨ev', hev', hn⟩ ↦ (hone ev').1 hev' ▸ hn, fun hn ↦ ⟨ev, (hone ev).2 rfl, hn⟩⟩
  rw [Correct, hterm]
  rcases ha with ⟨hcore, hs⟩ | ⟨hcore, hs⟩ | ⟨hsig, hcore, hs⟩ | ⟨hcore, hs⟩
  · have hst : s'.state = .loaded := congrArg Core.state hcore
    have hp : s'.pid = 0 := congrArg Core.pid hcore
    refine iff_of_true ⟨?_, iff_of_true (hsay.trans hs) rfl, fun _ ↦ ⟨hp, hst⟩⟩ trivial
    rw [InStep, hst, hp]
    simp
  · have hst : s'.state = .running := (congrArg Core.state hcore).trans hrun
    have ht : s'.tracee = none := congrArg Core.tracee hcore
    refine iff_of_false (fun hc ↦ ?_) id
    have hin := (hc.1.1 hst).2
    rw [ht] at hin
    cases hin
  · -- announced, but still there
    refine iff_of_false (fun hc ↦ ?_) hsig
    have hn := hc.2.1.1 (hsay.trans hs)
    cases hn
  · refine iff_of_true ⟨?_, iff_of_false (fun hy ↦ ?_) (by simp [Event.survivor]), ?_⟩ rfl
    · have hp : s'.pid = s₁.pid := congrArg Core.pid hcore
      exact .of_running ((congrArg Core.state hcore).trans hrun) (by rw [hp]; exact hpid)
        (congrArg Core.tracee hcore)
    · have := (hsay.trans hs).unique hy
      cases this
    · intro hn
      cases hn

/-- **A command waits for nothing, or for one event.** -/
theorem Does.reported (hw : WF s) (hin : InStep s) (hd : Does h s cmd s') :
    (InStep s' ∧ Says s s' false ∧ ∀ ev, ¬ Reports h s cmd ev) ∨
      ∃ s₁ undo ev, s₁.state = .running ∧ s₁.pid ≠ 0 ∧ Says s s₁ false ∧
        (∀ ev', Reports h s cmd ev' ↔ ev' = ev) ∧ After undo s₁ ev s' := by
  -- `cont`, which `run` goes through as well
  have hcont : ∀ {t : Sdb ε}, WF t → InStep t → Does h t .cont s' →
      (InStep s' ∧ Says t s' false ∧ ∀ ev, ¬ Reports h t .cont ev) ∨
        ∃ undo ev, t.state = .running ∧ (∀ ev', Reports h t .cont ev' ↔ ev' = ev) ∧
          After undo t ev s' := by
    intro t hwt hit hdt
    by_cases hrun : t.state = .running
    · obtain ⟨fuel, hs⟩ := hdt
      obtain ⟨c, ev, hc, hev, hafter⟩ := cont_spec hrun hwt.inText hs
      refine .inr ⟨_, ev, hrun, fun ev' ↦ ⟨fun hr ↦ ?_, ?_⟩, hafter⟩
      · exact Reports.cont_unique (.cont hrun hc hev) hr
      · rintro rfl
        exact .cont hrun hc hev
    · obtain ⟨fuel, hs⟩ := hdt
      rw [exec, cont, if_pos hrun] at hs
      cases hs
      exact .inl ⟨hit, says_print t _, fun ev hr ↦ hrun hr.cont_running⟩
  by_cases hc : cmd = .cont
  · subst hc
    rcases hcont hw hin hd with hq | ⟨undo, ev, hrun, hone, hafter⟩
    · exact .inl hq
    · exact .inr ⟨s, undo, ev, hrun, hin.pid hrun, .refl s, hone, hafter⟩
  by_cases hs : cmd = .si
  · subst hs
    obtain ⟨fuel, hs⟩ := hd
    replace hs : si h s = .ok s' := Option.some.inj hs
    by_cases hrun : s.state = .running
    · obtain ⟨c, hc, hafter⟩ := si_spec hrun hw.inText hs
      refine .inr ⟨s, _, _, hrun, hin.pid hrun, .refl s, fun ev' ↦ ⟨?_, ?_⟩, hafter⟩
      · exact Reports.si_unique (.si hrun hc rfl)
      · rintro rfl
        exact .si hrun hc rfl
    · rw [si, if_pos hrun] at hs
      cases hs
      exact .inl ⟨hin, says_print s _, fun ev hr ↦ hrun hr.si_running⟩
  by_cases hr : cmd = .run
  · subst hr
    rcases hd.run_cases with ⟨hrun, hdc⟩ | ⟨hst, s₁, hds, hdc⟩ | ⟨hst, hcore, hsay⟩
    · have hsame : ∀ ev, Reports h s .run ev ↔ Reports h s .cont ev := fun ev ↦ by
        refine ⟨?_, .run hrun⟩
        rintro (_ | _ | ⟨-, hw⟩ | ⟨hst, -, -⟩)
        · exact hw
        · rw [hrun] at hst
          cases hst
      simp only [hsame]
      rcases hcont hw hin hdc with hq | ⟨undo, ev, -, hone, hafter⟩
      · exact .inl hq
      · exact .inr ⟨s, undo, ev, hrun, hin.pid hrun, .refl s, hone, hafter⟩
    · have hsame : ∀ ev, Reports h s .run ev ↔ Reports h s₁ .cont ev := fun ev ↦ by
        refine ⟨?_, .startRun hst hds⟩
        rintro (_ | _ | ⟨hrun, -⟩ | ⟨-, hs₂, hw⟩)
        · rw [hrun] at hst
          cases hst
        · exact does_start_unique hs₂ hds ▸ hw
      have hin₁ : InStep s₁ := (hds.move hw (by simp)).inStep hin (by simp) (by simp)
      have hsay₁ : Says s s₁ false := hds.silent hw (by simp) (by simp) (by simp)
      simp only [hsame]
      rcases hcont (hds.wf hw) hin₁ hdc with ⟨hi, hy, hn⟩ | ⟨undo, ev, hrun₁, hone, hafter⟩
      · exact .inl ⟨hi, hsay₁.trans hy, hn⟩
      · exact .inr ⟨s₁, undo, ev, hrun₁, hin₁.pid hrun₁, hsay₁, hone, hafter⟩
    · have hm : Move h s .run s' := .same trivial hcore hsay
      refine .inl ⟨hm.inStep hin (by simp) (by simp), hsay, ?_⟩
      rintro ev (_ | _ | ⟨hrun, -⟩ | ⟨hl, -, -⟩)
      · rw [hst] at hrun
        cases hrun
      · rw [hst] at hl
        cases hl
  · refine .inl ⟨(hd.move hw hr).inStep hin hc hs, hd.silent hw hc hs hr, ?_⟩
    rintro ev (_ | _ | _ | _)
    · exact hc rfl
    · exact hs rfl
    · exact hr rfl
    · exact hr rfl

/-- A command is correct exactly when it understands its status. -/
theorem Does.correct_iff (hw : WF s) (hin : InStep s) (hd : Does h s cmd s') :
    Correct h s cmd s' ↔ ∀ ev, Reports h s cmd ev → Understood ev := by
  rcases hd.reported hw hin with ⟨hi, hsay, hno⟩ | ⟨s₁, undo, ev, hrun, hpid, hsay, hone, hafter⟩
  · exact iff_of_true (correct_of_quiet hi hsay hno) fun ev hev ↦ absurd hev (hno ev)
  · rw [hafter.correct_iff hrun hpid hsay hone]
    exact ⟨fun hu ev' hev' ↦ (hone ev').1 hev' ▸ hu, fun hu ↦ hu ev ((hone ev).2 rfl)⟩

/-! ## Sessions -/

/-- **The life of the tracee in a session.**  As long as every status reported has been understood
the state is in step, and the next command is correct exactly when its status is understood. -/
theorem lifecycle_iff
    (hr : Session h (fun s cmd ↦ ∀ ev, Reports h s cmd ev → Understood ev) s) :
    InStep s ∧ ∀ cmd s', Does h s cmd s' →
      (Correct h s cmd s' ↔ ∀ ev, Reports h s cmd ev → Understood ev) := by
  have hboth : WF s ∧ InStep s := by
    refine hr.invariant (I := fun t ↦ WF t ∧ InStep t) ⟨wf_init, inStep_init⟩ ?_
    rintro t cmd t' ⟨hw, hin⟩ hok hd
    exact ⟨hd.wf hw, ((hd.correct_iff hw hin).2 hok).1⟩
  exact ⟨hboth.2, fun cmd s' hd ↦ hd.correct_iff hboth.1 hboth.2⟩

/-- The commands about the life of a program. -/
def Command.ofLifecycle : Command → Bool
  | .load _ | .start | .run | .cont | .si => true
  | _ => false

theorem lifecycle_iff_nop : ∃ s s', Does (Tiny.host [0x90]) s .si s' ∧ s'.state = .running ∧
    Correct (Tiny.host [0x90]) s .si s' := by
  obtain ⟨s, hr, hp⟩ := script_reaches (Tiny.host [0x90])
    (fun cmd ↦ ∀ s ev, Reports (Tiny.host [0x90]) s cmd ev → Understood ev) 1
    [.load "a.out", .start]
    (fun s ↦ s.tracee.all (fun c ↦ Understood ((Tiny.host [0x90]).singleStep (rearmed s.bpList c)))
      && (script (Tiny.host [0x90]) 1 [.si] s).any fun s' ↦ s'.state = .running)
    (by
      intro cmd hcmd s ev hev
      rcases List.mem_cons.1 hcmd with rfl | hcmd
      · cases hev
      · obtain rfl := List.mem_singleton.1 hcmd
        cases hev)
    (by decide +kernel)
  rw [Bool.and_eq_true] at hp
  obtain ⟨hev, hok⟩ := hp
  obtain ⟨s', hs', hst⟩ := (Option.any_eq_true _ _).1 hok
  have hd : Does (Tiny.host [0x90]) s .si s' := does_of_script hs'
  refine ⟨s, s', hd, of_decide_eq_true hst, ?_⟩
  refine ((lifecycle_iff (hr.mono fun t cmd ho ↦ ho t)).2 .si s' hd).2 ?_
  rintro ev (_ | ⟨-, hc, rfl⟩)
  rw [hc] at hev
  simpa using hev

/-- `getpid`, and `kill` of that process with `SIGKILL`. -/
def suicide : List Byte :=
  [0xb0, 0x27, 0x0f, 0x05,                    -- mov al, 39; syscall
    0x89, 0xc7,                               -- mov edi, eax
    0x40, 0xb6, 0x09,                         -- mov sil, 9
    0xb8, 0x3e, 0x00, 0x00, 0x00, 0x0f, 0x05] -- mov eax, 62; syscall

/-- **Where the statuses are not understood.**  A program that kills itself: the debugger goes on
believing in a process that is gone.  A program whose second instruction is illegal: the debugger
announces the end of a process that is still there. -/
theorem lifecycle_fails :
    (∃ s s', Session (Tiny.host suicide) (fun _ cmd ↦ cmd.ofLifecycle = true) s ∧
        Does (Tiny.host suicide) s .cont s' ∧ s'.state = .running ∧ s'.pid ≠ 0 ∧
        s'.tracee.isSome = false ∧ ¬ InStep s') ∧
      ∃ s s', Session (Tiny.host [0x90, 0x06]) (fun _ cmd ↦ cmd.ofLifecycle = true) s ∧
        Does (Tiny.host [0x90, 0x06]) s .cont s' ∧ Says s s' true ∧ s'.state = .running ∧
        s'.tracee.isSome = true ∧ ¬ Correct (Tiny.host [0x90, 0x06]) s .cont s' := by
  constructor
  · obtain ⟨s, hr, hp⟩ := script_reaches (Tiny.host suicide)
      (fun cmd ↦ cmd.ofLifecycle = true) 1 [.load "a.out", .start]
      (fun s ↦ (script (Tiny.host suicide) 9 [.cont] s).any
        fun s' ↦ s'.state = .running ∧ s'.pid ≠ 0 ∧ s'.tracee.isSome = false)
      (by decide) (by decide +kernel)
    obtain ⟨s', hs', hp⟩ := (Option.any_eq_true _ _).1 hp
    obtain ⟨hst, hpid, ht⟩ := of_decide_eq_true hp
    refine ⟨s, s', hr, does_of_script hs', hst, hpid, ht, fun hin ↦ ?_⟩
    rw [(hin.1 hst).2] at ht
    cases ht
  · obtain ⟨s, hr, hp⟩ := script_reaches (Tiny.host [0x90, 0x06])
      (fun cmd ↦ cmd.ofLifecycle = true) 1 [.load "a.out", .start]
      (fun s ↦ (script (Tiny.host [0x90, 0x06]) 9 [.cont] s).any fun s' ↦
        s'.log = s.log ++ [.terminiatedBySignal 2 4] ∧ s'.state = .running ∧
          s'.tracee.isSome = true)
      (by decide) (by decide +kernel)
    obtain ⟨s', hs', hp⟩ := (Option.any_eq_true _ _).1 hp
    obtain ⟨hlog, hst, ht⟩ := of_decide_eq_true hp
    have hsay : Says s s' true := ⟨_, hlog, rfl⟩
    refine ⟨s, s', hr, does_of_script hs', hsay, hst, ht, fun hc ↦ ?_⟩
    have hend := (hc.2.2 (hc.2.1.1 hsay)).2
    rw [hst] at hend
    cases hend

end Sdb
