import NctuUnix.Hw4.Complete

/-!
# Debugging changes nothing

The process the user looks at (`original`) ought to be, at every stop, a state of the run that the
same program makes without a debugger: `OnRun` says which one.  `cont` should move it along that
run, `si` by one instruction, and the other commands not at all (`Advances`).

That needs more than the debugger takes care of, and `Faithful` lists it, command by command.  A
`si` must not start at a trap: it executes the trap, and what it looks for afterwards is an entry at
the program counter, not one before it.  The trap that ends a `cont` must match one entry, since
every match moves the program counter back.  And no word that is written back may be out of date
behind the end of the text.

## Main results

* `Does.onRun` — one command that is faithful.
* `transparent` — sessions of such commands.
* `transparent_fails` — a break point set at the current instruction, and a `si`.
-/

set_option autoImplicit false

namespace Sdb

open Bytes Trap

variable {ε : Type} {h : Host ε} {s s' : Sdb ε} {c c' c₀ : Tracee ε} {cmd : Command} {img : Mem}
  {n : Nat}

/-! ## The run without a debugger

`original` puts the text of the file back under the traps.  `OnRun` compares all of the process that
the model has with the run, and `SameAs` what the user can look at, the registers and the memory.
-/

/-- The tracee with its text put back is the state the program is in after `n` instructions. -/
def OnRun (h : Host ε) (img : Mem) (s : Sdb ε) (n : Nat) : Prop :=
  ∃ c c₀, s.tracee = some c ∧ h.execvp s.filePath (s.forks - 1) = some c₀ ∧
    h.run n c₀ = some (original img s.elf c)

/-- The tracee has the registers of the program after `n` instructions, and its memory apart from
the text. -/
def SameAs (h : Host ε) (s : Sdb ε) (n : Nat) : Prop :=
  ∃ c c₀ o, s.tracee = some c ∧ h.execvp s.filePath (s.forks - 1) = some c₀ ∧
    h.run n c₀ = some o ∧ c.regs = o.regs ∧ ∀ a, ¬ InText s.elf a → c.mem a = o.mem a

/-- What can be looked at is the program's own. -/
theorem OnRun.sameAs (hon : OnRun h img s n) : SameAs h s n := by
  obtain ⟨c, c₀, hc, hc₀, hrun⟩ := hon
  exact ⟨c, c₀, _, hc, hc₀, hrun, rfl, fun a ha ↦ (original_mem_off c ha).symm⟩

/-- The program that the `k`-th child runs has the text of the image, does not write it, and gets no
signal but from a trap of its own. -/
def Tame (h : Host ε) (img : Mem) (e : Elf) (path : String) (k : Nat) : Prop :=
  ∀ c₀, h.execvp path k = some c₀ → (∀ a, InText e a → c₀.mem a = img a) ∧
    ∀ n cn, h.run n c₀ = some cn → h.Keeps (InText e) cn ∧ h.Silent cn

/-- How far a command moves the tracee along the run. -/
def Advances : Command → Nat → Nat → Prop
  | .cont, n, n' => n ≤ n'
  | .run, n, n' => n ≤ n'
  | .si, n, n' => n' = n + 1
  | _, n, n' => n' = n

/-- What the entries of `hs` write back behind the text is what `c` has there. -/
def FreshBehind (e : Elf) (hs : List Bp) (c : Tracee ε) : Prop :=
  ∀ a v, ¬ InText e a → writes hs a = some v → v = c.mem a

/-- What a command needs in order not to disturb the program. -/
def Faithful (h : Host ε) (img : Mem) (s : Sdb ε) : Command → Prop
  | .start => Tame h img s.elf s.filePath s.forks
  | .set _ _ => False
  | .delete id => ∀ (i : Nat) (b : Bp) (c : Tracee ε), id = i → s.bpList[i]? = some b →
      s.tracee = some c → FreshBehind s.elf [b] c
  | .cont => ∀ c, s.tracee = some c →
      (∀ j cj, h.steps j (original img s.elf c) = some cj →
        (∀ i ci, i ≤ j → h.steps i (original img s.elf c) = some ci →
          ¬ Armed img s c ci.regs.rip) → h.Ignores (Armed img s c) cj) ∧
      ∀ c', Reports h s .cont (.stopped sigtrap c') →
        (Armed img s c (c'.regs.rip - 1) → ∃ b, hits s.bpList c'.regs.rip = [b]) ∧
        FreshBehind s.elf (hits s.bpList c'.regs.rip) c'
  | .si => ∀ c, s.tracee = some c → c.mem c.regs.rip = (original img s.elf c).mem c.regs.rip ∧
      h.Ignores (Armed img s c) (original img s.elf c) ∧
      ∀ c', Reports h s .si (.stopped sigtrap c') →
        FreshBehind s.elf (s.bpList.filter fun b ↦ b.addr = c'.regs.rip) c'
  | _ => True

/-! ## Writing back

A hit writes a whole word, seven bytes of which may lie behind the end of the text.
-/

/-- Writing back fresh words leaves what is not text alone. -/
theorem FreshBehind.restore {hs : List Bp} (hf : FreshBehind s.elf hs c) {a : Addr}
    (ha : ¬ InText s.elf a) : restore hs c.mem a = c.mem a := by
  rw [restore_eq, overlay]
  rcases hw : writes hs a with _ | v
  · rfl
  · rw [hf a v ha hw, Option.getD_some]

/-- A trap that one entry matches is undone: the program counter is back at it. -/
theorem contUndo_of_single {l : List Bp} {b : Bp} (hb : hits l (c.regs.rip + 1) = [b]) :
    contUndo l { c with regs := setPc c.regs (pc c.regs + 1) }
      = { c with mem := restore [b] c.mem } := by
  have hrip : (setPc c.regs (pc c.regs + 1)).rip = c.regs.rip + 1 := rfl
  have hback : c.regs.rip + 1 - BitVec.ofNat 64 1 = c.regs.rip := BitVec.add_sub_cancel _ _
  simp only [contUndo, hrip, hb, List.length_singleton, hback]
  rfl

/-! ## The state behind the traps, along the run

The process and the state behind its traps move in step (`Machine.steps_unplanted`), as long as the
program does not look at its own text and does not change it.  `Follows` is what holds of the second
one in a tame program.
-/

/-- A process on the run of a tame program. -/
structure Follows (h : Host ε) (img : Mem) (s : Sdb ε) (c₀ : Tracee ε) (n : Nat) (o : Tracee ε) :
    Prop where
  run : h.run n c₀ = some o
  image : ∀ a, InText s.elf a → o.mem a = img a
  keeps : h.Keeps (InText s.elf) o
  silent : h.Silent o

/-- Every state on the run has the text of the file. -/
theorem Tame.follows (htame : Tame h img s.elf s.filePath (s.forks - 1))
    (hc₀ : h.execvp s.filePath (s.forks - 1) = some c₀) {o : Tracee ε}
    (hrun : h.run n c₀ = some o) : Follows h img s c₀ n o := by
  obtain ⟨himg, hall⟩ := htame c₀ hc₀
  refine ⟨hrun, fun a ha ↦ ?_, (hall n o hrun).1, (hall n o hrun).2⟩
  rw [Machine.run_keeps hrun (fun k ck hk ↦ (hall k ck hk).1) ha]
  exact himg a ha

/-- The tracee of `s'` is a process on the run, up to its text. -/
theorem onRun_of_eq {o : Tracee ε} (hf : Follows h img s c₀ n o)
    (hc₀ : h.execvp s.filePath (s.forks - 1) = some c₀) (hpath : s'.filePath = s.filePath)
    (hforks : s'.forks = s.forks) (helf : s'.elf = s.elf) (hc' : s'.tracee = some c')
    (hr : c'.regs = o.regs) (he : c'.env = o.env) (ht : c'.ticks = o.ticks)
    (hm : ∀ a, ¬ InText s.elf a → c'.mem a = o.mem a) : OnRun h img s' n := by
  refine ⟨c', c₀, hc', by rw [hpath, hforks]; exact hc₀, ?_⟩
  rw [helf, original_eq hr he ht hf.image hm]
  exact hf.run

/-! ## One move

Where a `cont` stops there are three cases: a planted trap, of which one entry knows; an event of
the program itself, which is the same without the traps; and a trap that is in the program, which no
entry knows of.
-/

/-- **A `cont` in a tame program** is on the run again when it has stopped. -/
theorem onRun_cont {fuel : Nat} {ev : Event Regs ε} (hw : WF s) (ht : TextOk img s)
    (htame : Tame h img s.elf s.filePath (s.forks - 1)) (hrun : s.state = .running)
    (hc : s.tracee = some c) (hon : OnRun h img s n) (hp : Faithful h img s .cont)
    (hev : h.resume fuel (rearmed s.bpList c) = some ev)
    (hafter : After (contUndo s.bpList) s ev s') (hc' : s'.tracee = some c') :
    ∃ n', OnRun h img s' n' ∧ n ≤ n' := by
  obtain ⟨c₁, c₀, hc₁, hc₀, hrun₀⟩ := hon
  obtain rfl := Option.some.inj (hc₁.symm.trans hc)
  obtain ⟨hign, hstop⟩ := hp c₁ hc
  obtain ⟨-, helf, hpath, hforks, -⟩ := hafter.table
  have hpl := ht.planted_rearmed hc
  have hfollow : ∀ {k : Nat} {ok : Tracee ε}, h.steps k (original img s.elf c₁) = some ok →
      Follows h img s c₀ (n + k) ok := fun hk ↦
    htame.follows hc₀ ((Machine.run_add hrun₀).trans (Machine.run_of_steps hk))
  obtain ⟨m, cm, -, hsm, hhalt⟩ := Machine.resume_iff.1 hev
  obtain ⟨om, hsom, hpm, hfree⟩ := Machine.steps_unplanted hpl hsm fun k ck _ hk hno ↦
    ⟨hign k ck hk hno, (hfollow hk).keeps.mono fun _ ha ↦ ha.inText hw⟩
  have hfm := hfollow hsom
  by_cases harm : Armed img s c₁ om.regs.rip
  · -- the tracee has run into a trap
    rw [Machine.step_trapped hpm harm] at hhalt
    obtain rfl : _ = ev := (Outcome.halt.inj hhalt)
    have hrip : cm.regs.rip + 1 - 1 = om.regs.rip := by
      rw [BitVec.add_sub_cancel, hpm.regs]
    obtain ⟨hone, hfresh⟩ := hstop _ (.cont hrun hc hev)
    obtain ⟨b, hb⟩ := hone (by
      show Armed img s c₁ (cm.regs.rip + 1 - 1)
      rwa [hrip])
    rcases hafter with _ | _ | ⟨hsig, -, -⟩ | ⟨hcore, -⟩
    · exact absurd rfl hsig
    have htr : s'.tracee = some { cm with mem := restore [b] cm.mem } := by
      rw [← contUndo_of_single hb]
      exact congrArg Core.tracee hcore
    refine ⟨n + m, onRun_of_eq hfm hc₀ hpath hforks helf htr hpm.regs hpm.env hpm.ticks ?_,
      by omega⟩
    intro a ha
    have hsame : restore [b] cm.mem a = cm.mem a := hb ▸ hfresh.restore ha
    exact hsame.trans (hpm.mem a fun hp ↦ ha (hp.inText hw))
  · -- it has not: the event is the program's own
    have hnone : ∀ i ci, i ≤ m → h.steps i (original img s.elf c₁) = some ci →
        ¬ Armed img s c₁ ci.regs.rip := by
      intro i ci hi hci
      rcases Nat.lt_or_eq_of_le hi with hlt | rfl
      · exact hfree i ci hlt hci
      · rwa [← Option.some.inj (hsom.symm.trans hci)]
    have hout := Machine.step_planted hpm
      ⟨harm, hign m om hsom hnone, hfm.keeps.mono fun _ ha ↦ ha.inText hw⟩
    rw [hhalt] at hout
    rcases hfm.silent.cases with ⟨o₁, hnext⟩ | ⟨code, hexit⟩ | ⟨hint, htrap⟩
    · rw [hnext] at hout
      cases hout
    · rw [hexit] at hout
      cases hout
      rcases hafter with ⟨hcore, -⟩
      exact absurd (hc'.symm.trans (congrArg Core.tracee hcore)) (by simp [Core.ended])
    · -- a trap of the program: no entry is there
      rw [htrap] at hout
      rcases hout with _ | @⟨_, c₂, _, hp₂⟩
      have hrun₂ : h.run (n + (m + 1)) c₀
          = some { om with regs := setPc om.regs (pc om.regs + 1) } := by
        rw [← Nat.add_assoc, Machine.run_add hfm.run, Machine.run,
          Machine.advance_of_stopped htrap]
        rfl
      have hnil : hits s.bpList c₂.regs.rip = [] := by
        refine hits_eq_nil_iff.2 fun hm ↦ ?_
        obtain ⟨b, hb, hba⟩ := List.mem_map.1 hm
        have hrip : c₂.regs.rip - 1 = om.regs.rip := by
          rw [hp₂.regs]
          show om.regs.rip + 1 - 1 = om.regs.rip
          rw [BitVec.add_sub_cancel]
        have himg := hfm.image b.addr (hw.inText b hb)
        rw [hba, hrip] at himg
        refine (ht.low b hb).2 ?_
        rw [hba, hrip, ← himg]
        exact hint
      rcases hafter with _ | _ | ⟨hsig, -, -⟩ | ⟨hcore, -⟩
      · exact absurd rfl hsig
      have hundo : contUndo s.bpList c₂ = c₂ := by
        rw [contUndo, hnil]
        simp [restore]
      have hc₂ : s'.tracee = some (contUndo s.bpList c₂) := congrArg Core.tracee hcore
      rw [hundo] at hc₂
      exact ⟨n + (m + 1), onRun_of_eq (htame.follows hc₀ hrun₂) hc₀ hpath hforks helf hc₂ hp₂.regs
        hp₂.env hp₂.ticks fun a ha ↦ hp₂.mem a fun hp ↦ ha (hp.inText hw), by omega⟩

/-- **A `si` in a tame program**, where no trap stands at the current instruction, executes that
instruction. -/
theorem onRun_si (hw : WF s) (ht : TextOk img s)
    (htame : Tame h img s.elf s.filePath (s.forks - 1)) (hrun : s.state = .running)
    (hc : s.tracee = some c) (hon : OnRun h img s n) (hp : Faithful h img s .si)
    (hafter : After (siUndo s.bpList) s (h.singleStep (rearmed s.bpList c)) s')
    (hc' : s'.tracee = some c') : OnRun h img s' (n + 1) := by
  obtain ⟨c₁, c₀, hc₁, hc₀, hrun₀⟩ := hon
  obtain rfl := Option.some.inj (hc₁.symm.trans hc)
  obtain ⟨hclear, hign, hstop⟩ := hp c₁ hc
  obtain ⟨-, helf, hpath, hforks, -⟩ := hafter.table
  have hpl := ht.planted_rearmed hc
  have hf := htame.follows hc₀ hrun₀
  have harm : ¬ Armed img s c₁ (original img s.elf c₁).regs.rip := by
    rintro (⟨b, hb, hba, hlt⟩ | ⟨htext, hne⟩)
    · exact absurd hlt (BitVec.lt_irrefl _)
    · exact hne (hclear.trans (original_mem_text c₁ htext))
  have hout := Machine.step_planted hpl ⟨harm, hign, hf.keeps.mono fun _ ha ↦ ha.inText hw⟩
  -- a stop on the run, seen through the traps
  have hdone : ∀ {c₂ : Tracee ε} (o₂ : Tracee ε),
      h.singleStep (rearmed s.bpList c₁) = .stopped sigtrap c₂ →
      h.run (n + 1) c₀ = some o₂ → Planted (Armed img s c₁) c₂ o₂ → OnRun h img s' (n + 1) := by
    intro c₂ o₂ hev hrun₂ hp₂
    have hfresh := hstop c₂ (.si hrun hc hev)
    rw [hev] at hafter
    rcases hafter with _ | _ | ⟨hsig, -, -⟩ | ⟨hcore, -⟩
    · exact absurd rfl hsig
    exact onRun_of_eq (htame.follows hc₀ hrun₂) hc₀ hpath hforks helf
      (congrArg Core.tracee hcore) hp₂.regs hp₂.env hp₂.ticks fun a ha ↦
        (hfresh.restore ha).trans (hp₂.mem a fun hp ↦ ha (hp.inText hw))
  rcases hf.silent.cases with ⟨o₁, hnext⟩ | ⟨code, hexit⟩ | ⟨hint, htrap⟩
  · rw [hnext] at hout
    rcases hstep : h.step (rearmed s.bpList c₁) with c₂ | ev
    · rw [hstep] at hout
      rcases hout with ⟨hp₂⟩
      refine hdone o₁ (by rw [Machine.singleStep, hstep]) ?_ hp₂
      rw [Machine.run_add hrun₀, Machine.run, Machine.advance_of_next hnext]
      rfl
    · rw [hstep] at hout
      cases hout
  · rw [hexit] at hout
    rcases hstep : h.step (rearmed s.bpList c₁) with c₂ | ev
    · rw [hstep] at hout
      cases hout
    · rw [hstep] at hout
      cases hout
      rw [Machine.singleStep, hstep] at hafter
      rcases hafter with ⟨hcore, -⟩
      exact absurd (hc'.symm.trans (congrArg Core.tracee hcore)) (by simp [Core.ended])
  · rw [htrap] at hout
    rcases hstep : h.step (rearmed s.bpList c₁) with c₂ | ev
    · rw [hstep] at hout
      cases hout
    · rw [hstep] at hout
      rcases hout with _ | @⟨_, c₂, _, hp₂⟩
      refine hdone _ (by rw [Machine.singleStep, hstep]) ?_ hp₂
      rw [Machine.run_add hrun₀, Machine.run, Machine.advance_of_stopped htrap]
      rfl

/-- What is left of the process behind the traps when only the text has been touched. -/
theorem OnRun.of_mem (hon : OnRun h img s n) (hc : s.tracee = some c)
    (hpath : s'.filePath = s.filePath) (hforks : s'.forks = s.forks) (helf : s'.elf = s.elf)
    (hc' : s'.tracee = some c') (hr : c'.regs = c.regs) (he : c'.env = c.env)
    (ht : c'.ticks = c.ticks) (hm : ∀ a, ¬ InText s.elf a → c'.mem a = c.mem a) :
    OnRun h img s' n := by
  obtain ⟨c₁, c₀, hc₁, hc₀, hrun⟩ := hon
  obtain rfl := Option.some.inj (hc₁.symm.trans hc)
  refine ⟨c', c₀, hc', by rw [hpath, hforks]; exact hc₀, ?_⟩
  rw [helf, original_congr hr he ht hm]
  exact hrun

/-- A command that does nothing stays where it is. -/
theorem advances_refl (hi : s.Idle cmd) (hrun : s.state = .running) : Advances cmd n n := by
  cases cmd with
  | cont => exact Nat.le_refl n
  | run => exact Nat.le_refl n
  | si => exact absurd hrun hi
  | _ => rfl

/-- A trap planted in the text is no change outside it. -/
theorem arm_mem_off {a : Addr} (ha : InText s.elf a) {x : Addr} (hx : ¬ InText s.elf x) :
    (arm a c).mem x = c.mem x :=
  arm_mem_of_ne (fun hxa : x = a ↦ hx (by rw [hxa]; exact ha)) c

/-- **One faithful move** in a program that runs. -/
theorem Move.onRun (hw : WF s) (ht : TextOk img s)
    (htame : Tame h img s.elf s.filePath (s.forks - 1)) (hrun : s.state = .running)
    (hon : OnRun h img s n) (hp : Faithful h img s cmd) (hm : Move h s cmd s')
    (hc' : s'.tracee = some c') : ∃ n', OnRun h img s' n' ∧ Advances cmd n n' := by
  rcases hm with ⟨hidle, hcore, -⟩ | ⟨e, hst, hcore⟩ | ⟨e, hst, hcore⟩ |
    ⟨pid, c, hst, hpid, hexec, hcore⟩ | ⟨c, hrun, hc, hcore⟩ | @⟨a, _, c, hrun, hc, hl, hcore⟩ |
    @⟨a, _, c, hrun, htext, hc, hbyte, hl, hcore⟩ | ⟨i, b, c, hrun, hb, hc, hcore⟩ |
    ⟨c, ev, fuel, hrun, hc, hev, hafter⟩ | ⟨c, hrun, hc, hafter⟩
  · have htr : s'.tracee = s.tracee := congrArg Core.tracee hcore
    exact ⟨n, hon.of_mem (htr ▸ hc') (congrArg Core.filePath hcore) (congrArg Core.forks hcore)
      (congrArg Core.elf hcore) hc' rfl rfl rfl fun _ _ ↦ rfl, advances_refl hidle hrun⟩
  · rw [hst] at hrun
    cases hrun
  · rw [hst] at hrun
    cases hrun
  · rw [hst] at hrun
    cases hrun
  · exact hp.elim
  · obtain ⟨b, hb, rfl⟩ := hl
    exact ⟨n, hon.of_mem hc (congrArg Core.filePath hcore) (congrArg Core.forks hcore)
      (congrArg Core.elf hcore) (congrArg Core.tracee hcore) rfl rfl rfl
      fun x hx ↦ arm_mem_off (hw.inText b hb) hx, rfl⟩
  · exact ⟨n, hon.of_mem hc (congrArg Core.filePath hcore) (congrArg Core.forks hcore)
      (congrArg Core.elf hcore) (congrArg Core.tracee hcore) rfl rfl rfl
      fun x hx ↦ arm_mem_off htext hx, rfl⟩
  · have hfresh : FreshBehind s.elf [b] c := hp i b c rfl hb hc
    exact ⟨n, hon.of_mem hc (congrArg Core.filePath hcore) (congrArg Core.forks hcore)
      (congrArg Core.elf hcore) (congrArg Core.tracee hcore) rfl rfl rfl
      fun x hx ↦ hfresh.restore hx, rfl⟩
  -- the two commands that run the tracee
  · exact onRun_cont hw ht htame hrun hc hon hp hev hafter hc'
  · exact ⟨n + 1, onRun_si hw ht htame hrun hc hon hp hafter hc', rfl⟩

/-! ## Sessions

The invariant of a session is `Shadow`, next to that of the table and that of the text.
-/

/-- A program that runs is tame, and on its run. -/
def Shadow (h : Host ε) (img : Mem) (s : Sdb ε) : Prop :=
  s.state = .running → ∀ c, s.tracee = some c →
    Tame h img s.elf s.filePath (s.forks - 1) ∧ ∃ n, OnRun h img s n

/-- A faithful command executes none but the program's own instructions. -/
theorem Faithful.program (hw : WF s) (ht : TextOk img s) (hsh : Shadow h img s)
    (hp : Faithful h img s cmd) : Program h img s cmd := by
  cases cmd with
  | start => exact fun c hc ↦ (hp c hc).1
  | cont =>
    intro hrun c hc k ck hk
    obtain ⟨htame, n, c₁, c₀, hc₁, hc₀, hrun₀⟩ := hsh hrun c hc
    obtain rfl := Option.some.inj (hc₁.symm.trans hc)
    have hkeeps : ∀ {j : Nat} {oj : Tracee ε}, h.steps j (original img s.elf c₁) = some oj →
        h.Keeps (InText s.elf) oj := fun hj ↦
      (htame.follows hc₀ ((Machine.run_add hrun₀).trans (Machine.run_of_steps hj))).keeps
    obtain ⟨hign, -⟩ := hp c₁ hc
    obtain ⟨ok, hok, hpk, hfree⟩ := Machine.steps_unplanted (ht.planted_rearmed hc) hk
      fun j cj _ hj hno ↦ ⟨hign j cj hj hno, (hkeeps hj).mono fun _ ha ↦ ha.inText hw⟩
    by_cases harm : Armed img s c₁ ok.regs.rip
    · intro hint
      refine absurd (hpk.trap _ harm) ?_
      rw [← hpk.regs]
      exact hint
    · refine (hkeeps hok).planted hpk harm (hign k ok hok fun i ci hi hci ↦ ?_)
      rcases Nat.lt_or_eq_of_le hi with hlt | rfl
      · exact hfree i ci hlt hci
      · rwa [← Option.some.inj (hok.symm.trans hci)]
  | si =>
    intro hrun c hc
    obtain ⟨htame, n, c₁, c₀, hc₁, hc₀, hrun₀⟩ := hsh hrun c hc
    obtain rfl := Option.some.inj (hc₁.symm.trans hc)
    obtain ⟨hclear, hign, -⟩ := hp c₁ hc
    refine (htame.follows hc₀ hrun₀).keeps.planted (ht.planted_rearmed hc) ?_ hign
    rintro (⟨b, hb, hba, hlt⟩ | ⟨htext, hne⟩)
    · exact absurd hlt (BitVec.lt_irrefl _)
    · exact hne (hclear.trans (original_mem_text c₁ htext))
  | _ => trivial

/-- A faithful move keeps the invariant: either the program is the same, or it has just been
started. -/
theorem Move.shadow (hw : WF s) (ht : TextOk img s) (hsh : Shadow h img s)
    (hp : Faithful h img s cmd) (hm : Move h s cmd s') : Shadow h img s' := by
  intro hrun' c' hc'
  by_cases hrun : s.state = .running
  · -- the program is the same
    have hsame : s'.elf = s.elf ∧ s'.filePath = s.filePath ∧ s'.forks = s.forks ∧
        ∃ c, s.tracee = some c := by
      rcases hm with ⟨-, hcore, -⟩ | ⟨e, hst, -⟩ | ⟨e, hst, -⟩ | ⟨pid, c, hst, -, -, -⟩ |
        ⟨c, -, hc, hcore⟩ | ⟨c, -, hc, -, hcore⟩ | ⟨c, -, -, hc, -, -, hcore⟩ |
        ⟨i, b, c, -, -, hc, hcore⟩ | ⟨c, ev, fuel, -, hc, -, hafter⟩ | ⟨c, -, hc, hafter⟩
      · exact ⟨congrArg Core.elf hcore, congrArg Core.filePath hcore, congrArg Core.forks hcore,
          c', (congrArg Core.tracee hcore).symm.trans hc'⟩
      · rw [hst] at hrun
        cases hrun
      · rw [hst] at hrun
        cases hrun
      · rw [hst] at hrun
        cases hrun
      · exact hp.elim
      · exact ⟨congrArg Core.elf hcore, congrArg Core.filePath hcore, congrArg Core.forks hcore,
          c, hc⟩
      · exact ⟨congrArg Core.elf hcore, congrArg Core.filePath hcore, congrArg Core.forks hcore,
          c, hc⟩
      · exact ⟨congrArg Core.elf hcore, congrArg Core.filePath hcore, congrArg Core.forks hcore,
          c, hc⟩
      · exact ⟨hafter.table.2.1, hafter.table.2.2.1, hafter.table.2.2.2.1, c, hc⟩
      · exact ⟨hafter.table.2.1, hafter.table.2.2.1, hafter.table.2.2.2.1, c, hc⟩
    obtain ⟨helf, hpath, hforks, c, hc⟩ := hsame
    obtain ⟨htame, n, hon⟩ := hsh hrun c hc
    obtain ⟨n', hon', -⟩ := hm.onRun hw ht htame hrun hon hp hc'
    rw [helf, hpath, hforks]
    exact ⟨htame, n', hon'⟩
  · -- the program has just been started
    rcases hm with ⟨-, hcore, -⟩ | ⟨e, hst, hcore⟩ | ⟨e, hst, hcore⟩ |
      ⟨pid, c, hst, hpid, hexec, hcore⟩ | ⟨c, hr, -, -⟩ | ⟨c, hr, -, -, -⟩ |
      ⟨c, hr, -, -, -, -, -⟩ | ⟨i, b, c, hr, -, -, -⟩ | ⟨c, ev, fuel, hr, -, -, -⟩ | ⟨c, hr, -, -⟩
    · exact absurd ((congrArg Core.state hcore).symm.trans hrun') hrun
    · exact absurd ((congrArg Core.state hcore).symm.trans hrun') hrun
    · have hl : s'.state = .loaded := congrArg Core.state hcore
      rw [hl] at hrun'
      cases hrun'
    · have helf : s'.elf = s.elf := congrArg Core.elf hcore
      have hpath : s'.filePath = s.filePath := congrArg Core.filePath hcore
      have hforks : s'.forks = s.forks + 1 := congrArg Core.forks hcore
      have htr : s'.tracee = some c := congrArg Core.tracee hcore
      rw [helf, hpath, hforks, Nat.add_sub_cancel]
      refine ⟨hp, 0, c, c, htr, by rw [hpath, hforks, Nat.add_sub_cancel]; exact hexec, ?_⟩
      rw [helf, original_eq rfl rfl rfl (hp c hexec).1 fun _ _ ↦ rfl]
      rfl
    all_goals exact absurd hr hrun

/-- **One faithful command** moves the tracee along the run as far as it should. -/
theorem Does.onRun (hw : WF s) (ht : TextOk img s) (hsh : Shadow h img s)
    (hrun : s.state = .running) (hc : s.tracee = some c) (hon : OnRun h img s n)
    (hp : Throughout h (Faithful h img) s cmd) (hd : Does h s cmd s')
    (hc' : s'.tracee = some c') : ∃ n', OnRun h img s' n' ∧ Advances cmd n n' := by
  obtain ⟨htame, -⟩ := hsh hrun c hc
  by_cases hr : cmd = .run
  · subst hr
    rw [Throughout] at hp
    simp only [hrun] at hp
    rcases hd.run_cases with ⟨-, hdc⟩ | ⟨hst, -⟩ | ⟨hst, -⟩
    · obtain ⟨n', hon', hle⟩ := (hdc.move hw (by simp)).onRun hw ht htame hrun hon hp hc'
      exact ⟨n', hon', hle⟩
    · rw [hst] at hrun
      cases hrun
    · rw [hst] at hrun
      cases hrun
  · exact (hd.move hw hr).onRun hw ht htame hrun hon ((throughout_of_ne hr).1 hp) hc'

/-- The invariants of a session of faithful commands. -/
theorem session_shadow (hr : Session h (Throughout h (Faithful h img)) s) :
    WF s ∧ TextOk img s ∧ Shadow h img s := by
  refine hr.invariant (I := fun t ↦ WF t ∧ TextOk img t ∧ Shadow h img t)
    ⟨wf_init, textOk_init, fun hi ↦ by cases hi⟩ ?_
  rintro t cmd t' ⟨hw, ht, hsh⟩ hp hd
  exact hd.kept (I := fun t ↦ TextOk img t ∧ Shadow h img t) hw ⟨ht, hsh⟩ hp fun hwt hIt hpt hm ↦
    ⟨hm.textOk hwt hIt.1 (hpt.program hwt hIt.1 hIt.2), hm.shadow hwt hIt.1 hIt.2 hpt⟩

/-- **Transparency.**  In a session of faithful commands the tracee, when there is one, is a state
of the program's own run, except that some bytes of its text may be traps; and the next command,
if it is faithful, moves it along that run: a `cont` by any number of instructions, a `si` by one,
and the others not at all. -/
theorem transparent (hr : Session h (Throughout h (Faithful h img)) s)
    (hrun : s.state = .running) (hc : s.tracee = some c) :
    (∃ n, OnRun h img s n ∧ SameAs h s n) ∧
      (∀ a, InText s.elf a → c.mem a = img a ∨ c.mem a = int3) ∧
      ∀ n cmd s' c', OnRun h img s n → Throughout h (Faithful h img) s cmd → Does h s cmd s' →
        s'.tracee = some c' → ∃ n', OnRun h img s' n' ∧ SameAs h s' n' ∧ Advances cmd n n' := by
  obtain ⟨hw, ht, hsh⟩ := session_shadow hr
  obtain ⟨n, hon⟩ := (hsh hrun c hc).2
  refine ⟨⟨n, hon, hon.sameAs⟩, ht.bytes c hc, ?_⟩
  intro n cmd s' c' hon hp hd hc'
  obtain ⟨n', hon', hadv⟩ := hd.onRun hw ht hsh hrun hc hon hp hc'
  exact ⟨n', hon', hon'.sameAs, hadv⟩

/-! ## A program that jumps to itself -/

namespace Tiny

/-- `jmp` to itself, and a `nop` that is never reached. -/
def loop : List Byte := [0xeb, 0xfe, 0x90]

/-- An instruction of this program. -/
theorem exec_loop {r : Regs} {pid : Nat} {m : Mem} (hr : r.rip = textAddr)
    (hm : m = (image loop).mem) : exec r pid m = .next r (fun _ ↦ none) pid := by
  have h₀ : m r.rip = 0xeb := by
    rw [hr, hm]
    decide +kernel
  have h₁ : r.rip + 2 + (m (r.rip + 1)).signExtend 64 = r.rip := by
    rw [hr, hm]
    decide +kernel
  rw [exec, h₀, h₁]
  rfl

/-- It stays where it is. -/
theorem run_loop {n : Nat} {c cn : Tracee Nat} (hrun : (host loop).run n c = some cn)
    (hr : c.regs.rip = textAddr) (hm : c.mem = (image loop).mem) :
    cn.regs.rip = textAddr ∧ cn.mem = (image loop).mem := by
  induction n generalizing c with
  | zero =>
    rw [← Option.some.inj hrun]
    exact ⟨hr, hm⟩
  | succ n ih =>
    have hbyte : c.mem (pc c.regs) ≠ int3 := by
      rw [show pc c.regs = textAddr from hr, hm]
      decide +kernel
    have hstep : (host loop).advance c = some ⟨c.regs, c.mem, c.env, c.ticks + 1⟩ := by
      rw [Machine.advance, Machine.step, if_neg hbyte]
      simp only [host, exec_loop hr hm]
      rfl
    rw [Machine.run, hstep] at hrun
    exact ih hrun hr hm

/-- It neither looks at its text nor writes to it, and never ends. -/
theorem loop_tame (e : Elf) (path : String) (k : Nat) :
    Tame (host loop) (image loop).mem e path k := by
  intro c₀ hc₀
  simp only [host] at hc₀
  split at hc₀
  · obtain rfl := Option.some.inj hc₀
    refine ⟨fun _ _ ↦ rfl, fun n cn hrun ↦ ⟨keeps, ?_⟩⟩
    obtain ⟨hr, hm⟩ := run_loop hrun rfl rfl
    intro _
    simp only [host, exec_loop hr hm]
  · cases hc₀

/-- A `si` on the small host is faithful: no trap stands where the instruction looks, and no entry
matches afterwards. -/
def clearStep (text : List Byte) (s : Sdb Nat) (c : Tracee Nat) : Bool :=
  let o := original (image text).mem s.elf c
  c.mem c.regs.rip = o.mem c.regs.rip &&
    ((List.range (reach (o.mem c.regs.rip) + 1)).all fun i ↦
      ¬ Armed (image text).mem s c (c.regs.rip + BitVec.ofNat 64 i)) &&
    match (host text).singleStep (rearmed s.bpList c) with
    | .stopped _ c' => (s.bpList.filter fun b ↦ b.addr = c'.regs.rip).isEmpty
    | _ => true

/-- What has been computed is what is asked for. -/
theorem clearStep_faithful {text : List Byte} {s : Sdb Nat} {c : Tracee Nat}
    (hc : s.tracee = some c) (hs : clearStep text s c = true) :
    Faithful (host text) (image text).mem s .si := by
  simp only [clearStep, Bool.and_eq_true, decide_eq_true_eq, List.all_eq_true, List.mem_range] at hs
  obtain ⟨⟨hclear, harm⟩, hev⟩ := hs
  intro c₁ hc₁
  obtain rfl := Option.some.inj (hc.symm.trans hc₁)
  refine ⟨hclear, ignores fun i hi ↦ harm i (by exact Nat.lt_succ_of_le hi), ?_⟩
  rintro c' (_ | ⟨-, hc', heq⟩)
  obtain rfl := Option.some.inj (hc.symm.trans hc')
  rw [heq] at hev
  rw [List.isEmpty_iff.1 hev]
  intro a v _ hv
  cases hv

end Tiny

/-- A trap behind the loop, and a step. -/
theorem transparent_loop : ∃ s s', s.bpList.length = 1 ∧ Does (Tiny.host Tiny.loop) s .si s' ∧
    ∃ n, OnRun (Tiny.host Tiny.loop) (Tiny.image Tiny.loop).mem s n ∧
      OnRun (Tiny.host Tiny.loop) (Tiny.image Tiny.loop).mem s' (n + 1) := by
  obtain ⟨s, hr, hp⟩ := script_reaches (Tiny.host Tiny.loop)
    (fun cmd ↦ cmd ≠ .run ∧ ∀ s, Faithful (Tiny.host Tiny.loop) (Tiny.image Tiny.loop).mem s cmd) 1
    [.load "a.out", .start, .break (Tiny.textAddr + 2)]
    (fun s ↦ s.state = .running && s.bpList.length = 1 &&
      s.tracee.any (Tiny.clearStep Tiny.loop s) &&
      (script (Tiny.host Tiny.loop) 1 [.si] s).any fun s' ↦ s'.tracee.isSome)
    (by
      intro cmd hcmd
      simp only [List.mem_cons, List.not_mem_nil, or_false] at hcmd
      rcases hcmd with rfl | rfl | rfl
      · exact ⟨by simp, fun _ ↦ trivial⟩
      · exact ⟨by simp, fun s ↦ Tiny.loop_tame _ _ _⟩
      · exact ⟨by simp, fun _ ↦ trivial⟩)
    (by decide +kernel)
  simp only [Bool.and_eq_true, decide_eq_true_eq] at hp
  obtain ⟨⟨⟨hrun, hlen⟩, hclear⟩, hstep⟩ := hp
  obtain ⟨c, hc, hclear⟩ := (Option.any_eq_true _ _).1 hclear
  obtain ⟨s', hs', hsome⟩ := (Option.any_eq_true _ _).1 hstep
  obtain ⟨c', hc'⟩ := Option.isSome_iff_exists.1 hsome
  have hd : Does (Tiny.host Tiny.loop) s .si s' := does_of_script hs'
  obtain ⟨⟨n, hon, -⟩, -, hnext⟩ := transparent
    (hr.mono fun t cmd ho ↦ (throughout_of_ne ho.1).2 (ho.2 t)) hrun hc
  obtain ⟨n', hon', -, rfl⟩ := hnext n .si s' c' hon (Tiny.clearStep_faithful hc hclear) hd hc'
  exact ⟨s, s', hlen, hd, n, hon, hon'⟩

/-- **A step that executes a trap.**  A break point is set at the current instruction and `si`
follows: the tracee stands one byte behind the start of the instruction, where the program never
is. -/
theorem transparent_fails :
    (∀ e path k, Tame (Tiny.host Tiny.loop) (Tiny.image Tiny.loop).mem e path k) ∧ ∃ s s',
    Session (Tiny.host Tiny.loop)
      (fun _ cmd ↦ cmd ∈ [.load "a.out", .start, .break Tiny.textAddr]) s ∧
    s.state = .running ∧ (∃ n, OnRun (Tiny.host Tiny.loop) (Tiny.image Tiny.loop).mem s n) ∧
    Does (Tiny.host Tiny.loop) s .si s' ∧ s'.state = .running ∧ s'.tracee.isSome = true ∧
    ∀ n, ¬ SameAs (Tiny.host Tiny.loop) s' n := by
  refine ⟨Tiny.loop_tame, ?_⟩
  obtain ⟨s, hr, hp⟩ := script_reaches (Tiny.host Tiny.loop)
    (fun cmd ↦ cmd ∈ [.load "a.out", .start, .break Tiny.textAddr]) 1
    [.load "a.out", .start, .break Tiny.textAddr]
    (fun s ↦ s.state = .running && s.tracee.isSome &&
      (script (Tiny.host Tiny.loop) 1 [.si] s).any fun s' ↦ s'.state = .running &&
        s'.tracee.any fun c' ↦ c'.regs.rip = Tiny.textAddr + 1)
    (by simp) (by decide +kernel)
  simp only [Bool.and_eq_true, decide_eq_true_eq, Option.any_eq_true] at hp
  obtain ⟨⟨hrun, hsome⟩, s', hs', hrun', c', hc', hrip⟩ := hp
  obtain ⟨c, hc⟩ := Option.isSome_iff_exists.1 hsome
  have hfaith : Session (Tiny.host Tiny.loop) (Throughout (Tiny.host Tiny.loop)
      (Faithful (Tiny.host Tiny.loop) (Tiny.image Tiny.loop).mem)) s := by
    refine hr.mono fun t cmd hcmd ↦ ?_
    simp only [List.mem_cons, List.not_mem_nil, or_false] at hcmd
    rcases hcmd with rfl | rfl | rfl
    · trivial
    · exact Tiny.loop_tame _ _ _
    · trivial
  refine ⟨s, s', hr, hrun, ((session_shadow hfaith).2.2 hrun c hc).2, does_of_script hs',
    hrun', by rw [hc']; rfl, ?_⟩
  rintro n ⟨c₁, c₀, o, hc₁, hc₀, hrun₀, hregs, -⟩
  obtain rfl := Option.some.inj (hc₁.symm.trans hc')
  simp only [Tiny.host] at hc₀
  split at hc₀
  · obtain rfl := Option.some.inj hc₀
    have hstay := (Tiny.run_loop hrun₀ rfl rfl).1
    rw [hregs] at hrip
    exact absurd (hstay.symm.trans hrip) (by decide)
  · cases hc₀

end Sdb
