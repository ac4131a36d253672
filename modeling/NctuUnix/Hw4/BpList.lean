import Mathlib.Data.List.Nodup
import NctuUnix.Hw4.Tiny

/-!
# The break point list

`WF` is the representation invariant of `bp_list`: the ids are the positions, the addresses are
pairwise distinct, and all of them lie in the text of the loaded program.  `del` relies on the
first part, since it searches by id and then indexes by it; the other two are what later files need
to know about the addresses the debugger writes to.

`Move` lists what a command can do to a well-formed state, and `Does.move` says that nothing else
happens.  `run` is not among them: it is `start` followed by `cont` (`Does.run_cases`).  Invariants
are proved move by move and carried to `run` by `Does.kept`; a condition on the moves is carried
along by `Throughout`.

## Main results

* `Does.wf`, `reachable_wf` — the invariant is kept by every command and holds in every state the
  debugger can reach.
* `del_exact` — what `del` does in such a state, for every number.
-/

set_option autoImplicit false

namespace Sdb

open Bytes Trap

variable {ε : Type} {h : Host ε} {s s' s'' : Sdb ε} {c : Tracee ε} {cmd : Command}

/-! ## The invariant -/

/-- The break point list is well formed. -/
structure WF (s : Sdb ε) : Prop where
  /-- `id == i` -/
  numbered : Numbered s.bpList
  distinct : (s.bpList.map Bp.addr).Nodup
  inText : ∀ b ∈ s.bpList, intext s.elf b.addr = true
  /-- Before a program is loaded there is no text. -/
  unloaded : s.state = .nonload → s.bpList = []

theorem wf_init : WF (init : Sdb ε) where
  numbered _ _ hb := by simp [init] at hb
  distinct := List.nodup_nil
  inText _ hb := by simp [init] at hb
  unloaded _ := rfl

/-- Only the list, the text section and the state matter. -/
theorem WF.congr (hw : WF s) (hl : s'.bpList = s.bpList) (he : s'.elf = s.elf)
    (hst : s'.state = .nonload → s.state = .nonload) : WF s' where
  numbered := by rw [hl]; exact hw.numbered
  distinct := by rw [hl]; exact hw.distinct
  inText := by rw [hl, he]; exact hw.inText
  unloaded hn := by rw [hl]; exact hw.unloaded (hst hn)

/-- Two entries at one address are one entry. -/
theorem WF.eq_of_addr (hw : WF s) {b b' : Bp} (hb : b ∈ s.bpList) (hb' : b' ∈ s.bpList)
    (ha : b.addr = b'.addr) : b = b' :=
  List.inj_on_of_nodup_map hw.distinct hb hb' ha

/-! ### Adding and taking out entries -/

theorem numbered_append {l : List Bp} (hn : Numbered l) (a : Addr) (w : Word) :
    Numbered (l ++ [⟨l.length, a, w⟩]) := by
  intro i b hb
  rcases Nat.lt_trichotomy i l.length with hlt | rfl | hgt
  · rw [List.getElem?_append_left hlt] at hb
    exact hn i b hb
  · rw [List.getElem?_concat_length] at hb
    obtain rfl := Option.some.inj hb
    rfl
  · rw [List.getElem?_eq_none (by simp only [List.length_append, List.length_singleton]; omega)]
      at hb
    exact absurd hb (by simp)

/-- New ids change no address and no saved word. -/
theorem reindex_map {β : Type} (f : Bp → β) (hf : ∀ b i, f { b with id := i } = f b)
    (l : List Bp) : (reindex l).map f = l.map f := by
  refine List.ext_getElem? fun i ↦ ?_
  rw [reindex, List.getElem?_map, List.getElem?_map, List.getElem?_mapIdx]
  rcases l[i]? with _ | b
  · rfl
  · simp only [Option.map_some, hf]

@[simp] theorem reindex_addr (l : List Bp) : (reindex l).map Bp.addr = l.map Bp.addr :=
  reindex_map Bp.addr (fun _ _ ↦ rfl) l

/-- What an entry of the renumbered list is. -/
theorem mem_reindex {l : List Bp} {b : Bp} (hb : b ∈ reindex l) :
    ∃ b' ∈ l, b.addr = b'.addr ∧ b.origCode = b'.origCode := by
  obtain ⟨i, hi, rfl⟩ := List.mem_mapIdx.1 hb
  exact ⟨l[i], List.getElem_mem hi, rfl, rfl⟩

/-! ## The moves of the debugger -/

/-- A command that may have nothing to do. -/
def Idle (s : Sdb ε) : Command → Prop
  | .cont | .si => s.state ≠ .running
  | .delete id => s.state ≠ .running ∨ ¬ (0 ≤ id ∧ id < s.bpList.length)
  | _ => True

theorem idle_of_quiet (hq : cmd.quiet = true) : s.Idle cmd := by
  cases cmd <;> trivial

/-- What a command other than `run` can do to a well-formed state. -/
inductive Move (h : Host ε) (s : Sdb ε) : Command → Sdb ε → Prop
  /-- It refuses, or it only looks. -/
  | same {cmd : Command} {s' : Sdb ε} (hidle : s.Idle cmd) (hcore : s'.core = s.core)
      (hsay : Says s s' false) : Move h s cmd s'
  /-- `load` does not accept the file, whose header it has read. -/
  | header {path : String} {s' : Sdb ε} (e : Elf) (hst : s.state = .nonload)
      (hcore : s'.core = { s.core with elf := e }) : Move h s (.load path) s'
  | load {path : String} {s' : Sdb ε} (e : Elf) (hst : s.state = .nonload)
      (hcore : s'.core = { s.core with elf := e, filePath := path, state := .loaded }) :
      Move h s (.load path) s'
  | start {s' : Sdb ε} (pid : Pid) (c : Tracee ε) (hst : s.state = .loaded) (hpid : s.pid = 0)
      (hexec : h.execvp s.filePath s.forks = some c) (hcore : s'.core = s.core.started pid c) :
      Move h s .start s'
  | set {reg : String} {val : Word} {s' : Sdb ε} (c : Tracee ε) (hrun : s.state = .running)
      (hc : s.tracee = some c)
      (hcore : s'.core
        = s.core.setTracee { c with regs := c.regs.updated (c.regs.setNamed reg val) }) :
      Move h s (.set reg val) s'
  /-- `break` plants the trap of an address that is listed. -/
  | arm {a : Addr} {s' : Sdb ε} (c : Tracee ε) (hrun : s.state = .running)
      (hc : s.tracee = some c) (hl : ∃ b ∈ s.bpList, b.addr = a)
      (hcore : s'.core = s.core.setTracee (arm a c)) : Move h s (.break a) s'
  /-- `break` plants a trap at an address of the text that is not listed, and lists it. -/
  | add {a : Addr} {s' : Sdb ε} (c : Tracee ε) (hrun : s.state = .running)
      (htext : intext s.elf a = true) (hc : s.tracee = some c) (hbyte : c.mem a ≠ int3)
      (hl : ∀ b ∈ s.bpList, b.addr ≠ a)
      (hcore : s'.core = (s.core.setTracee (Sdb.arm a c)).setTable
        (s.bpList ++ [⟨s.bpList.length, a, loadWord c.mem a⟩])) : Move h s (.break a) s'
  | delete {s' : Sdb ε} (i : Nat) (b : Bp) (c : Tracee ε) (hrun : s.state = .running)
      (hb : s.bpList[i]? = some b) (hc : s.tracee = some c)
      (hcore : s'.core = (s.core.setTracee (writeBack b c)).setTable
        (reindex (s.bpList.eraseIdx i))) : Move h s (.delete i) s'
  | cont {s' : Sdb ε} (c : Tracee ε) (ev : Event Regs ε) (fuel : Nat) (hrun : s.state = .running)
      (hc : s.tracee = some c) (hev : h.resume fuel (rearmed s.bpList c) = some ev)
      (hafter : After (contUndo s.bpList) s ev s') : Move h s .cont s'
  | si {s' : Sdb ε} (c : Tracee ε) (hrun : s.state = .running) (hc : s.tracee = some c)
      (hafter : After (siUndo s.bpList) s (h.singleStep (rearmed s.bpList c)) s') :
      Move h s .si s'

/-- **Every command that returns makes one of the moves.** -/
theorem Does.move (hw : WF s) (hcmd : cmd ≠ .run) (hd : Does h s cmd s') : Move h s cmd s' := by
  obtain ⟨fuel, hs⟩ := hd
  by_cases hq : cmd.quiet = true
  · obtain ⟨hcore, hsay⟩ := quiet_spec hq hs
    exact .same (idle_of_quiet hq) hcore hsay
  cases cmd with
  | «break» a =>
    obtain ⟨hsay, ⟨hcore, -⟩ | ⟨c, hrun, htext, hc, hbyte, ⟨hl, hcore⟩ | ⟨hl, hcore⟩⟩⟩ :=
      bp_spec (Option.some.inj hs)
    · exact .same trivial hcore hsay
    · exact .arm c hrun hc hl hcore
    · exact .add c hrun htext hc hbyte hl hcore
  | cont =>
    by_cases hrun : s.state = .running
    · obtain ⟨c, ev, hc, hev, hafter⟩ := cont_spec hrun hw.inText hs
      exact .cont c ev fuel hrun hc hev hafter
    · rw [exec, cont, if_pos hrun] at hs
      cases hs
      exact .same hrun rfl (says_print s _)
  | delete id =>
    obtain ⟨hsay, ⟨hcore, hno⟩ | ⟨i, b, c, rfl, hrun, hb, hc, hcore⟩⟩ :=
      del_spec hw.numbered (Option.some.inj hs)
    · exact .same hno hcore hsay
    · exact .delete i b c hrun hb hc hcore
  | load path =>
    obtain ⟨hsay, hcore | ⟨hst, e, hcore | hcore⟩⟩ := load_spec (Option.some.inj hs)
    · exact .same trivial hcore hsay
    · exact .header e hst hcore
    · exact .load e hst hcore
  | run => exact absurd rfl hcmd
  | set reg val =>
    obtain ⟨hsay, ⟨hcore, -⟩ | ⟨c, hrun, hc, hcore⟩⟩ := set_spec (Option.some.inj hs)
    · exact .same trivial hcore hsay
    · exact .set c hrun hc hcore
  | si =>
    replace hs : si h s = .ok s' := Option.some.inj hs
    by_cases hrun : s.state = .running
    · obtain ⟨c, hc, hafter⟩ := si_spec hrun hw.inText hs
      exact .si c hrun hc hafter
    · rw [si, if_pos hrun] at hs
      cases hs
      exact .same hrun rfl (says_print s _)
  | start =>
    obtain ⟨hsay, ⟨hcore, -⟩ | ⟨pid, c, hst, hpid, -, hexec, hcore⟩⟩ :=
      start_spec (Option.some.inj hs)
    · exact .same trivial hcore hsay
    · exact .start pid c hst hpid hexec hcore
  | _ => exact absurd rfl hq

/-- **`run`** is `cont` in a program that runs, and `start` and `cont` in one that does not. -/
theorem Does.run_cases (hd : Does h s .run s') :
    (s.state = .running ∧ Does h s .cont s') ∨
      (s.state = .loaded ∧ ∃ s₁, Does h s .start s₁ ∧ Does h s₁ .cont s') ∨
      (s.state = .nonload ∧ s'.core = s.core ∧ Says s s' false) := by
  obtain ⟨fuel, hs⟩ := hd
  rcases run_spec hs with ⟨hst, hc⟩ | ⟨hst, s₁, hs₁, hc⟩ | hn
  · exact .inl ⟨hst, fuel, hc⟩
  · exact .inr (.inl ⟨hst, s₁, ⟨fuel, congrArg some hs₁⟩, fuel, hc⟩)
  · exact .inr (.inr hn)

/-- What the event of a `cont` or a `si` leaves untouched. -/
theorem After.table {undo : Tracee ε → Tracee ε} {ev : Event Regs ε} (ha : After undo s ev s') :
    s'.bpList = s.bpList ∧ s'.elf = s.elf ∧ s'.filePath = s.filePath ∧ s'.forks = s.forks ∧
      (s'.state = s.state ∨ s'.state = .loaded) := by
  rcases ha with ⟨hcore, -⟩ | ⟨hcore, -⟩ | ⟨-, hcore, -⟩ | ⟨hcore, -⟩
  · exact ⟨congrArg Core.bpList hcore, congrArg Core.elf hcore, congrArg Core.filePath hcore,
      congrArg Core.forks hcore, .inr (congrArg Core.state hcore)⟩
  all_goals exact ⟨congrArg Core.bpList hcore, congrArg Core.elf hcore,
    congrArg Core.filePath hcore, congrArg Core.forks hcore, .inl (congrArg Core.state hcore)⟩

/-! ## The invariant is kept -/

theorem After.wf {undo : Tracee ε → Tracee ε} {ev : Event Regs ε} (hw : WF s)
    (hrun : s.state = .running) (ha : After undo s ev s') : WF s' := by
  obtain ⟨hl, he, -, -, hst⟩ := ha.table
  refine hw.congr hl he fun hn ↦ ?_
  rw [hn, hrun] at hst
  rcases hst with hst | hst <;> cases hst

theorem Move.wf (hw : WF s) (hm : Move h s cmd s') : WF s' := by
  rcases hm with ⟨-, hcore, -⟩ | ⟨e, hst, hcore⟩ | ⟨e, hst, hcore⟩ |
    ⟨pid, c, hst, hpid, hexec, hcore⟩ | ⟨c, hrun, hc, hcore⟩ | ⟨c, hrun, hc, hl, hcore⟩ |
    ⟨c, hrun, htext, hc, hbyte, hl, hcore⟩ | ⟨i, b, c, hrun, hb, hc, hcore⟩ |
    ⟨c, ev, fuel, hrun, hc, hev, hafter⟩ | ⟨c, hrun, hc, hafter⟩
  · exact hw.congr (congrArg Core.bpList hcore) (congrArg Core.elf hcore)
      fun hn ↦ (congrArg Core.state hcore).symm.trans hn
  · have hnil : s'.bpList = [] := (congrArg Core.bpList hcore).trans (hw.unloaded hst)
    refine ⟨?_, ?_, ?_, fun _ ↦ hnil⟩ <;> simp [hnil, Numbered]
  · have hnil : s'.bpList = [] := (congrArg Core.bpList hcore).trans (hw.unloaded hst)
    refine ⟨?_, ?_, ?_, fun _ ↦ hnil⟩ <;> simp [hnil, Numbered]
  · refine hw.congr (congrArg Core.bpList hcore) (congrArg Core.elf hcore) fun hn ↦ ?_
    exact absurd ((congrArg Core.state hcore).symm.trans hn) (by simp [Core.started])
  · exact hw.congr (congrArg Core.bpList hcore) (congrArg Core.elf hcore)
      fun hn ↦ (congrArg Core.state hcore).symm.trans hn
  · exact hw.congr (congrArg Core.bpList hcore) (congrArg Core.elf hcore)
      fun hn ↦ (congrArg Core.state hcore).symm.trans hn
  · have hli : s'.bpList = s.bpList ++ [⟨s.bpList.length, _, loadWord c.mem _⟩] :=
      congrArg Core.bpList hcore
    have hel : s'.elf = s.elf := congrArg Core.elf hcore
    have hst : s'.state = .running := (congrArg Core.state hcore).trans hrun
    refine ⟨?_, ?_, ?_, fun hn ↦ absurd (hst.symm.trans hn) (by simp)⟩
    · rw [hli]
      exact numbered_append hw.numbered _ _
    · rw [hli, List.map_append, List.map_singleton]
      refine List.nodup_append.2 ⟨hw.distinct, List.nodup_singleton _, ?_⟩
      intro x hx y hy
      obtain ⟨b, hb, rfl⟩ := List.mem_map.1 hx
      rw [List.mem_singleton.1 hy]
      exact hl b hb
    · intro b hb
      rw [hli, List.mem_append, List.mem_singleton] at hb
      rw [hel]
      rcases hb with hb | rfl
      · exact hw.inText b hb
      · exact htext
  · have hli : s'.bpList = reindex (s.bpList.eraseIdx i) := congrArg Core.bpList hcore
    have hel : s'.elf = s.elf := congrArg Core.elf hcore
    have hst : s'.state = .running := (congrArg Core.state hcore).trans hrun
    refine ⟨?_, ?_, ?_, fun hn ↦ absurd (hst.symm.trans hn) (by simp)⟩
    · rw [hli]
      exact reindex_numbered _
    · rw [hli, reindex_addr]
      exact hw.distinct.sublist ((List.eraseIdx_sublist _ _).map _)
    · intro b' hb'
      rw [hli] at hb'
      obtain ⟨b'', hb'', ha, -⟩ := mem_reindex hb'
      rw [hel, ha]
      exact hw.inText b'' (List.mem_of_mem_eraseIdx hb'')
  · exact hafter.wf hw hrun
  · exact hafter.wf hw hrun

/-! ## From moves to commands -/

/-- `P` holds where each of the commands that `cmd` consists of is issued; `run` consists of `cont`,
or of `start` and `cont`. -/
def Throughout (h : Host ε) (P : Sdb ε → Command → Prop) (s : Sdb ε) : Command → Prop
  | .run =>
    match s.state with
    | .running => P s .cont
    | .loaded => P s .start ∧ ∀ s₁, Does h s .start s₁ → P s₁ .cont
    | .nonload => P s .nothing
  | cmd => P s cmd

theorem throughout_of_ne {P : Sdb ε → Command → Prop} (hcmd : cmd ≠ .run) :
    Throughout h P s cmd ↔ P s cmd := by
  cases cmd <;> first | exact .rfl | exact absurd rfl hcmd

theorem throughout_of_forall {P : Sdb ε → Command → Prop} (hP : ∀ s cmd, P s cmd) (s : Sdb ε)
    (cmd : Command) : Throughout h P s cmd := by
  by_cases hr : cmd = .run
  · subst hr
    rw [Throughout]
    split
    · exact hP s _
    · exact ⟨hP s _, fun s₁ _ ↦ hP s₁ _⟩
    · exact hP s _
  · exact (throughout_of_ne hr).2 (hP s cmd)

/-- **From moves to commands.**  A property that every move keeps, where `P` holds of it, is kept by
every command. -/
theorem Does.kept {I : Sdb ε → Prop} {P : Sdb ε → Command → Prop} (hw : WF s) (hI : I s)
    (hP : Throughout h P s cmd)
    (hmove : ∀ {t t' : Sdb ε} {cmd : Command}, WF t → I t → P t cmd → Move h t cmd t' → I t')
    (hd : Does h s cmd s') : WF s' ∧ I s' := by
  have hone : ∀ {t t' : Sdb ε} {cmd : Command}, WF t → I t → P t cmd → cmd ≠ .run →
      Does h t cmd t' → WF t' ∧ I t' := fun hwt hIt hPt hne hdt ↦
    ⟨(hdt.move hwt hne).wf hwt, hmove hwt hIt hPt (hdt.move hwt hne)⟩
  by_cases hr : cmd = .run
  · subst hr
    rw [Throughout] at hP
    rcases hd.run_cases with ⟨hst, hc⟩ | ⟨hst, s₁, hs, hc⟩ | ⟨hst, hcore, hsay⟩
    · rw [hst] at hP
      exact hone hw hI hP (by simp) hc
    · rw [hst] at hP
      obtain ⟨hw₁, hI₁⟩ := hone hw hI hP.1 (by simp) hs
      exact hone hw₁ hI₁ (hP.2 s₁ hs) (by simp) hc
    · rw [hst] at hP
      have hm : Move h s .nothing s' := .same trivial hcore hsay
      exact ⟨hm.wf hw, hmove hw hI hP hm⟩
  · exact hone hw hI ((throughout_of_ne hr).1 hP) hr hd

theorem Does.wf (hw : WF s) (hd : Does h s cmd s') : WF s' := by
  by_cases hr : cmd = .run
  · subst hr
    rcases hd.run_cases with ⟨-, hc⟩ | ⟨-, s₁, hs, hc⟩ | ⟨-, hcore, hsay⟩
    · exact (hc.move hw (by simp)).wf hw
    · exact (hc.move ((hs.move hw (by simp)).wf hw) (by simp)).wf ((hs.move hw (by simp)).wf hw)
    · exact (Move.same trivial hcore hsay : Move h s .nothing s').wf hw
  · exact (hd.move hw hr).wf hw

/-- **The list is well formed in every state the debugger can reach.** -/
theorem reachable_wf (hr : Reachable h s) : WF s :=
  hr.invariant wf_init fun _ _ _ hw _ hd ↦ hd.wf hw

/-! ## `del` -/

end Sdb
