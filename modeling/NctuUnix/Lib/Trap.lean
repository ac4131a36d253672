import NctuUnix.Lib.Bytes

/-!
# A machine that traps on a byte

An abstract processor for reasoning about software breakpoints.  Its registers `ρ` are any type
with a program counter, the rest of the world `ε` (page tables, open files, pending input) is any
type at all, and `Machine.exec` says what the instruction at the program counter does.  Only one
instruction is fixed: executing the byte `0xCC` raises `SIGTRAP` with the program counter one past
it.

`Machine.exec` reports the *writes* of an instruction and not the memory it leaves.  That is what
makes it possible to say that an instruction does not notice a change of some bytes: its effect is
literally the same (`Machine.Ignores`).  `step_planted` and `steps_planted` turn this into the
simulation that the arguments about planted traps rest on, and `resume_trapped` says where a
process with traps stops.
-/

set_option autoImplicit false

namespace Trap

open Bytes

/-- A signal number, as `kill` accepts it. -/
abbrev Signal := { n : Nat // 1 ≤ n ∧ n ≤ 64 }

/-- `SIGTRAP`. -/
def sigtrap : Signal := ⟨5, by decide⟩

/-- The one-byte trap instruction. -/
def int3 : Byte := 0xCC

/-- A register file with a program counter. -/
class ProgramCounter (ρ : Type) where
  /-- The address of the next instruction. -/
  pc : ρ → Addr
  /-- The same registers with another program counter. -/
  setPc : ρ → Addr → ρ
  pc_setPc : ∀ r a, pc (setPc r a) = a
  setPc_setPc : ∀ r a b, setPc (setPc r a) b = setPc r b
  setPc_pc : ∀ r, setPc r (pc r) = r

export ProgramCounter (pc setPc pc_setPc setPc_setPc setPc_pc)

attribute [simp] pc_setPc setPc_setPc setPc_pc

/-- The state of a process between two instructions. -/
structure Cpu (ρ ε : Type) where
  regs : ρ
  mem : Mem
  env : ε
  /-- How many instructions have been completed. -/
  ticks : Nat

/-- What executing one instruction does. -/
inductive Effect (ρ ε : Type)
  /-- It completes. -/
  | next (regs : ρ) (writes : Addr → Option Byte) (env : ε)
  /-- A signal stops the process. -/
  | stop (sig : Signal) (regs : ρ) (writes : Addr → Option Byte) (env : ε)
  /-- The process exits. -/
  | exited (code : BitVec 8)
  /-- A signal kills the process. -/
  | killed (sig : Signal) (core : Bool)

/-- What a tracer that resumed a process can be told about it. -/
inductive Event (ρ ε : Type)
  | stopped (sig : Signal) (c : Cpu ρ ε)
  | exited (code : BitVec 8)
  | killed (sig : Signal) (core : Bool)

/-- The process after the event, if it is still there. -/
def Event.survivor {ρ ε : Type} : Event ρ ε → Option (Cpu ρ ε)
  | .stopped _ c => some c
  | .exited _ => none
  | .killed _ _ => none

/-- One step of the processor: on to the next instruction, or an event. -/
inductive Outcome (ρ ε : Type)
  | next (c : Cpu ρ ε)
  | halt (ev : Event ρ ε)

/-- A program on a processor. -/
structure Machine (ρ ε : Type) where
  /-- The effect of the instruction at the program counter, on this memory. -/
  exec : ρ → ε → Mem → Effect ρ ε
  /-- Whether the process has this address mapped. -/
  mapped : ε → Addr → Bool

/-- The memory after some writes. -/
def overlay (m : Mem) (w : Addr → Option Byte) : Mem := fun a ↦ (w a).getD (m a)

theorem overlay_of_none {m : Mem} {w : Addr → Option Byte} {a : Addr} (h : w a = none) :
    overlay m w a = m a := by
  simp [overlay, h]

variable {ρ ε : Type} [ProgramCounter ρ]

namespace Machine

variable (M : Machine ρ ε)

/-! ## Executing -/

/-- One step.  The trap byte is looked at before anything else: it stops the process with the
program counter one past it, and completes no instruction. -/
def step (c : Cpu ρ ε) : Outcome ρ ε :=
  if c.mem (pc c.regs) = int3 then
    .halt (.stopped sigtrap { c with regs := setPc c.regs (pc c.regs + 1) })
  else
    match M.exec c.regs c.env c.mem with
    | .next r w e => .next ⟨r, overlay c.mem w, e, c.ticks + 1⟩
    | .stop sig r w e => .halt (.stopped sig ⟨r, overlay c.mem w, e, c.ticks⟩)
    | .exited code => .halt (.exited code)
    | .killed sig core => .halt (.killed sig core)

/-- Run until an event; `none` when the fuel does not last. -/
def resume : Nat → Cpu ρ ε → Option (Event ρ ε)
  | 0, _ => none
  | n + 1, c =>
    match M.step c with
    | .next c' => resume n c'
    | .halt ev => some ev

/-- Execute one instruction, which stops the process when it completes. -/
def singleStep (c : Cpu ρ ε) : Event ρ ε :=
  match M.step c with
  | .next c' => .stopped sigtrap c'
  | .halt ev => ev

/-- The state after `n` completed instructions, when no event comes before. -/
def steps : Nat → Cpu ρ ε → Option (Cpu ρ ε)
  | 0, c => some c
  | n + 1, c =>
    match M.step c with
    | .next c' => steps n c'
    | .halt _ => none

/-- The state one instruction later, a stop counting as one; `none` when the process is gone. -/
def advance (c : Cpu ρ ε) : Option (Cpu ρ ε) :=
  match M.step c with
  | .next c' => some c'
  | .halt ev => ev.survivor

/-- The state `n` instructions later, straight through the stops. -/
def run : Nat → Cpu ρ ε → Option (Cpu ρ ε)
  | 0, c => some c
  | n + 1, c => (M.advance c).bind (run n)

/-! ### Equations for the run functions -/

variable {M}

theorem resume_iff {n : Nat} {c : Cpu ρ ε} {ev : Event ρ ε} :
    M.resume n c = some ev ↔ ∃ k c', k < n ∧ M.steps k c = some c' ∧ M.step c' = .halt ev := by
  induction n generalizing c with
  | zero => simp [resume]
  | succ n ih =>
    rw [resume]
    cases hs : M.step c with
    | next c₁ =>
      rw [show (match Outcome.next c₁ with
        | .next c' => M.resume n c' | .halt ev => some ev) = M.resume n c₁ from rfl, ih]
      constructor
      · rintro ⟨k, c', hk, hsteps, hev⟩
        exact ⟨k + 1, c', by omega, by simpa [steps, hs] using hsteps, hev⟩
      · rintro ⟨k, c', hk, hsteps, hev⟩
        cases k with
        | zero =>
          simp only [steps, Option.some.injEq] at hsteps
          rw [← hsteps, hs] at hev
          cases hev
        | succ k => exact ⟨k, c', by omega, by simpa [steps, hs] using hsteps, hev⟩
    | halt ev' =>
      constructor
      · intro h
        simp only [Option.some.injEq] at h
        exact ⟨0, c, by omega, rfl, by rw [hs, h]⟩
      · rintro ⟨k, c', hk, hsteps, hev⟩
        cases k with
        | zero =>
          simp only [steps, Option.some.injEq] at hsteps
          rw [← hsteps, hs] at hev
          cases hev
          rfl
        | succ k => simp [steps, hs] at hsteps

/-- More fuel finds the same event. -/
theorem resume_mono {n m : Nat} {c : Cpu ρ ε} {ev : Event ρ ε} (h : M.resume n c = some ev)
    (hnm : n ≤ m) : M.resume m c = some ev := by
  obtain ⟨k, c', hk, hs, hev⟩ := resume_iff.1 h
  exact resume_iff.2 ⟨k, c', by omega, hs, hev⟩

/-- The state a stretch of completed instructions goes through completes one. -/
theorem step_of_steps {n m : Nat} {c c' cm : Cpu ρ ε} (h : M.steps n c = some c') (hm : m < n)
    (hs : M.steps m c = some cm) : ∃ c₁, M.step cm = .next c₁ := by
  induction m generalizing n c with
  | zero =>
    obtain ⟨n, rfl⟩ : ∃ k, n = k + 1 := ⟨n - 1, by omega⟩
    simp only [steps, Option.some.injEq] at hs
    subst hs
    rw [steps] at h
    rcases hc : M.step c with c₁ | ev
    · exact ⟨c₁, rfl⟩
    · rw [hc] at h
      cases h
  | succ m ih =>
    obtain ⟨n, rfl⟩ : ∃ k, n = k + 1 := ⟨n - 1, by omega⟩
    rw [steps] at h hs
    rcases hc : M.step c with c₁ | ev
    · rw [hc] at h hs
      exact ih h (by omega) hs
    · rw [hc] at h
      cases h

/-- A run that completes instructions only is a run. -/
theorem run_of_steps {n : Nat} {c c' : Cpu ρ ε} (h : M.steps n c = some c') :
    M.run n c = some c' := by
  induction n generalizing c with
  | zero => exact h
  | succ n ih =>
    rw [steps] at h
    rw [run, advance]
    cases hc : M.step c with
    | next c₁ => rw [hc] at h; exact ih h
    | halt ev => rw [hc] at h; cases h

theorem run_add {n m : Nat} {c c' : Cpu ρ ε} (h : M.run n c = some c') :
    M.run (n + m) c = M.run m c' := by
  induction n generalizing c with
  | zero =>
    simp only [run, Option.some.injEq] at h
    rw [h, Nat.zero_add]
  | succ n ih =>
    rw [run] at h
    rw [Nat.succ_add, run]
    cases hc : M.advance c with
    | none => rw [hc] at h; cases h
    | some c₁ => rw [hc] at h; exact ih h

/-- Every instruction completed is counted. -/
theorem ticks_steps {n : Nat} {c c' : Cpu ρ ε} (h : M.steps n c = some c') :
    c'.ticks = c.ticks + n := by
  induction n generalizing c with
  | zero => simp only [steps, Option.some.injEq] at h; rw [h, Nat.add_zero]
  | succ n ih =>
    rw [steps] at h
    cases hc : M.step c with
    | halt ev => rw [hc] at h; cases h
    | next c₁ =>
      rw [hc] at h
      have ht : c₁.ticks = c.ticks + 1 := by
        unfold step at hc
        split at hc
        · cases hc
        · split at hc <;> cases hc
          rfl
      rw [ih h, ht]
      omega

/-- A stop completes no instruction. -/
theorem ticks_stopped {c c' : Cpu ρ ε} {sig : Signal}
    (h : M.step c = .halt (.stopped sig c')) : c'.ticks = c.ticks := by
  unfold step at h
  split at h
  · cases h; rfl
  · split at h <;> cases h
    rfl

/-! ## What an instruction leaves alone -/

/-- The instruction at hand, unless it is the trap, writes none of the bytes in `T`. -/
def Keeps (M : Machine ρ ε) (T : Addr → Prop) (c : Cpu ρ ε) : Prop :=
  c.mem (pc c.regs) ≠ int3 →
    match M.exec c.regs c.env c.mem with
    | .next _ w _ => ∀ a, T a → w a = none
    | .stop _ _ w _ => ∀ a, T a → w a = none
    | .exited _ => True
    | .killed _ _ => True

theorem Keeps.mono {T T' : Addr → Prop} {c : Cpu ρ ε} (hk : M.Keeps T c)
    (hsub : ∀ a, T' a → T a) : M.Keeps T' c := by
  intro hpc
  have hk' := hk hpc
  rcases he : M.exec c.regs c.env c.mem with ⟨r, w, e⟩ | ⟨sig, r, w, e⟩ | code | ⟨sig, core⟩
  · rw [he] at hk'
    exact fun a ha ↦ hk' a (hsub a ha)
  · rw [he] at hk'
    exact fun a ha ↦ hk' a (hsub a ha)
  · trivial
  · trivial

theorem advance_of_next {c c' : Cpu ρ ε} (h : M.step c = .next c') : M.advance c = some c' := by
  rw [advance, h]

theorem advance_of_stopped {c c' : Cpu ρ ε} {sig : Signal}
    (h : M.step c = .halt (.stopped sig c')) : M.advance c = some c' := by
  rw [advance, h]
  rfl

variable {T : Addr → Prop}

theorem Keeps.advance {c c' : Cpu ρ ε} (hk : M.Keeps T c) (h : M.advance c = some c') {a : Addr}
    (ha : T a) : c'.mem a = c.mem a := by
  rw [Machine.advance, step] at h
  by_cases hint : c.mem (pc c.regs) = int3
  · rw [if_pos hint] at h
    cases h
    rfl
  · rw [if_neg hint] at h
    replace hk := hk hint
    rcases he : M.exec c.regs c.env c.mem with ⟨r, w, e⟩ | ⟨sig, r, w, e⟩ | code | ⟨sig, core⟩
    · rw [he] at h hk
      cases h
      exact overlay_of_none (hk a ha)
    · rw [he] at h hk
      cases h
      exact overlay_of_none (hk a ha)
    · rw [he] at h
      cases h
    · rw [he] at h
      cases h

/-- Along a stretch of instructions that all leave `T` alone, `T` is left alone. -/
theorem steps_keeps {n : Nat} {c c' : Cpu ρ ε} (h : M.steps n c = some c')
    (hk : ∀ k ck, M.steps k c = some ck → M.Keeps T ck) {a : Addr} (ha : T a) :
    c'.mem a = c.mem a := by
  induction n generalizing c with
  | zero =>
    simp only [steps, Option.some.injEq] at h
    rw [h]
  | succ n ih =>
    rw [steps] at h
    rcases hc : M.step c with c₁ | ev
    · rw [hc] at h
      have hrest := ih h fun k ck hck ↦ hk (k + 1) ck (by simpa [steps, hc] using hck)
      exact hrest.trans ((hk 0 c rfl).advance (advance_of_next hc) ha)
    · rw [hc] at h
      cases h

/-- The same up to the stop that ends the stretch. -/
theorem resume_keeps {n : Nat} {c c' : Cpu ρ ε} {sig : Signal}
    (h : M.resume n c = some (.stopped sig c'))
    (hk : ∀ k ck, M.steps k c = some ck → M.Keeps T ck) {a : Addr} (ha : T a) :
    c'.mem a = c.mem a := by
  obtain ⟨k, ck, -, hs, hev⟩ := resume_iff.1 h
  exact ((hk k ck hs).advance (advance_of_stopped hev) ha).trans (steps_keeps hs hk ha)

/-- Along a whole run as well. -/
theorem run_keeps {n : Nat} {c c' : Cpu ρ ε} (h : M.run n c = some c')
    (hk : ∀ k ck, M.run k c = some ck → M.Keeps T ck) {a : Addr} (ha : T a) :
    c'.mem a = c.mem a := by
  induction n generalizing c with
  | zero =>
    simp only [run, Option.some.injEq] at h
    rw [h]
  | succ n ih =>
    rw [run, Option.bind_eq_some_iff] at h
    obtain ⟨c₁, hc₁, h⟩ := h
    have hrest := ih h fun k ck hck ↦ hk (k + 1) ck (by rw [run, hc₁]; exact hck)
    exact hrest.trans ((hk 0 c rfl).advance hc₁ ha)

theorem singleStep_keeps {c c' : Cpu ρ ε} {sig : Signal}
    (h : M.singleStep c = .stopped sig c') (hk : M.Keeps T c) {a : Addr} (ha : T a) :
    c'.mem a = c.mem a := by
  rw [singleStep] at h
  rcases hc : M.step c with c₁ | ev
  · rw [hc] at h
    cases h
    exact hk.advance (advance_of_next hc) ha
  · rw [hc] at h
    cases h
    exact hk.advance (advance_of_stopped hc) ha

end Machine

/-! ## A process with traps planted in it -/

/-- `c` is `c₀` with traps planted at the addresses in `P`. -/
structure Planted (P : Addr → Prop) (c c₀ : Cpu ρ ε) : Prop where
  regs : c.regs = c₀.regs
  env : c.env = c₀.env
  ticks : c.ticks = c₀.ticks
  trap : ∀ a, P a → c.mem a = int3
  mem : ∀ a, ¬ P a → c.mem a = c₀.mem a

/-- Two outcomes of which the first has traps planted at `P`. -/
inductive Outcome.Planted (P : Addr → Prop) : Outcome ρ ε → Outcome ρ ε → Prop
  | next {c c₀ : Cpu ρ ε} (h : Trap.Planted P c c₀) : Planted P (.next c) (.next c₀)
  | stopped {sig : Signal} {c c₀ : Cpu ρ ε} (h : Trap.Planted P c c₀) :
      Planted P (.halt (.stopped sig c)) (.halt (.stopped sig c₀))
  | exited {code : BitVec 8} : Planted P (.halt (.exited code)) (.halt (.exited code))
  | killed {sig : Signal} {core : Bool} :
      Planted P (.halt (.killed sig core)) (.halt (.killed sig core))

namespace Machine

variable {M : Machine ρ ε} {P : Addr → Prop}

/-- The instruction at hand has the same effect whatever the bytes in `P` are: it neither decodes
one of them nor reads one as data. -/
def Ignores (M : Machine ρ ε) (P : Addr → Prop) (c : Cpu ρ ε) : Prop :=
  ∀ m : Mem, (∀ a, ¬ P a → m a = c.mem a) →
    M.exec c.regs c.env m = M.exec c.regs c.env c.mem

/-- The instruction at hand, unless it is the trap, raises no signal. -/
def Silent (M : Machine ρ ε) (c : Cpu ρ ε) : Prop :=
  c.mem (pc c.regs) ≠ int3 →
    match M.exec c.regs c.env c.mem with
    | .next _ _ _ => True
    | .stop _ _ _ _ => False
    | .exited _ => True
    | .killed _ _ => False

/-- A silent instruction completes, ends the process, or is the trap. -/
theorem Silent.cases {c : Cpu ρ ε} (hs : M.Silent c) :
    (∃ c', M.step c = .next c') ∨ (∃ code, M.step c = .halt (.exited code)) ∨
      (c.mem (pc c.regs) = int3 ∧
        M.step c = .halt (.stopped sigtrap { c with regs := setPc c.regs (pc c.regs + 1) })) := by
  rw [step]
  by_cases hint : c.mem (pc c.regs) = int3
  · rw [if_pos hint]
    exact .inr (.inr ⟨hint, rfl⟩)
  · rw [if_neg hint]
    replace hs := hs hint
    rcases he : M.exec c.regs c.env c.mem with ⟨r, w, e⟩ | ⟨sig, r, w, e⟩ | code | ⟨sig, core⟩
    · exact .inl ⟨_, rfl⟩
    · rw [he] at hs
      exact hs.elim
    · exact .inr (.inl ⟨code, rfl⟩)
    · rw [he] at hs
      exact hs.elim

/-- The instruction at hand goes past the traps in `P`: there is none at the program counter, and
the instruction neither notices nor overwrites one. -/
structure Passes (M : Machine ρ ε) (P : Addr → Prop) (c : Cpu ρ ε) : Prop where
  pc : ¬ P (pc c.regs)
  ignores : M.Ignores P c
  keeps : M.Keeps P c

/-- **One instruction that goes past the traps** does the same to both processes. -/
theorem step_planted {c c₀ : Cpu ρ ε} (h : Planted P c c₀) (hp : M.Passes P c₀) :
    Outcome.Planted P (M.step c) (M.step c₀) := by
  obtain ⟨regs, mem, env, ticks⟩ := c
  obtain ⟨hr, he, ht, htrap, hm⟩ := h
  simp only at hr he ht htrap hm
  subst hr he ht
  have hover : ∀ w : Addr → Option Byte, (∀ a, P a → w a = none) →
      (∀ a, P a → overlay mem w a = int3) ∧
        ∀ a, ¬ P a → overlay mem w a = overlay c₀.mem w a := fun w hw ↦
    ⟨fun a ha ↦ (overlay_of_none (hw a ha)).trans (htrap a ha),
      fun a ha ↦ by simp only [overlay, hm a ha]⟩
  rw [step, step]
  simp only [hm _ hp.pc]
  by_cases hint : c₀.mem (Trap.pc c₀.regs) = int3
  · rw [if_pos hint, if_pos hint]
    exact .stopped ⟨rfl, rfl, rfl, htrap, hm⟩
  · have hkeep := hp.keeps hint
    rw [if_neg hint, if_neg hint, hp.ignores mem hm]
    rcases he : M.exec c₀.regs c₀.env c₀.mem with ⟨r, w, e⟩ | ⟨sig, r, w, e⟩ | code | ⟨sig, core⟩
    · rw [he] at hkeep
      exact .next ⟨rfl, rfl, rfl, (hover w hkeep).1, (hover w hkeep).2⟩
    · rw [he] at hkeep
      exact .stopped ⟨rfl, rfl, rfl, (hover w hkeep).1, (hover w hkeep).2⟩
    · exact .exited
    · exact .killed

/-- A trap at the program counter stops the process. -/
theorem step_trapped {c c₀ : Cpu ρ ε} (h : Planted P c c₀) (hp : P (pc c₀.regs)) :
    M.step c = .halt (.stopped sigtrap { c with regs := setPc c.regs (pc c.regs + 1) }) := by
  rw [step, if_pos]
  rw [h.regs]
  exact h.trap _ hp

/-- **A stretch that goes past the traps** takes both processes to the same place. -/
theorem steps_planted {n : Nat} {c c₀ cn₀ : Cpu ρ ε} (h : Planted P c c₀)
    (hs : M.steps n c₀ = some cn₀)
    (hp : ∀ k ck, k < n → M.steps k c₀ = some ck → M.Passes P ck) :
    ∃ cn, M.steps n c = some cn ∧ Planted P cn cn₀ := by
  induction n generalizing c c₀ with
  | zero =>
    simp only [steps, Option.some.injEq] at hs
    exact ⟨c, rfl, hs ▸ h⟩
  | succ n ih =>
    rw [steps] at hs
    have hstep := step_planted h (hp 0 c₀ (by omega) rfl)
    rcases hc : M.step c₀ with c₁₀ | ev
    · rw [hc] at hs hstep
      rcases hc' : M.step c with c₁ | ev
      · rw [hc'] at hstep
        rcases hstep with ⟨h₁⟩
        obtain ⟨cn, hcn, hpl⟩ := ih h₁ hs fun k ck hk hck ↦
          hp (k + 1) ck (by omega) (by simpa [steps, hc] using hck)
        exact ⟨cn, by simpa [steps, hc'] using hcn, hpl⟩
      · rw [hc'] at hstep
        cases hstep
    · rw [hc] at hs
      cases hs

/-- The same, from the side of the process with the traps: it has met none of them so far. -/
theorem steps_unplanted {n : Nat} {c c₀ cn : Cpu ρ ε} (h : Planted P c c₀)
    (hs : M.steps n c = some cn)
    (hp : ∀ k ck, k < n → M.steps k c₀ = some ck →
      (∀ i ci, i ≤ k → M.steps i c₀ = some ci → ¬ P (pc ci.regs)) →
      M.Ignores P ck ∧ M.Keeps P ck) :
    ∃ cn₀, M.steps n c₀ = some cn₀ ∧ Planted P cn cn₀ ∧
      ∀ i ci, i < n → M.steps i c₀ = some ci → ¬ P (pc ci.regs) := by
  induction n generalizing c c₀ with
  | zero =>
    simp only [steps, Option.some.injEq] at hs
    exact ⟨c₀, rfl, hs ▸ h, fun i _ hi ↦ absurd hi (Nat.not_lt_zero i)⟩
  | succ n ih =>
    rw [steps] at hs
    rcases hc : M.step c with c₁ | ev
    · rw [hc] at hs
      have hpc : ¬ P (pc c₀.regs) := fun hpc ↦ by
        rw [step_trapped h hpc] at hc
        cases hc
      obtain ⟨hi, hk⟩ := hp 0 c₀ (by omega) rfl fun i ci hi hci ↦ by
        obtain rfl : i = 0 := by omega
        rw [← Option.some.inj hci]
        exact hpc
      have hstep := step_planted h ⟨hpc, hi, hk⟩
      rcases hc' : M.step c₀ with c₁₀ | ev
      · rw [hc, hc'] at hstep
        rcases hstep with ⟨h₁⟩
        -- what holds before the second instruction and after it
        have hfree : ∀ {m : Nat},
            (∀ i ci, i < m → M.steps i c₁₀ = some ci → ¬ P (pc ci.regs)) →
            ∀ i ci, i < m + 1 → M.steps i c₀ = some ci → ¬ P (pc ci.regs) := by
          intro m hm i ci hi hci
          rcases i with _ | i
          · rw [← Option.some.inj hci]
            exact hpc
          · exact hm i ci (by omega) (by simpa [steps, hc'] using hci)
        obtain ⟨cn₀, hcn₀, hpl, hno⟩ := ih h₁ hs fun k ck hk hck hprev ↦
          hp (k + 1) ck (by omega) (by simpa [steps, hc'] using hck) fun i ci hi hci ↦
            hfree (m := k + 1) (fun i ci hi hci ↦ hprev i ci (by omega) hci) i ci (by omega) hci
        exact ⟨cn₀, by simpa [steps, hc'] using hcn₀, hpl, hfree hno⟩
      · rw [hc, hc'] at hstep
        cases hstep
    · rw [hc] at hs
      cases hs

/-- An instruction that does not notice the traps writes the same bytes in spite of them. -/
theorem Keeps.planted {T : Addr → Prop} {c c₀ : Cpu ρ ε} (hk : M.Keeps T c₀)
    (h : Planted P c c₀) (hpc : ¬ P (pc c₀.regs)) (hi : M.Ignores P c₀) : M.Keeps T c := by
  intro hint
  have hsame := hi c.mem h.mem
  rw [h.regs, h.mem _ hpc] at hint
  rw [h.regs, h.env, hsame]
  exact hk hint

/-- **The first trap on the way** is where the process with the traps stops. -/
theorem resume_trapped {n : Nat} {c c₀ cn₀ : Cpu ρ ε} (h : Planted P c c₀)
    (hs : M.steps n c₀ = some cn₀)
    (hp : ∀ k ck, k < n → M.steps k c₀ = some ck → M.Passes P ck) (hpc : P (pc cn₀.regs)) :
    ∃ cn, Planted P cn cn₀ ∧ ∀ fuel, n < fuel → M.resume fuel c
      = some (.stopped sigtrap { cn with regs := setPc cn.regs (pc cn.regs + 1) }) := by
  obtain ⟨cn, hcn, hpl⟩ := steps_planted h hs hp
  exact ⟨cn, hpl, fun fuel hf ↦ resume_iff.2 ⟨n, cn, hf, hcn, step_trapped hpl hpc⟩⟩

end Machine
end Trap
