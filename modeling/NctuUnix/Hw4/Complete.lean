import NctuUnix.Hw4.Planted

/-!
# Break points in a `cont`

A listed address ought to stop the tracee whenever a `cont` brings it there.  `chkbp` arms only
what lies above the current instruction, so a break point that has been hit once, or that belongs
to an earlier run of the program, is passed when the way to it leads backwards.  This file says
exactly when: the way is that of the process behind the traps (`original`), and what decides is
whether there is a trap on it (`Armed`).

## Main results

* `cont_returns` — a `cont` whose tracee is stopped returns, when the text is mapped and the file
  can be disassembled.
* `complete_iff` — in every reachable state, a `cont` stops no later than the first arrival at a
  listed address exactly when some address on the way is armed.
* `complete_fails` — a loop whose break point is hit once.
-/

set_option autoImplicit false

namespace Sdb

open Bytes Trap

variable {ε : Type} {h : Host ε} {s s' : Sdb ε} {c c' : Tracee ε} {img : Mem}

/-! ## Commands that return -/

/-- The disassembler can be used: the program file has been read or can be, and `cs_open` works. -/
def Readable (h : Host ε) (s : Sdb ε) : Prop :=
  h.csOpen = true ∧ ∃ code, cachedCode h s = .ok code

/-- The words at the listed addresses are mapped. -/
def Mapped (h : Host ε) (l : List Bp) (c : Tracee ε) : Prop :=
  ∀ b ∈ l, h.wordMapped c.env b.addr = true

theorem disasm_returns {a : Addr} {n : Nat} (hr : Readable h s) :
    ∃ s', disasm h a n s = .ok s' ∧ Readable h s' := by
  obtain ⟨hopen, code, hcode⟩ := hr
  rw [disasm]
  split
  · exact ⟨_, rfl, hopen, code, hcode⟩
  split
  · exact ⟨_, rfl, hopen, code, hcode⟩
  split
  · exact ⟨_, rfl, hopen, code, hcode⟩
  · rw [hcode]
    exact ⟨_, rfl, hopen, code, rfl⟩

/-- A state that differs in nothing the disassembler looks at. -/
def SameFile (s s' : Sdb ε) : Prop := s'.filePath = s.filePath ∧ s'.code = s.code

theorem SameFile.readable (hs : SameFile s s') (hr : Readable h s) : Readable h s' := by
  obtain ⟨hopen, code, hc⟩ := hr
  refine ⟨hopen, code, ?_⟩
  rw [cachedCode, hs.1, hs.2]
  exact hc

theorem bp_returns {a : Addr} (hc : s.tracee = some c) (hm : h.wordMapped c.env a = true) :
    ∃ s', bp h a s = .ok s' ∧ SameFile s s' := by
  have hpoke : ∀ w, s.pokeText h "ptrace(POKETEXT)" a w
      = .ok { s with tracee := some { c with mem := storeWord c.mem a w } } := fun w ↦ by
    simp only [pokeText, hc, hm, if_true]
  rw [bp]
  split
  · exact ⟨_, rfl, rfl, rfl⟩
  split
  · exact ⟨_, rfl, rfl, rfl⟩
  simp only [hpoke]
  split
  · exact ⟨_, rfl, rfl, rfl⟩
  split
  · exact ⟨_, rfl, rfl, rfl⟩
  · exact ⟨_, rfl, rfl, rfl⟩

theorem rearm_returns (rip : Addr) {l : List Bp} (hrun : s.state = .running)
    (hc : s.tracee = some c) (htext : ∀ b ∈ s.bpList, intext s.elf b.addr = true)
    (hl : ∀ b ∈ l, b ∈ s.bpList) (hm : Mapped h l c) :
    ∃ s', rearm h rip l s = .ok s' ∧ SameFile s s' := by
  induction l generalizing s c with
  | nil => exact ⟨s, rfl, rfl, rfl⟩
  | cons b bs ih =>
    have hb : b ∈ s.bpList := hl b List.mem_cons_self
    have hbs : ∀ b' ∈ bs, b' ∈ s.bpList := fun b' hb' ↦ hl b' (List.mem_cons_of_mem b hb')
    have hms : Mapped h bs c := fun b' hb' ↦ hm b' (List.mem_cons_of_mem b hb')
    rw [rearm]
    split
    · obtain ⟨s₁, hbp, hsame⟩ := bp_returns hc (hm b List.mem_cons_self)
      obtain ⟨hcore, -⟩ := bp_listed hrun hc (htext b hb) ⟨b, hb, rfl⟩ hbp
      have hst : s₁.state = s.state := congrArg Core.state hcore
      have hli : s₁.bpList = s.bpList := congrArg Core.bpList hcore
      have hel : s₁.elf = s.elf := congrArg Core.elf hcore
      obtain ⟨s₂, hre, hsame₂⟩ := ih (c := arm b.addr c) (hst.trans hrun)
        (congrArg Core.tracee hcore) (by rw [hli, hel]; exact htext) (by rw [hli]; exact hbs) hms
      simp only [hbp]
      exact ⟨s₂, hre, hsame₂.1.trans hsame.1, hsame₂.2.trans hsame.2⟩
    · exact ih hrun hc htext hbs hms

theorem contLoop_returns {l : List Bp} {regs : Regs} (hc : s.tracee = some c) (hm : Mapped h l c)
    (hr : Readable h s) : ∃ s', contLoop h l regs s = .ok s' := by
  induction l generalizing s c regs with
  | nil => exact ⟨s, rfl⟩
  | cons b bs ih =>
    have hms : Mapped h bs c := fun b' hb' ↦ hm b' (List.mem_cons_of_mem b hb')
    rw [contLoop]
    split
    · have hr' : Readable h (s.print .breakpoint) := hr
      obtain ⟨s₁, hd, hr₁⟩ := disasm_returns (a := b.addr) (n := 1) hr'
      obtain ⟨hcore, -⟩ := disasm_spec hd
      have hc₁ : s₁.tracee = some c := (congrArg Core.tracee hcore).trans hc
      have hpoke : s₁.pokeText h "ptrace(PTRACE_POKETEXT)" b.addr b.origCode
          = .ok { s₁ with tracee := some (writeBack b c) } := by
        simp only [pokeText, hc₁, hm b List.mem_cons_self, if_true]
        rfl
      simp only [hd, hpoke, setRegs]
      exact ih (c := { writeBack b c with
        regs := c.regs.updated { regs with rip := regs.rip - 1 } }) rfl hms hr₁
    · exact ih hc hms hr

/-- What the debugger needs to report a stop. -/
theorem afterCont_returns (sig : Signal) (hm : Mapped h s.bpList c') (hr : Readable h s) :
    ∃ s', afterCont h (.stopped sig c') s = .ok s' := by
  obtain ⟨he, hst, hsg⟩ := status_stopped sig c'
  rw [afterCont, afterWait]
  simp only [reportExit, he, hst, hsg, if_true]
  split
  · exact contLoop_returns (c := c') rfl hm hr
  · exact ⟨_, rfl⟩

/-- **A `cont` whose tracee is stopped returns**, and nothing has happened to the tracee but what
`contUndo` does to it. -/
theorem cont_returns {fuel : Nat} {sig : Signal} (hw : WF s) (hrun : s.state = .running)
    (hc : s.tracee = some c) (hm : Mapped h s.bpList c) (hr : Readable h s)
    (hev : h.resume fuel (rearmed s.bpList c) = some (.stopped sig c'))
    (hm' : Mapped h s.bpList c') :
    ∃ s' c'', cont h fuel s = some (.ok s') ∧ s'.state = .running ∧ s'.tracee = some c'' ∧
      c''.ticks = c'.ticks := by
  obtain ⟨s₁, hre, hsame⟩ :=
    rearm_returns c.regs.rip hrun hc hw.inText (fun _ hb ↦ hb) hm
  have hchk : chkbp h s = .ok s₁ := by
    rw [chkbp, getRegs, hc]
    exact hre
  obtain ⟨c₁, hc₁, hcore, -⟩ := chkbp_spec hrun hw.inText hchk
  obtain rfl := Option.some.inj (hc₁.symm.trans hc)
  have ht : s₁.tracee = some (rearmed s.bpList c₁) := congrArg Core.tracee hcore
  have hl : s₁.bpList = s.bpList := congrArg Core.bpList hcore
  obtain ⟨s', hs'⟩ := afterCont_returns sig (hl ▸ hm') (hsame.readable hr)
  have hcont : cont h fuel s = some (.ok s') := by
    rw [cont, if_neg (by simp [hrun]), hchk]
    simp only [ht, hev, hs']
  obtain ⟨c₂, ev, hc₂, hev₂, hafter⟩ := cont_spec hrun hw.inText hcont
  obtain rfl := Option.some.inj (hc₂.symm.trans hc)
  obtain rfl : Event.stopped sig c' = ev := Option.some.inj (hev.symm.trans hev₂)
  refine ⟨s', ?_⟩
  rcases hafter with _ | _ | ⟨-, hcore', -⟩ | ⟨hcore', -⟩
  · exact ⟨_, hcont, (congrArg Core.state hcore').trans hrun, congrArg Core.tracee hcore', rfl⟩
  · exact ⟨_, hcont, (congrArg Core.state hcore').trans hrun, congrArg Core.tracee hcore', rfl⟩

/-! ## Arrivals -/

/-- After `k` instructions, one at least, the process behind the traps comes to a listed address for
the first time. -/
structure Arrives (h : Host ε) (img : Mem) (s : Sdb ε) (c : Tracee ε) (k : Nat) : Prop where
  pos : 1 ≤ k
  listed : ∃ ck, h.steps k (original img s.elf c) = some ck ∧ ∃ b ∈ s.bpList, b.addr = ck.regs.rip
  first : ∀ j cj, 1 ≤ j → j < k → h.steps j (original img s.elf c) = some cj →
    ∀ b ∈ s.bpList, b.addr ≠ cj.regs.rip

/-- Up to the arrival the program leaves its text alone and does not look into it: listed addresses
are instruction boundaries, the text is neither written nor read as data, and stays mapped. -/
structure Undisturbed (h : Host ε) (img : Mem) (s : Sdb ε) (c : Tracee ε) (k : Nat) : Prop where
  ignores : ∀ j cj, j ≤ k → h.steps j (original img s.elf c) = some cj →
    ¬ Armed img s c cj.regs.rip → h.Ignores (Armed img s c) cj
  keeps : ∀ j cj, j ≤ k → h.steps j (original img s.elf c) = some cj → h.Keeps (InText s.elf) cj
  mapped : ∀ j cj, j ≤ k → h.steps j (original img s.elf c) = some cj → Mapped h s.bpList cj
  stays : ∀ j cj sig c', j ≤ k → h.steps j (original img s.elf c) = some cj →
    h.step cj = .halt (.stopped sig c') → Mapped h s.bpList c'

/-- The `cont` returns with the tracee stopped after at most `k` instructions. -/
def StopsWithin (h : Host ε) (s : Sdb ε) (c : Tracee ε) (k : Nat) : Prop :=
  ∃ fuel s' c', cont h fuel s = some (.ok s') ∧ s'.state = .running ∧ s'.tracee = some c' ∧
    c'.ticks ≤ c.ticks + k

/-- Among the first `k` instructions, and the one after them, one has a trap at its address or is
stopped by a signal of its own. -/
def MeetsTrap (h : Host ε) (img : Mem) (s : Sdb ε) (c : Tracee ε) (k : Nat) : Prop :=
  ∃ j cj, j ≤ k ∧ h.steps j (original img s.elf c) = some cj ∧
    (Armed img s c cj.regs.rip ∨ ∃ sig c', h.step cj = .halt (.stopped sig c'))

variable {k : Nat}

theorem Undisturbed.passes (hw : WF s) (hu : Undisturbed h img s c k) {j : Nat} {cj : Tracee ε}
    (hj : j ≤ k) (hs : h.steps j (original img s.elf c) = some cj)
    (hno : ¬ Armed img s c cj.regs.rip) : h.Passes (Armed img s c) cj where
  pc := hno
  ignores := hu.ignores j cj hj hs hno
  keeps := (hu.keeps j cj hj hs).mono fun _ ha ↦ ha.inText hw

/-- **What stops the tracee on the way makes `cont` return.** -/
theorem stopsWithin_of_meetsTrap (hw : WF s) (ht : TextOk img s) (hrun : s.state = .running)
    (hc : s.tracee = some c) (hr : Readable h s) (hu : Undisturbed h img s c k)
    (hmeet : MeetsTrap h img s c k) : StopsWithin h s c k := by
  have hpl := ht.planted_rearmed hc
  have hm : Mapped h s.bpList c := hu.mapped 0 (original img s.elf c) (by omega) rfl
  by_cases htrap : ∃ j, j ≤ k ∧ ∃ cj, h.steps j (original img s.elf c) = some cj ∧
      Armed img s c cj.regs.rip
  · -- the first trap
    classical
    obtain ⟨hj, cj, hsj, harm⟩ := Nat.find_spec htrap
    have hfirst : ∀ i ci, i < Nat.find htrap → h.steps i (original img s.elf c) = some ci →
        h.Passes (Armed img s c) ci := fun i ci hi hsi ↦
      hu.passes hw (by omega) hsi fun ha ↦ Nat.find_min htrap hi ⟨by omega, ci, hsi, ha⟩
    obtain ⟨cn, hcn, hres⟩ := Machine.resume_trapped hpl hsj hfirst harm
    have hm' : Mapped h s.bpList { cn with regs := setPc cn.regs (pc cn.regs + 1) } := by
      intro b hb
      have := hu.mapped _ cj hj hsj b hb
      rwa [← hcn.env] at this
    obtain ⟨s', c'', hcont, hst, htr, htick⟩ :=
      cont_returns hw hrun hc hm hr (hres _ (Nat.lt_succ_self _)) hm'
    refine ⟨_, s', c'', hcont, hst, htr, ?_⟩
    have hticks : cj.ticks = (original img s.elf c).ticks + Nat.find htrap :=
      Machine.ticks_steps hsj
    have hsame : (original img s.elf c).ticks = c.ticks := rfl
    have hcnt : cn.ticks = cj.ticks := hcn.ticks
    simp only at htick
    omega
  · -- no trap, but a stop
    obtain ⟨j, cj, hj, hsj, harm | ⟨sig, c', hstop⟩⟩ := hmeet
    · exact absurd ⟨j, hj, cj, hsj, harm⟩ htrap
    have hpass : ∀ i ci, i ≤ j → h.steps i (original img s.elf c) = some ci →
        h.Passes (Armed img s c) ci := fun i ci hi hsi ↦
      hu.passes hw (by omega) hsi fun ha ↦ htrap ⟨i, by omega, ci, hsi, ha⟩
    obtain ⟨cn, hscn, hcn⟩ :=
      Machine.steps_planted hpl hsj fun i ci hi hsi ↦ hpass i ci (by omega) hsi
    have hout := Machine.step_planted hcn (hpass j cj (Nat.le_refl j) hsj)
    rw [hstop] at hout
    rcases hstep : h.step cn with _ | ev
    · rw [hstep] at hout
      cases hout
    rw [hstep] at hout
    rcases hout with _ | @⟨_, c₁, _, hpl₁⟩
    have hres : h.resume (j + 1) (rearmed s.bpList c) = some (.stopped sig c₁) :=
      Machine.resume_iff.2 ⟨j, cn, by omega, hscn, hstep⟩
    have hm' : Mapped h s.bpList c₁ := by
      intro b hb
      have := hu.stays j cj sig c' hj hsj hstop b hb
      rwa [← hpl₁.env] at this
    obtain ⟨s', c'', hcont, hst, htr, htick⟩ := cont_returns hw hrun hc hm hr hres hm'
    refine ⟨_, s', c'', hcont, hst, htr, ?_⟩
    have hticks : cn.ticks = (rearmed s.bpList c).ticks + j := Machine.ticks_steps hscn
    have hsame : (rearmed s.bpList c).ticks = c.ticks := rfl
    have hcnt : c₁.ticks = cn.ticks := Machine.ticks_stopped hstep
    omega

/-- **A `cont` that returns in time has met something on the way.** -/
theorem meetsTrap_of_stopsWithin (hw : WF s) (ht : TextOk img s) (hrun : s.state = .running)
    (hc : s.tracee = some c) (hk : Arrives h img s c k) (hu : Undisturbed h img s c k)
    (hstop : StopsWithin h s c k) : MeetsTrap h img s c k := by
  have hpl := ht.planted_rearmed hc
  by_contra hno
  have hpass : ∀ i ci, i ≤ k → h.steps i (original img s.elf c) = some ci →
      h.Passes (Armed img s c) ci := fun i ci hi hsi ↦
    hu.passes hw hi hsi fun ha ↦ hno ⟨i, ci, hi, hsi, .inl ha⟩
  obtain ⟨ck, hsk, -⟩ := hk.listed
  obtain ⟨cn, hscn, hcn⟩ :=
    Machine.steps_planted hpl hsk fun i ci hi hsi ↦ hpass i ci (by omega) hsi
  obtain ⟨fuel, s', c', hcont, hst, htr, htick⟩ := hstop
  obtain ⟨c₁, ev, hc₁, hev, hafter⟩ := cont_spec hrun hw.inText hcont
  obtain rfl := Option.some.inj (hc₁.symm.trans hc)
  -- the event is a stop, and it leaves the count of instructions alone
  obtain ⟨sig, c₂, rfl, hticks⟩ : ∃ sig c₂, ev = .stopped sig c₂ ∧ c₂.ticks = c'.ticks := by
    rcases hafter with ⟨hcore, -⟩ | ⟨hcore, -⟩ | ⟨-, hcore, -⟩ | ⟨hcore, -⟩
    · exact absurd (htr.symm.trans (congrArg Core.tracee hcore)) (by simp [Core.ended])
    · exact absurd (htr.symm.trans (congrArg Core.tracee hcore)) (by simp [Core.lost])
    · obtain rfl := Option.some.inj (htr.symm.trans (congrArg Core.tracee hcore))
      exact ⟨_, _, rfl, rfl⟩
    · obtain rfl := Option.some.inj (htr.symm.trans (congrArg Core.tracee hcore))
      exact ⟨_, _, rfl, rfl⟩
  obtain ⟨m, cm, -, hsm, hhalt⟩ := Machine.resume_iff.1 hev
  have hm : c₂.ticks = (rearmed s.bpList c₁).ticks + m :=
    (Machine.ticks_stopped hhalt).trans (Machine.ticks_steps hsm)
  have hsame : (rearmed s.bpList c₁).ticks = c₁.ticks := rfl
  rcases Nat.lt_or_ge m k with hlt | hge
  · obtain ⟨c₃, hnext⟩ := Machine.step_of_steps hscn hlt hsm
    rw [hhalt] at hnext
    cases hnext
  · obtain rfl : m = k := by omega
    obtain rfl := Option.some.inj (hsm.symm.trans hscn)
    have hout := Machine.step_planted hcn (hpass m ck (Nat.le_refl m) hsk)
    rw [hhalt] at hout
    rcases hstep : h.step ck with c₄ | ev
    · rw [hstep] at hout
      cases hout
    · rw [hstep] at hout
      rcases hout with _ | @⟨_, _, c₅, -⟩
      exact hno ⟨m, ck, Nat.le_refl m, hsk, .inr ⟨sig, c₅, hstep⟩⟩

/-- **Completeness of break points.**  In every reachable state in which the program runs, a `cont`
stops no later than the first arrival at a listed address exactly when a trap is met on the way. -/
theorem complete_iff (hr : Session h (Throughout h (Program h img)) s) (hrun : s.state = .running)
    (hc : s.tracee = some c) (hread : Readable h s) (hk : Arrives h img s c k)
    (hu : Undisturbed h img s c k) : StopsWithin h s c k ↔ MeetsTrap h img s c k := by
  obtain ⟨hw, ht⟩ := session_textOk (fun _ _ ho ↦ ho) hr
  exact ⟨meetsTrap_of_stopsWithin hw ht hrun hc hk hu,
    stopsWithin_of_meetsTrap hw ht hrun hc hread hu⟩

/-! ## Two programs -/

/-- A small program is undisturbed where no instruction has a trap behind its first byte. -/
theorem Tiny.undisturbed {text : List Byte} {s : Sdb Nat} {c : Tracee Nat}
    (hm : ∀ b ∈ s.bpList, (host text).wordMapped 2 b.addr = true)
    (hi : ∀ j, j ≤ k → ∀ cj, (host text).steps j (original img s.elf c) = some cj →
      ∀ i, i < reach (cj.mem cj.regs.rip) →
        ¬ Armed img s c (cj.regs.rip + BitVec.ofNat 64 (i + 1))) :
    Undisturbed (host text) img s c k where
  ignores j cj hj hs hno := by
    refine ignores fun i hir ↦ ?_
    rcases i with _ | i
    · simpa using hno
    · exact hi j hj cj hs i (by omega)
  keeps _ _ _ _ := keeps
  mapped _ _ _ _ := hm
  stays _ _ _ _ _ _ _ := hm

/-- The tracee of `s` arrives after `k` instructions, and nothing disturbs it on the way. -/
def Tiny.Way (text : List Byte) (s : Sdb Nat) (c : Tracee Nat) (k : Nat) : Prop :=
  (∀ b ∈ s.bpList, (host text).wordMapped 2 b.addr = true) ∧
    (∃ ck ∈ (host text).steps k (original (image text).mem s.elf c),
      ∃ b ∈ s.bpList, b.addr = ck.regs.rip) ∧
    ∀ j, j < k + 1 → ∀ cj ∈ (host text).steps j (original (image text).mem s.elf c),
      (1 ≤ j → j < k → ∀ b ∈ s.bpList, b.addr ≠ cj.regs.rip) ∧
        ∀ i, i < reach (cj.mem cj.regs.rip) →
          ¬ Armed (image text).mem s c (cj.regs.rip + BitVec.ofNat 64 (i + 1))

instance {text : List Byte} {s : Sdb Nat} {c : Tracee Nat} : Decidable (Tiny.Way text s c k) :=
  instDecidableAnd

theorem Tiny.Way.spec {text : List Byte} {s : Sdb Nat} {c : Tracee Nat} (hk : 1 ≤ k)
    (ha : Way text s c k) : Arrives (host text) (image text).mem s c k ∧
      Undisturbed (host text) (image text).mem s c k := by
  obtain ⟨hm, harr, hway⟩ := ha
  refine ⟨⟨hk, harr, fun j cj h1 hj hs ↦ ?_⟩, undisturbed hm fun j hj cj hs ↦ ?_⟩
  · exact (hway j (by omega) cj hs).1 h1 hj
  · exact (hway j (by omega) cj hs).2

/-- There is no trap on the way, and every instruction completes. -/
def Tiny.Free (text : List Byte) (s : Sdb Nat) (c : Tracee Nat) (k : Nat) : Prop :=
  ∀ j, j < k + 1 → ∀ cj ∈ (host text).steps j (original (image text).mem s.elf c),
    ¬ Armed (image text).mem s c cj.regs.rip ∧
      ∀ c' ∈ (host text).advance cj, c'.ticks = cj.ticks + 1

instance {text : List Byte} {s : Sdb Nat} {c : Tracee Nat} : Decidable (Tiny.Free text s c k) :=
  Nat.decidableBallLT _ _

theorem Tiny.Free.spec {text : List Byte} {s : Sdb Nat} {c : Tracee Nat}
    (hf : Free text s c k) : ¬ MeetsTrap (host text) (image text).mem s c k := by
  rintro ⟨j, cj, hj, hs, harm | ⟨sig, c', hhalt⟩⟩
  · exact (hf j (by omega) cj hs).1 harm
  · have htick := (hf j (by omega) cj hs).2 c' (Machine.advance_of_stopped hhalt)
    rw [Machine.ticks_stopped hhalt] at htick
    omega

/-- Three instructions in front of a break point that has just been set. -/
theorem complete_iff_forward : ∃ s c, s.tracee = some c ∧ s.bpList.length = 1 ∧
    StopsWithin (Tiny.host [0x90, 0x90, 0x90, 0x90, 0xeb, 0xfa]) s c 3 := by
  obtain ⟨s, hr, hp⟩ := script_reaches (Tiny.host [0x90, 0x90, 0x90, 0x90, 0xeb, 0xfa])
    (fun _ ↦ True) 1 [.load "a.out", .start, .break (Tiny.textAddr + 3)]
    (fun s ↦ decide (s.state = .running ∧ s.bpList.length = 1 ∧
      (getcode (Tiny.host [0x90, 0x90, 0x90, 0x90, 0xeb, 0xfa]) s.filePath).isOk ∧ s.code = none ∧
      ∃ c ∈ s.tracee, Tiny.Way [0x90, 0x90, 0x90, 0x90, 0xeb, 0xfa] s c 3 ∧
        ∃ cj ∈ (Tiny.host [0x90, 0x90, 0x90, 0x90, 0xeb, 0xfa]).steps 3
            (original (Tiny.image [0x90, 0x90, 0x90, 0x90, 0xeb, 0xfa]).mem s.elf c),
          Armed (Tiny.image [0x90, 0x90, 0x90, 0x90, 0xeb, 0xfa]).mem s c cj.regs.rip))
    (fun _ _ ↦ trivial) (by decide +kernel)
  obtain ⟨hrun, hlen, hcode, hnone, c, hc, hway, cj, hsj, harm⟩ := of_decide_eq_true hp
  obtain ⟨harr, hund⟩ := hway.spec (by omega)
  rcases hg : getcode (Tiny.host [0x90, 0x90, 0x90, 0x90, 0xeb, 0xfa]) s.filePath with e | code
  · rw [hg] at hcode
    cases hcode
  have hread : Readable (Tiny.host [0x90, 0x90, 0x90, 0x90, 0xeb, 0xfa]) s := by
    refine ⟨rfl, code, ?_⟩
    rw [cachedCode, hnone]
    exact hg
  exact ⟨s, c, hc, hlen, (complete_iff
    (hr.mono fun t cmd _ ↦ throughout_of_forall (Tiny.program _) t cmd) hrun hc hread harr hund).2
      ⟨3, cj, Nat.le_refl 3, hsj, .inl harm⟩⟩

/-- **A break point that is passed.**  A loop of two instructions with a break point on the second
one, which has been hit.  The tracee comes back to it two instructions later; the next `cont` does
not stop it there. -/
theorem complete_fails : ∃ s c,
    Session (Tiny.host [0x90, 0xeb, 0xfd]) (Throughout (Tiny.host [0x90, 0xeb, 0xfd])
      (Program (Tiny.host [0x90, 0xeb, 0xfd]) (Tiny.image [0x90, 0xeb, 0xfd]).mem)) s ∧
    s.state = .running ∧ s.tracee = some c ∧ s.bpList.map Bp.addr = [Tiny.textAddr + 1] ∧
    Arrives (Tiny.host [0x90, 0xeb, 0xfd]) (Tiny.image [0x90, 0xeb, 0xfd]).mem s c 2 ∧
    ¬ StopsWithin (Tiny.host [0x90, 0xeb, 0xfd]) s c 2 := by
  obtain ⟨s, hr, hp⟩ := script_reaches (Tiny.host [0x90, 0xeb, 0xfd]) (fun _ ↦ True) 9
    [.load "a.out", .start, .break (Tiny.textAddr + 1), .cont]
    (fun s ↦ decide (s.state = .running ∧ s.bpList.map Bp.addr = [Tiny.textAddr + 1] ∧
      ∃ c ∈ s.tracee, Tiny.Way [0x90, 0xeb, 0xfd] s c 2 ∧ Tiny.Free [0x90, 0xeb, 0xfd] s c 2))
    (fun _ _ ↦ trivial) (by decide +kernel)
  obtain ⟨hrun, hl, c, hc, hway, hfree⟩ := of_decide_eq_true hp
  obtain ⟨harr, hund⟩ := hway.spec (by omega)
  have hsess := hr.mono fun t cmd _ ↦ throughout_of_forall
    (h := Tiny.host [0x90, 0xeb, 0xfd]) (Tiny.program [0x90, 0xeb, 0xfd]) t cmd
  refine ⟨s, c, hsess, hrun, hc, hl, harr, fun hstop ↦ ?_⟩
  obtain ⟨hw, ht⟩ := session_textOk (fun _ _ ho ↦ ho) hsess
  exact hfree.spec (meetsTrap_of_stopsWithin hw ht hrun hc harr hund hstop)

end Sdb
