import NctuUnix.Hw4.Commands

/-!
# What a command can do

One statement for each function that changes anything, so that the invariants never unfold a
command.  The state is compared through its *core*, which leaves out what is printed and what is
cached: `s'.core = s.core.setTracee c` says at once what changed and that nothing else did.  Whether
a command has announced the end of the child is said beside it, by `Says`.

* `bp_spec`, `chkbp_spec` — planting traps changes the one byte at each address.
* `contLoop_spec`, `siLoop_spec` — a stop writes back the words of `hits`.
* `cont_spec`, `si_spec` — a command that runs the tracee is: re-arm, run, look at the event
  (`After`).
* `contLoop_cons`, `siLoop_cons`, `afterWait_cases`, `cont_cases`, `si_cases` — what they do step by
  step, for results about what is printed or cached.
* `del_spec`, `start_spec`, `load_spec`, `set_spec`, `quiet_spec` — the rest.
-/

set_option autoImplicit false

namespace Sdb

open Bytes Trap

variable {ε : Type} {h : Host ε} {s s' s'' : Sdb ε} {c : Tracee ε}

/-! ## The core of a state, and what has been said

A lemma about a command says what becomes of the core, and whether the end of the child has been
announced; a sequence of steps is put together with `Says.trans`.
-/

/-- The debugger's state without its output and its caches. -/
structure Core (ε : Type) where
  state : RunState
  filePath : String
  pid : Nat
  bpList : List Bp
  elf : Elf
  tracee : Option (Tracee ε)
  /-- How many children there have been: this is what tells one process from the next. -/
  forks : Nat

/-- The part of the state the commands work on. -/
def core (s : Sdb ε) : Core ε :=
  ⟨s.state, s.filePath, s.pid, s.bpList, s.elf, s.tracee, s.forks⟩

namespace Core

/-- The tracee is replaced. -/
def setTracee (k : Core ε) (c : Tracee ε) : Core ε := { k with tracee := some c }

/-- The break point list is replaced. -/
def setTable (k : Core ε) (l : List Bp) : Core ε := { k with bpList := l }

/-- The tracee is gone and the debugger does not know. -/
def lost (k : Core ε) : Core ε := { k with tracee := none }

/-- The tracee is gone and the debugger knows. -/
def ended (k : Core ε) : Core ε := { k with state := .loaded, pid := 0, tracee := none }

/-- A new tracee runs. -/
def started (k : Core ε) (pid : Pid) (c : Tracee ε) : Core ε :=
  { k with state := .running, pid := pid.val, tracee := some c, forks := k.forks + 1 }

end Core

/-- A tracee that is set to what it is. -/
theorem setTracee_core (hc : s.tracee = some c) : s.core.setTracee c = s.core := by
  rw [Core.setTracee, core, hc]

/-- Between `s` and `s'` something has been printed, and `b` tells whether the end of the child was
announced in it. -/
def Says (s s' : Sdb ε) (b : Bool) : Prop :=
  ∃ ms, s'.log = s.log ++ ms ∧ ms.any Msg.terminiated = b

theorem Says.refl (s : Sdb ε) : Says s s false := ⟨[], by simp, rfl⟩

theorem Says.trans {a b : Bool} (hs : Says s s' a) (hs' : Says s' s'' b) :
    Says s s'' (a || b) := by
  obtain ⟨ms, h1, h2⟩ := hs
  obtain ⟨ms', h1', h2'⟩ := hs'
  exact ⟨ms ++ ms', by rw [h1', h1, List.append_assoc], by rw [List.any_append, h2, h2']⟩

theorem says_print (s : Sdb ε) (m : Msg) : Says s (s.print m) m.terminiated :=
  ⟨[m], rfl, by simp⟩

@[simp] theorem core_print (s : Sdb ε) (m : Msg) : (s.print m).core = s.core := rfl

/-! ## Planting traps

`chkbp` plants its traps one by one, each with a word that is read, changed in its lowest byte, and
written back.  What comes out can be said for all addresses at once (`armAbove`), because every word
that is written back differs from the one that was read in one byte only.
-/

/-- The process with a trap planted at `a`. -/
def arm (a : Addr) (c : Tracee ε) : Tracee ε := { c with mem := Function.update c.mem a int3 }

@[simp] theorem arm_mem_self (a : Addr) (c : Tracee ε) : (arm a c).mem a = int3 := by
  simp [arm]

theorem arm_mem_of_ne {a x : Addr} (hx : x ≠ a) (c : Tracee ε) : (arm a c).mem x = c.mem x := by
  simp [arm, hx]

/-- The memory with a trap planted at every address of the list above `rip`. -/
def armAbove (l : List Bp) (rip : Addr) (m : Mem) : Mem :=
  fun x ↦ if ∃ b ∈ l, b.addr = x ∧ rip < x then int3 else m x

/-- The process `chkbp` leaves. -/
def rearmed (l : List Bp) (c : Tracee ε) : Tracee ε :=
  { c with mem := armAbove l c.regs.rip c.mem }

/-- The traps of a list, the first one apart: this is how the loop goes through it. -/
theorem armAbove_cons (b : Bp) (bs : List Bp) (rip : Addr) (m : Mem) :
    armAbove (b :: bs) rip m
      = armAbove bs rip (if rip < b.addr then Function.update m b.addr int3 else m) := by
  funext x
  simp only [armAbove, List.mem_cons, or_and_right, exists_or, exists_eq_left]
  by_cases hx : ∃ b ∈ bs, b.addr = x ∧ rip < x
  · rw [if_pos hx, if_pos (.inr hx)]
  · rw [if_neg hx]
    by_cases hb : b.addr = x
    · subst hb
      by_cases hr : rip < b.addr
      · simp [hr]
      · rw [if_neg (by simp [hr]), if_neg hr]
    · rw [if_neg (by simp [hb, hx])]
      split
      · rw [Function.update_of_ne (Ne.symm hb)]
      · rfl

/-- What the byte at `x` is after arming: a trap, or what it was. -/
theorem armAbove_apply (l : List Bp) (rip x : Addr) (m : Mem) :
    armAbove l rip m x = int3 ∨ armAbove l rip m x = m x := by
  rw [armAbove]
  split
  · exact .inl rfl
  · exact .inr rfl

/-- An entry above the program counter has its trap. -/
theorem armAbove_of_mem {l : List Bp} {rip : Addr} {m : Mem} {b : Bp} (hb : b ∈ l)
    (hr : rip < b.addr) : armAbove l rip m b.addr = int3 := by
  rw [armAbove, if_pos ⟨b, hb, rfl, hr⟩]

/-- Everywhere else nothing changes. -/
theorem armAbove_of_not {l : List Bp} {rip x : Addr} {m : Mem}
    (hx : ¬ ∃ b ∈ l, b.addr = x ∧ rip < x) : armAbove l rip m x = m x := by
  rw [armAbove, if_neg hx]

/-! ## `disasm`

It prints and fills the cache; neither belongs to the core.
-/

theorem insnRows_silent (e : Elf) (is : List Insn) :
    (insnRows e is).any Msg.terminiated = false := by
  induction is with
  | nil => rfl
  | cons i is ih =>
    rw [insnRows]
    split
    · rw [List.any_cons, ih]; rfl
    · rfl

/-- **`disasm`** prints rows, and never that the child has ended. -/
theorem disasm_spec {a : Addr} {n : Nat} (hs : disasm h a n s = .ok s') :
    s'.core = s.core ∧ Says s s' false := by
  rw [disasm] at hs
  split at hs
  · cases hs; exact ⟨rfl, says_print s .noAddr⟩
  split at hs
  · cases hs; exact ⟨rfl, says_print s .mustBeRunning⟩
  split at hs
  · cases hs; exact ⟨rfl, says_print s .outOfText⟩
  split at hs
  · cases hs
  · simp only at hs
    split at hs
    · cases hs
      refine ⟨rfl, _, rfl, ?_⟩
      split
      · rfl
      · exact insnRows_silent _ _
    · cases hs

/-! ## `bp` and `chkbp`

`bp` has three ways to do nothing and two to do something.  The word it saves is the one that is in
memory at that time, with the traps of other entries in it.
-/

/-- The word `peekText` finds, when the process can be asked. -/
theorem peekText_eq (hc : s.tracee = some c) {a : Addr} (hm : h.wordMapped c.env a = true) :
    s.peekText h a = loadWord c.mem a := by
  rw [peekText, hc]
  simp [hm]

/-- A word that has been written: there is a process, and all eight bytes are mapped. -/
theorem pokeText_eq {func : String} {a : Addr} {w : Word} (hs : s.pokeText h func a w = .ok s') :
    ∃ c, s.tracee = some c ∧ h.wordMapped c.env a = true ∧
      s' = { s with tracee := some { c with mem := storeWord c.mem a w } } := by
  rw [pokeText] at hs
  split at hs
  · cases hs
  · rename_i c hc
    split at hs
    · rename_i hm
      cases hs
      exact ⟨c, hc, hm, rfl⟩
    · cases hs

/-- The low byte of a failed request is no trap. -/
theorem peekText_eq_trap {a : Addr} (hs : s.peekText h a &&& 0xff = 0xcc) :
    ∃ c, s.tracee = some c ∧ c.mem a = int3 := by
  rw [peekText] at hs
  cases hc : s.tracee with
  | none => simp only [hc] at hs; exact absurd hs (by decide)
  | some c =>
    simp only [hc] at hs
    split at hs
    · refine ⟨c, rfl, ?_⟩
      have hb := (and_ff_eq_iff (loadWord c.mem a) 0xcc).1 hs
      rw [byteOf_loadWord _ _ (by omega)] at hb
      simpa [int3] using hb
    · exact absurd hs (by decide)

/-- **What `bp` can do**: nothing, when it refuses or when the address holds a trap already; or
plant a trap there, and put the address at the end of the list unless it is listed. -/
theorem bp_spec {a : Addr} (hs : bp h a s = .ok s') :
    Says s s' false ∧
      ((s'.core = s.core ∧ (s.state ≠ .running ∨ intext s.elf a = false ∨
          ∃ c, s.tracee = some c ∧ c.mem a = int3)) ∨
        ∃ c, s.state = .running ∧ intext s.elf a = true ∧ s.tracee = some c ∧ c.mem a ≠ int3 ∧
          (((∃ b ∈ s.bpList, b.addr = a) ∧ s'.core = s.core.setTracee (arm a c)) ∨
            ((∀ b ∈ s.bpList, b.addr ≠ a) ∧ s'.core = (s.core.setTracee (arm a c)).setTable
              (s.bpList ++ [⟨s.bpList.length, a, loadWord c.mem a⟩])))) := by
  rw [bp] at hs
  split at hs
  · rename_i hrun
    cases hs
    exact ⟨says_print s .mustBeRunning, .inl ⟨rfl, .inl hrun⟩⟩
  rename_i hrun
  split at hs
  · rename_i htext
    cases hs
    exact ⟨says_print s .outOfText, .inl ⟨rfl, .inr (.inl (by simpa using htext))⟩⟩
  rename_i htext
  simp only at hs
  split at hs
  · rename_i hcc
    cases hs
    exact ⟨.refl s, .inl ⟨rfl, .inr (.inr (peekText_eq_trap hcc))⟩⟩
  rename_i hcc
  split at hs
  · cases hs
  rename_i s₁ hp
  obtain ⟨c, hc, hm, rfl⟩ := pokeText_eq hp
  rw [peekText_eq hc hm] at hcc hs
  have hbyte : c.mem a ≠ int3 := by
    intro hb
    refine hcc ((and_ff_eq_iff _ 0xcc).2 ?_)
    rw [byteOf_loadWord _ _ (by omega)]
    simpa [int3] using hb
  -- seven of the eight bytes are written as they were read
  have harm : storeWord c.mem a (loadWord c.mem a &&& 0xffffffffffffff00 ||| 0xcc)
      = Function.update c.mem a int3 := storeWord_patch _ _ (by decide)
  rw [harm] at hs
  refine ⟨?_, .inr ⟨c, by simpa using hrun, by simpa using htext, hc, hbyte, ?_⟩⟩
  · split at hs <;> cases hs <;> exact .refl s
  split at hs
  · rename_i hl
    cases hs
    obtain ⟨b, hb, hba⟩ := List.any_eq_true.1 hl
    exact .inl ⟨⟨b, hb, by simpa using hba⟩, rfl⟩
  · rename_i hl
    cases hs
    exact .inr ⟨fun b hb hba ↦ hl (List.any_eq_true.2 ⟨b, hb, by simpa using hba⟩), rfl⟩

/-- For an address that is listed there is a trap at it afterwards, whatever was there before. -/
theorem bp_listed {a : Addr} (hrun : s.state = .running) (hc : s.tracee = some c)
    (htext : intext s.elf a = true) (hl : ∃ b ∈ s.bpList, b.addr = a) (hs : bp h a s = .ok s') :
    s'.core = s.core.setTracee (arm a c) ∧ Says s s' false := by
  obtain ⟨hsay, ⟨hcore, hst | hno | ⟨c', hc', hint⟩⟩ | ⟨c', _, _, hc', _, ⟨-, hcore⟩ | ⟨hn, -⟩⟩⟩ :=
    bp_spec hs
  · exact absurd hrun hst
  · rw [htext] at hno
    cases hno
  · obtain rfl : c' = c := Option.some.inj (hc'.symm.trans hc)
    refine ⟨?_, hsay⟩
    rw [hcore, arm, ← hint, Function.update_eq_self]
    exact (setTracee_core hc').symm
  · obtain rfl : c' = c := Option.some.inj (hc'.symm.trans hc)
    exact ⟨hcore, hsay⟩
  · obtain ⟨b, hb, hba⟩ := hl
    exact absurd hba (hn b hb)

/-- The loop of `chkbp` over the rest of the list. -/
theorem rearm_spec {rip : Addr} {l : List Bp} (hrun : s.state = .running) (hc : s.tracee = some c)
    (htext : ∀ b ∈ s.bpList, intext s.elf b.addr = true) (hl : ∀ b ∈ l, b ∈ s.bpList)
    (hs : rearm h rip l s = .ok s') :
    s'.core = s.core.setTracee { c with mem := armAbove l rip c.mem } ∧
      Says s s' false := by
  -- the state changes from entry to entry, its list does not
  induction l generalizing s c with
  | nil =>
    cases hs
    refine ⟨?_, .refl _⟩
    have : armAbove [] rip c.mem = c.mem := by funext x; simp [armAbove]
    rw [this, setTracee_core hc]
  | cons b bs ih =>
    have hb : b ∈ s.bpList := hl b List.mem_cons_self
    have hbs : ∀ b' ∈ bs, b' ∈ s.bpList := fun b' hb' ↦ hl b' (List.mem_cons_of_mem b hb')
    rw [armAbove_cons]
    rw [rearm] at hs
    split at hs
    · rename_i hr
      rw [if_pos hr]
      split at hs
      · cases hs
      · rename_i s₁ hbp
        obtain ⟨hcore, hsay⟩ := bp_listed hrun hc (htext b hb) ⟨b, hb, rfl⟩ hbp
        have hst : s₁.state = s.state := congrArg Core.state hcore
        have hli : s₁.bpList = s.bpList := congrArg Core.bpList hcore
        have hel : s₁.elf = s.elf := congrArg Core.elf hcore
        obtain ⟨hcore', hsay'⟩ := ih (hst.trans hrun) (congrArg Core.tracee hcore)
          (by rw [hli, hel]; exact htext) (by rw [hli]; exact hbs) hs
        rw [hcore', hcore]
        exact ⟨rfl, hsay.trans hsay'⟩
    · rename_i hr
      rw [if_neg hr]
      exact ih hrun hc htext hbs hs

/-- **What `chkbp` does**: every listed address above the current instruction gets a trap. -/
theorem chkbp_spec (hrun : s.state = .running)
    (htext : ∀ b ∈ s.bpList, intext s.elf b.addr = true) (hs : chkbp h s = .ok s') :
    ∃ c, s.tracee = some c ∧ s'.core = s.core.setTracee (rearmed s.bpList c) ∧
      Says s s' false := by
  rw [chkbp, getRegs] at hs
  cases hc : s.tracee with
  | none => rw [hc] at hs; cases hs
  | some c =>
    rw [hc] at hs
    exact ⟨c, rfl, rearm_spec hrun hc htext (fun _ hb ↦ hb) hs⟩

/-! ## Writing the saved words back

Both loops go through the whole list.  In `cont` a match sets `rip` one back, and the next entry is
compared with the new value, so that entries at addresses one below the other are matched in turn;
in `si` all entries are compared with the same address.
-/

/-- The entries a stop in `cont` matches: each match moves `rip` one back, so the next one is
compared with the address before. -/
def hits : List Bp → Addr → List Bp
  | [], _ => []
  | b :: bs, rip => if b.addr = rip - 1 then b :: hits bs (rip - 1) else hits bs rip

/-- Nothing matches exactly when the address below the program counter is not listed. -/
theorem hits_eq_nil_iff {l : List Bp} {rip : Addr} : hits l rip = [] ↔ rip - 1 ∉ l.map Bp.addr := by
  induction l with
  | nil => exact iff_of_true rfl (by simp)
  | cons b bs ih =>
    rw [hits, List.map_cons, List.mem_cons, not_or]
    by_cases hb : b.addr = rip - 1
    · rw [if_pos hb]
      exact iff_of_false (List.cons_ne_nil _ _) fun hno ↦ hno.1 hb.symm
    · rw [if_neg hb, ih, and_iff_right (Ne.symm hb)]

/-- The memory after the saved words of some entries have been written back, in this order. -/
def restore (l : List Bp) (m : Mem) : Mem := l.foldl (fun m b ↦ storeWord m b.addr b.origCode) m

/-- What a stop in `cont` makes of the process. -/
def contUndo (l : List Bp) (c : Tracee ε) : Tracee ε :=
  { c with
    regs := { c.regs with rip := c.regs.rip - BitVec.ofNat 64 (hits l c.regs.rip).length }
    mem := restore (hits l c.regs.rip) c.mem }

/-- What a stop in `si` makes of the process. -/
def siUndo (l : List Bp) (c : Tracee ε) : Tracee ε :=
  { c with mem := restore (l.filter fun b ↦ b.addr = c.regs.rip) c.mem }

/-- A breakpoint that was hit is shown, and its word is put back. -/
def Handled (h : Host ε) (b : Bp) (s s' : Sdb ε) : Prop :=
  ∃ s₁, disasm h b.addr 1 (s.print .breakpoint) = .ok s₁ ∧
    s₁.pokeText h "ptrace(PTRACE_POKETEXT)" b.addr b.origCode = .ok s'

/-- What a breakpoint that was hit does to the process: its word is written back. -/
theorem Handled.spec {b : Bp} (hh : Handled h b s s') (hc : s.tracee = some c) :
    s'.core = s.core.setTracee { c with mem := storeWord c.mem b.addr b.origCode } ∧
      Says s s' false ∧ h.wordMapped c.env b.addr = true := by
  obtain ⟨s₁, hd, hp⟩ := hh
  obtain ⟨hcore, hsay⟩ := disasm_spec hd
  rw [core_print] at hcore
  obtain ⟨c', hc', hm, rfl⟩ := pokeText_eq hp
  obtain rfl : c' = c := Option.some.inj (hc'.symm.trans ((congrArg Core.tracee hcore).trans hc))
  refine ⟨?_, (says_print s .breakpoint).trans hsay, hm⟩
  show s₁.core.setTracee _ = s.core.setTracee _
  rw [hcore]

/-- **One round of the loop of `cont`.** -/
theorem contLoop_cons {b : Bp} {bs : List Bp} {regs : Regs}
    (hs : contLoop h (b :: bs) regs s = .ok s') :
    (b.addr = regs.rip - 1 ∧ ∃ s₁ s₂, Handled h b s s₁ ∧
        s₁.setRegs { regs with rip := regs.rip - 1 } = .ok s₂ ∧
        contLoop h bs { regs with rip := regs.rip - 1 } s₂ = .ok s') ∨
      b.addr ≠ regs.rip - 1 ∧ contLoop h bs regs s = .ok s' := by
  rw [contLoop] at hs
  split at hs
  · rename_i hb
    split at hs
    · cases hs
    rename_i s₁ hd
    split at hs
    · cases hs
    rename_i s₂ hp
    simp only at hs
    split at hs
    · cases hs
    rename_i s₃ hr
    exact .inl ⟨hb, s₂, s₃, ⟨s₁, hd, hp⟩, hr, hs⟩
  · rename_i hb
    exact .inr ⟨hb, hs⟩

/-- **One round of the loop of `si`.** -/
theorem siLoop_cons {b : Bp} {bs : List Bp} {regs : Regs}
    (hs : siLoop h regs (b :: bs) s = .ok s') :
    (b.addr = regs.rip ∧ ∃ s₁, Handled h b s s₁ ∧ siLoop h regs bs s₁ = .ok s') ∨
      b.addr ≠ regs.rip ∧ siLoop h regs bs s = .ok s' := by
  rw [siLoop] at hs
  split at hs
  · rename_i hb
    split at hs
    · cases hs
    rename_i s₁ hd
    split at hs
    · cases hs
    rename_i s₂ hp
    exact .inl ⟨hb, s₂, ⟨s₁, hd, hp⟩, hs⟩
  · rename_i hb
    exact .inr ⟨hb, hs⟩

/-- Registers that are written: the flags among them are filtered by the kernel. -/
theorem setRegs_spec {regs : Regs} (hc : s.tracee = some c) (hs : s.setRegs regs = .ok s') :
    s' = { s with tracee := some { c with regs := c.regs.updated regs } } := by
  rw [setRegs, hc] at hs
  exact (Except.ok.inj hs).symm

/-- **The loop of `cont`** over the list, from the registers that were read after the stop. -/
theorem contLoop_spec {l : List Bp} (hc : s.tracee = some c)
    (hs : contLoop h l c.regs s = .ok s') :
    s'.core = s.core.setTracee (contUndo l c) ∧ Says s s' false := by
  induction l generalizing s c with
  | nil =>
    cases hs
    refine ⟨?_, .refl _⟩
    have : contUndo [] c = c := by simp [contUndo, hits, restore]
    rw [this, setTracee_core hc]
  | cons b bs ih =>
    rcases contLoop_cons hs with ⟨hb, s₁, s₂, hh, hr, hs⟩ | ⟨hb, hs⟩
    · obtain ⟨hcore₁, hsay₁, -⟩ := hh.spec hc
      -- only `rip` moves, so the kernel takes the registers as they are
      have hkeep : c.regs.updated { c.regs with rip := c.regs.rip - 1 }
          = { c.regs with rip := c.regs.rip - 1 } := Regs.updated_of_eflags rfl
      have hstep := setRegs_spec (congrArg Core.tracee hcore₁) hr
      simp only [hkeep] at hstep
      subst hstep
      obtain ⟨hcore, hsay⟩ := ih (c := { c with
        regs := { c.regs with rip := c.regs.rip - 1 }
        mem := storeWord c.mem b.addr b.origCode }) rfl hs
      refine ⟨?_, hsay₁.trans hsay⟩
      have hhits : hits (b :: bs) c.regs.rip = b :: hits bs (c.regs.rip - 1) := if_pos hb
      have hundo : contUndo bs { c with
          regs := { c.regs with rip := c.regs.rip - 1 }
          mem := storeWord c.mem b.addr b.origCode } = contUndo (b :: bs) c := by
        have hrip : c.regs.rip - 1 - BitVec.ofNat 64 (hits bs (c.regs.rip - 1)).length
            = c.regs.rip - BitVec.ofNat 64 (b :: hits bs (c.regs.rip - 1)).length := by
          rw [List.length_cons]
          bv_omega
        simp only [contUndo, hhits, restore, List.foldl_cons, hrip]
      rw [hcore, hundo]
      show s₁.core.setTracee _ = s.core.setTracee _
      rw [hcore₁]
      rfl
    · obtain ⟨hcore, hsay⟩ := ih hc hs
      refine ⟨?_, hsay⟩
      have hhits : hits (b :: bs) c.regs.rip = hits bs c.regs.rip := if_neg hb
      rw [hcore, contUndo, contUndo, hhits]

/-- **The loop of `si`** over the list.  The registers are not written, so they are the same in
every round. -/
theorem siLoop_spec {l : List Bp} (hc : s.tracee = some c) (hs : siLoop h c.regs l s = .ok s') :
    s'.core = s.core.setTracee (siUndo l c) ∧ Says s s' false := by
  suffices hgen : ∀ (regs : Regs) (c : Tracee ε) (s : Sdb ε), s.tracee = some c →
      siLoop h regs l s = .ok s' → s'.core = s.core.setTracee
        { c with mem := restore (l.filter fun b ↦ b.addr = regs.rip) c.mem } ∧ Says s s' false from
    hgen c.regs c s hc hs
  clear hs hc
  intro regs
  induction l with
  | nil =>
    intro c s hc hs
    cases hs
    exact ⟨(setTracee_core hc).symm, .refl _⟩
  | cons b bs ih =>
    intro c s hc hs
    rcases siLoop_cons hs with ⟨hb, s₁, hh, hs⟩ | ⟨hb, hs⟩
    · obtain ⟨hcore₁, hsay₁, -⟩ := hh.spec hc
      obtain ⟨hcore, hsay⟩ := ih { c with mem := storeWord c.mem b.addr b.origCode } _
        (congrArg Core.tracee hcore₁) hs
      refine ⟨?_, hsay₁.trans hsay⟩
      rw [hcore, hcore₁, List.filter_cons_of_pos (by simpa using hb)]
      rfl
    · rw [List.filter_cons_of_neg (by simpa using hb)]
      exact ih c s hc hs

/-! ## Running the tracee

The commands that run the tracee share what comes after: a status is looked at, and after a trap the
loop over the list follows.  `After` has a constructor for each kind of event, and its parameter
`undo` is the effect of that loop.
-/

/-- **What the debugger makes of an event of its tracee.**  `undo` is what it does to the process
after a trap. -/
inductive After (undo : Tracee ε → Tracee ε) (s : Sdb ε) : Event Regs ε → Sdb ε → Prop
  /-- The child exited, and the debugger says so. -/
  | exited {code : BitVec 8} {s' : Sdb ε} (hcore : s'.core = s.core.ended)
      (hsay : Says s s' true) : After undo s (.exited code) s'
  /-- A signal killed the child: neither test of the status succeeds, and nothing happens. -/
  | killed {sig : Signal} {core : Bool} {s' : Sdb ε} (hcore : s'.core = s.core.lost)
      (hsay : Says s s' false) : After undo s (.killed sig core) s'
  /-- A signal other than `SIGTRAP` stopped the child, which is announced as its end. -/
  | signal {sig : Signal} {c : Tracee ε} {s' : Sdb ε} (hsig : sig ≠ sigtrap)
      (hcore : s'.core = s.core.setTracee c) (hsay : Says s s' true) :
      After undo s (.stopped sig c) s'
  /-- The child trapped. -/
  | trap {c : Tracee ε} {s' : Sdb ε} (hcore : s'.core = s.core.setTracee (undo c))
      (hsay : Says s s' false) : After undo s (.stopped sigtrap c) s'

/-- What follows an event. -/
theorem afterWait_cases {ev : Event Regs ε} {loop : Tracee ε → Sdb ε → Except Exit (Sdb ε)}
    (hs : afterWait loop ev s = .ok s') :
    (∃ code, ev = .exited code ∧
      s' = { s.print (.terminiatedNormally s.pid (status ev)) with
        tracee := none, pid := 0, state := .loaded }) ∨
    (∃ sig core, ev = .killed sig core ∧ s' = { s with tracee := none }) ∨
    (∃ sig c, ev = .stopped sig c ∧ sig ≠ sigtrap ∧
      s' = { s with tracee := some c }.print (.terminiatedBySignal s.pid (WSTOPSIG (status ev)))) ∨
    ∃ c, ev = .stopped sigtrap c ∧ loop c { s with tracee := some c } = .ok s' := by
  rw [afterWait] at hs
  cases ev with
  | exited code =>
    obtain ⟨he, hsig, hst⟩ := status_exited (ρ := Regs) (ε := ε) code
    simp only [reportExit, he, hsig, hst, if_true] at hs
    cases hs
    exact .inl ⟨code, rfl, rfl⟩
  | killed sig core =>
    obtain ⟨he, hst⟩ := status_killed (ρ := Regs) (ε := ε) sig core
    simp only [reportExit, he, hst] at hs
    cases hs
    exact .inr (.inl ⟨sig, core, rfl, rfl⟩)
  | stopped sig c =>
    obtain ⟨he, hst, hsg⟩ := status_stopped sig c
    simp only [reportExit, he, hst, hsg, if_true] at hs
    by_cases htrap : sig = sigtrap
    · subst htrap
      exact .inr (.inr (.inr ⟨c, rfl, hs⟩))
    · rw [if_neg fun hv ↦ htrap (Subtype.ext hv)] at hs
      cases hs
      exact .inr (.inr (.inl ⟨sig, c, rfl, htrap, by rw [hsg]; rfl⟩))

/-- What follows an event, for a loop whose effect on the process is `undo`. -/
theorem afterWait_spec {undo : Tracee ε → Tracee ε} {ev : Event Regs ε}
    {loop : Tracee ε → Sdb ε → Except Exit (Sdb ε)}
    (hloop : ∀ (c : Tracee ε) (t t' : Sdb ε), t.bpList = s.bpList → t.tracee = some c →
      loop c t = .ok t' → t'.core = t.core.setTracee (undo c) ∧ Says t t' false)
    (hs : afterWait loop ev s = .ok s') : After undo s ev s' := by
  obtain ⟨code, rfl, rfl⟩ | ⟨sig, core, rfl, rfl⟩ | ⟨sig, c, rfl, htrap, rfl⟩ | ⟨c, rfl, htrap⟩ :=
    afterWait_cases hs
  · exact .exited rfl ⟨_, rfl, rfl⟩
  · exact .killed rfl (.refl s)
  · exact .signal htrap rfl (says_print s _)
  · obtain ⟨hcore, hsay⟩ := hloop c { s with tracee := some c } _ rfl rfl htrap
    exact .trap hcore hsay

/-- What follows an event in `cont`. -/
theorem afterCont_spec {ev : Event Regs ε} (hs : afterCont h ev s = .ok s') :
    After (contUndo s.bpList) s ev s' :=
  afterWait_spec (fun _ _ _ hl hc ht ↦ hl ▸ contLoop_spec hc ht) hs

/-- What follows the step of `si`. -/
theorem afterSi_spec {ev : Event Regs ε} (hs : afterSi h ev s = .ok s') :
    After (siUndo s.bpList) s ev s' :=
  afterWait_spec (fun _ _ _ hl hc ht ↦ hl ▸ siLoop_spec hc ht) hs

/-- What happened to the tracee on the way to the event does not matter to what follows it. -/
theorem After.of_core {undo : Tracee ε → Tracee ε} {s₁ : Sdb ε} {ev : Event Regs ε}
    (hcore : s₁.core = s.core.setTracee c) (hsay : Says s s₁ false) (ha : After undo s₁ ev s') :
    After undo s ev s' := by
  cases ha with
  | exited hc hy => exact .exited (by rw [hc, hcore]; rfl) (hsay.trans hy)
  | killed hc hy => exact .killed (by rw [hc, hcore]; rfl) (hsay.trans hy)
  | signal hsig hc hy => exact .signal hsig (by rw [hc, hcore]; rfl) (hsay.trans hy)
  | trap hc hy => exact .trap (by rw [hc, hcore]; rfl) (hsay.trans hy)

/-- What `cont` does, step by step. -/
theorem cont_cases {fuel : Nat} (hs : cont h fuel s = some (.ok s')) :
    (s.state ≠ .running ∧ s' = s.print .mustBeRunning) ∨
      s.state = .running ∧ ∃ s₁ c ev, chkbp h s = .ok s₁ ∧ s₁.tracee = some c ∧
        h.resume fuel c = some ev ∧ afterCont h ev s₁ = .ok s' := by
  rw [cont] at hs
  split at hs
  · rename_i hrun
    cases hs
    exact .inl ⟨hrun, rfl⟩
  rename_i hrun
  split at hs
  · cases hs
  rename_i s₁ hchk
  split at hs
  · cases hs
  rename_i c hc
  split at hs
  · cases hs
  rename_i ev hev
  exact .inr ⟨not_not.1 hrun, s₁, c, ev, hchk, hc, hev, Option.some.inj hs⟩

/-- What `si` does, step by step. -/
theorem si_cases (hs : si h s = .ok s') :
    (s.state ≠ .running ∧ s' = s.print .mustBeRunning) ∨
      s.state = .running ∧ ∃ s₁ c, chkbp h s = .ok s₁ ∧ s₁.tracee = some c ∧
        afterSi h (h.singleStep c) s₁ = .ok s' := by
  rw [si] at hs
  split at hs
  · rename_i hrun
    cases hs
    exact .inl ⟨hrun, rfl⟩
  rename_i hrun
  split at hs
  · cases hs
  rename_i s₁ hchk
  split at hs
  · cases hs
  rename_i c hc
  exact .inr ⟨not_not.1 hrun, s₁, c, hchk, hc, hs⟩

/-- **`cont`**: re-arm, run up to an event, and look at the event. -/
theorem cont_spec {fuel : Nat} (hrun : s.state = .running)
    (htext : ∀ b ∈ s.bpList, intext s.elf b.addr = true) (hs : cont h fuel s = some (.ok s')) :
    ∃ c ev, s.tracee = some c ∧ h.resume fuel (rearmed s.bpList c) = some ev ∧
      After (contUndo s.bpList) s ev s' := by
  obtain ⟨hno, -⟩ | ⟨-, s₁, c₁, ev, hchk, hc₁, hev, hafter⟩ := cont_cases hs
  · exact absurd hrun hno
  obtain ⟨c, hc, hcore, hsay⟩ := chkbp_spec hrun htext hchk
  have ht : s₁.tracee = some (rearmed s.bpList c) := congrArg Core.tracee hcore
  have hl : s₁.bpList = s.bpList := congrArg Core.bpList hcore
  obtain rfl : rearmed s.bpList c = c₁ := Option.some.inj (ht.symm.trans hc₁)
  exact ⟨c, ev, hc, hev, (hl ▸ afterCont_spec hafter).of_core hcore hsay⟩

/-- **`si`**: re-arm, execute one instruction, and look at the event. -/
theorem si_spec (hrun : s.state = .running)
    (htext : ∀ b ∈ s.bpList, intext s.elf b.addr = true) (hs : si h s = .ok s') :
    ∃ c, s.tracee = some c ∧
      After (siUndo s.bpList) s (h.singleStep (rearmed s.bpList c)) s' := by
  obtain ⟨hno, -⟩ | ⟨-, s₁, c₁, hchk, hc₁, hafter⟩ := si_cases hs
  · exact absurd hrun hno
  obtain ⟨c, hc, hcore, hsay⟩ := chkbp_spec hrun htext hchk
  have ht : s₁.tracee = some (rearmed s.bpList c) := congrArg Core.tracee hcore
  have hl : s₁.bpList = s.bpList := congrArg Core.bpList hcore
  obtain rfl : rearmed s.bpList c = c₁ := Option.some.inj (ht.symm.trans hc₁)
  exact ⟨c, hc, (hl ▸ afterSi_spec hafter).of_core hcore hsay⟩

/-! ## `del`

The program looks for the entry with the id that is asked for, takes it out, and numbers the entries
behind it anew.  The ids are positions at all times (`Numbered`), so the search comes down to an
index, and the renumbering to numbering everything.
-/

/-- The ids of a list are its positions. -/
def Numbered (l : List Bp) : Prop := ∀ (i : Nat) (b : Bp), l[i]? = some b → b.id = i

/-- The list with its positions as ids. -/
def reindex (l : List Bp) : List Bp := l.mapIdx fun i b ↦ { b with id := i }

/-- A list that has been numbered. -/
theorem reindex_numbered (l : List Bp) : Numbered (reindex l) := by
  intro i b hb
  rw [reindex, List.getElem?_mapIdx] at hb
  obtain ⟨b', -, rfl⟩ := Option.map_eq_some_iff.1 hb
  rfl

/-- The entries in front of the one that is taken out have their numbers already. -/
theorem eraseRenumber_eq {l : List Bp} (hnum : Numbered l) (i : Nat) :
    eraseRenumber l i i = reindex (l.eraseIdx i) := by
  rw [eraseRenumber, reindex]
  refine List.ext_getElem? fun j ↦ ?_
  rw [List.getElem?_mapIdx, List.getElem?_mapIdx]
  cases hj : (l.eraseIdx i)[j]? with
  | none => rfl
  | some b =>
    simp only [Option.map_some, Option.some.injEq]
    split
    · rw [show (i : Int) + j - i = j by omega]
    · rename_i hlt
      rw [List.getElem?_eraseIdx_of_lt (by omega)] at hj
      rw [← hnum j b hj]

/-- With ids that are positions the search finds the entry at the position asked for. -/
theorem delLoop_eq {id : Int} (hnum : Numbered s.bpList) :
    ∀ (bs : List Bp) (i : Nat), s.bpList.drop i = bs →
      delLoop h id s bs i = if (i : Int) ≤ id ∧ id < s.bpList.length then
          delLoop h id s (s.bpList.drop id.toNat) id.toNat
        else .ok (s.print (.noBreakpoint id))
  | [], i, hd => by
    rw [List.drop_eq_nil_iff] at hd
    rw [delLoop, if_neg (by omega)]
  | b :: bs, i, hd => by
    have hi : s.bpList[i]? = some b := by
      rw [← List.head?_drop, hd, List.head?_cons]
    have hlt : i < s.bpList.length := (List.getElem?_eq_some_iff.1 hi).1
    by_cases hid : (i : Int) = id
    · rw [if_pos (by omega), ← hid, Int.toNat_natCast, hd]
    · have hne : b.id ≠ id := by rw [hnum i b hi]; exact hid
      have hrest : s.bpList.drop (i + 1) = bs := by
        rw [← List.drop_drop, hd, List.drop_succ_cons, List.drop_zero]
      rw [delLoop, if_neg hne, delLoop_eq hnum bs (i + 1) hrest]
      by_cases hr : (i : Int) ≤ id ∧ id < s.bpList.length
      · rw [if_pos hr, if_pos (by omega)]
      · rw [if_neg hr, if_neg (by omega)]

/-- **`del`, for ids that are positions**: outside `0, …, size - 1` it refuses; inside, it writes
the saved word back and takes the entry out, unless the request fails. -/
theorem del_eq {id : Int} (hnum : Numbered s.bpList) (hrun : s.state = .running) :
    del h id s =
      match if 0 ≤ id then s.bpList[id.toNat]? else none with
      | none => .ok (s.print (.noBreakpoint id))
      | some b =>
        match s.pokeText h "ptrace(PTRACE_POKETEXT)" b.addr b.origCode with
        | .error e => .error e
        | .ok s =>
          .ok ({ s with bpList := reindex (s.bpList.eraseIdx id.toNat) }.print (.deleted id)) := by
  rw [del, if_neg (by simp [hrun]), delLoop_eq hnum s.bpList 0 rfl]
  by_cases hr : 0 ≤ id ∧ id < s.bpList.length
  · obtain ⟨i, rfl⟩ := Int.eq_ofNat_of_zero_le hr.1
    have hi : i < s.bpList.length := by omega
    rw [if_pos (by omega), if_pos hr.1, Int.toNat_natCast, List.drop_eq_getElem_cons hi, delLoop,
      if_pos (hnum i _ (List.getElem?_eq_getElem hi)), if_neg (by omega), Int.toNat_natCast]
    rw [List.getElem?_eq_getElem hi]
    simp only
    cases hp : s.pokeText h "ptrace(PTRACE_POKETEXT)" s.bpList[i].addr s.bpList[i].origCode with
    | error e => rfl
    | ok t =>
      obtain ⟨c, -, -, rfl⟩ := pokeText_eq hp
      simp only [eraseRenumber_eq hnum]
  · rw [if_neg (by omega)]
    split
    · rfl
    · rename_i b hb
      split at hb
      · obtain ⟨hlt, -⟩ := List.getElem?_eq_some_iff.1 hb
        omega
      · cases hb

/-- The process after the saved word of `b` has been written back. -/
def writeBack (b : Bp) (c : Tracee ε) : Tracee ε :=
  { c with mem := storeWord c.mem b.addr b.origCode }

/-- **`del`** refuses, or writes the word of an entry back and takes it out. -/
theorem del_spec {id : Int} (hnum : Numbered s.bpList) (hs : del h id s = .ok s') :
    Says s s' false ∧
      ((s'.core = s.core ∧
          (s.state ≠ .running ∨ ¬ (0 ≤ id ∧ id < s.bpList.length))) ∨
        ∃ (i : Nat) (b : Bp) (c : Tracee ε), id = i ∧ s.state = .running ∧
          s.bpList[i]? = some b ∧ s.tracee = some c ∧
          s'.core = (s.core.setTracee (writeBack b c)).setTable
            (reindex (s.bpList.eraseIdx i))) := by
  by_cases hrun : s.state = .running
  · rw [del_eq hnum hrun] at hs
    split at hs
    · rename_i hn
      cases hs
      refine ⟨says_print s _, .inl ⟨rfl, .inr fun hr ↦ ?_⟩⟩
      rw [if_pos hr.1, List.getElem?_eq_none_iff] at hn
      omega
    · rename_i b hb
      split at hb
      · rename_i hid
        split at hs
        · cases hs
        rename_i t hp
        obtain ⟨c, hc, -, rfl⟩ := pokeText_eq hp
        cases hs
        exact ⟨says_print s _, .inr ⟨id.toNat, b, c, by omega, hrun, hb, hc, rfl⟩⟩
      · cases hb
  · rw [del, if_pos hrun] at hs
    cases hs
    exact ⟨says_print s _, .inl ⟨rfl, .inl hrun⟩⟩

/-! ## The other commands

`start` and `load` replace the process and the program; `set` writes the registers; the rest only
looks.
-/

/-- **`start`** either refuses or leaves a new process running. -/
theorem start_spec (hs : start h s = .ok s') :
    Says s s' false ∧ ((s'.core = s.core ∧ (s.state ≠ .loaded ∨ s.pid ≠ 0)) ∨
      ∃ pid c, s.state = .loaded ∧ s.pid = 0 ∧ h.fork s.forks = some pid ∧
        h.execvp s.filePath s.forks = some c ∧ s'.core = s.core.started pid c) := by
  rw [start] at hs
  split at hs
  · rename_i hst
    cases hs
    exact ⟨says_print s _, .inl ⟨rfl, .inl hst⟩⟩
  rename_i hst
  split at hs
  · rename_i hpid
    cases hs
    exact ⟨says_print s _, .inl ⟨rfl, .inr hpid⟩⟩
  rename_i hpid
  split at hs
  · cases hs
  rename_i pid hfork
  split at hs
  · cases hs
  rename_i c hexec
  cases hs
  exact ⟨says_print s (.started pid.val),
    .inr ⟨pid, c, by simpa using hst, by simpa using hpid, hfork, hexec, rfl⟩⟩

/-- **`load`** works in the first state only; when it succeeds the program is loaded, and when it
does not, the header it read is all that stays. -/
theorem load_spec {path : String} (hs : load h path s = .ok s') :
    Says s s' false ∧ (s'.core = s.core ∨ (s.state = .nonload ∧ ∃ e : Elf,
      (s'.core = { s.core with elf := e } ∨
        s'.core = { s.core with elf := e, filePath := path, state := .loaded }))) := by
  rw [load] at hs
  split at hs
  · cases hs
    exact ⟨says_print s _, .inl rfl⟩
  rename_i hst
  replace hst : s.state = .nonload := by simpa using hst
  split at hs
  · cases hs
    exact ⟨says_print s _, .inl rfl⟩
  split at hs
  · cases hs
  simp only at hs
  split at hs
  · split at hs
    · split at hs
      · cases hs
      · cases hs
        exact ⟨says_print s (.programLoaded _ _), .inr ⟨hst, _, .inr rfl⟩⟩
    · cases hs
      exact ⟨says_print s .not64, .inr ⟨hst, _, .inl rfl⟩⟩
  · cases hs
    exact ⟨says_print s .notElf, .inr ⟨hst, _, .inl rfl⟩⟩

/-- **`set`** changes the registers of the tracee. -/
theorem set_spec {reg : String} {val : Word} (hs : set reg val s = .ok s') :
    Says s s' false ∧ ((s'.core = s.core ∧ s.state ≠ .running) ∨ ∃ c, s.state = .running ∧
      s.tracee = some c ∧
      s'.core = s.core.setTracee { c with regs := c.regs.updated (c.regs.setNamed reg val) }) := by
  rw [set] at hs
  split at hs
  · rename_i hst
    cases hs
    exact ⟨says_print s _, .inl ⟨rfl, hst⟩⟩
  rename_i hst
  rw [getRegs] at hs
  cases hc : s.tracee with
  | none => rw [hc] at hs; cases hs
  | some c =>
    simp only [hc, setRegs] at hs
    cases hs
    exact ⟨.refl s, .inr ⟨c, by simpa using hst, rfl, rfl⟩⟩

/-- The commands that only look. -/
def Command.quiet : Command → Bool
  | .break _ | .cont | .delete _ | .load _ | .run | .set _ _ | .si | .start => false
  | _ => true

/-- The rows of `dump` announce nothing. -/
theorem dumpRows_silent (n : Nat) (a : Addr) :
    (dumpRows h s n a).any Msg.terminiated = false := by
  induction n generalizing a with
  | zero => rfl
  | succ n ih => rw [dumpRows, List.any_cons, ih]; rfl

/-- **The quiet commands** change nothing. -/
theorem quiet_spec {fuel : Nat} {cmd : Command} (hq : cmd.quiet = true)
    (hs : exec h fuel cmd s = some (.ok s')) : s'.core = s.core ∧ Says s s' false := by
  cases cmd with
  | disasm addr => exact disasm_spec (Option.some.inj hs)
  | dump addr =>
    cases hs
    rw [dump]
    split
    · exact ⟨rfl, says_print s _⟩
    split
    · exact ⟨rfl, says_print s _⟩
    split
    · exact ⟨rfl, says_print s _⟩
    · exact ⟨rfl, _, rfl, dumpRows_silent _ _⟩
  | get reg =>
    replace hs : get reg s = .ok s' := Option.some.inj hs
    rw [get] at hs
    split at hs
    · cases hs; exact ⟨rfl, says_print s _⟩
    split at hs
    · cases hs; exact ⟨rfl, says_print s _⟩
    split at hs
    · cases hs
    · split at hs <;> cases hs
      · exact ⟨rfl, .refl s⟩
      · exact ⟨rfl, says_print s (.register _ _)⟩
  | getregs =>
    replace hs : getregs s = .ok s' := Option.some.inj hs
    rw [getregs] at hs
    split at hs
    · cases hs; exact ⟨rfl, says_print s _⟩
    split at hs
    · cases hs
    · cases hs; exact ⟨rfl, says_print s (.registers _)⟩
  | list =>
    cases hs
    refine ⟨rfl, _, rfl, ?_⟩
    rw [List.any_eq_false]
    intro m hm
    obtain ⟨i, hi, rfl⟩ := List.mem_mapIdx.1 hm
    simp [Msg.terminiated]
  | vmmap =>
    replace hs : vmmap h s = .ok s' := Option.some.inj hs
    rw [vmmap] at hs
    split at hs
    · cases hs; exact ⟨rfl, says_print s _⟩
    split at hs
    · cases hs
    split at hs
    · cases hs
    · cases hs
      refine ⟨rfl, _, rfl, ?_⟩
      simp [Msg.terminiated]
  | exit => cases hs
  | help => cases hs; exact ⟨rfl, says_print s _⟩
  | noAddress => cases hs; exact ⟨rfl, says_print s _⟩
  | noBreakpointId => cases hs; exact ⟨rfl, says_print s _⟩
  | notEnoughArguments => cases hs; exact ⟨rfl, says_print s _⟩
  | nothing => cases hs; exact ⟨rfl, .refl s⟩
  | _ => cases hq

/-- **`run`** is `cont`, after a `start` where the program does not run yet. -/
theorem run_spec {fuel : Nat} (hs : run h fuel s = some (.ok s')) :
    (s.state = .running ∧ cont h fuel s = some (.ok s')) ∨
      (s.state = .loaded ∧ ∃ s₁, start h s = .ok s₁ ∧ cont h fuel s₁ = some (.ok s')) ∨
      (s.state = .nonload ∧ s'.core = s.core ∧ Says s s' false) := by
  rw [run] at hs
  split at hs
  · rename_i hst
    exact .inl ⟨hst, hs⟩
  · rename_i hst
    split at hs
    · cases hs
    · rename_i s₁ hstart
      exact .inr (.inl ⟨hst, s₁, hstart, hs⟩)
  · rename_i hst
    cases hs
    exact .inr (.inr ⟨hst, rfl, says_print s _⟩)

end Sdb
