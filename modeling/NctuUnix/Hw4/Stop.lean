import NctuUnix.Hw4.Complete

/-!
# Stops at break points

What a `cont` reports where its tracee traps, and what it makes of the tracee.  The loop of `cont`
moves the program counter while it compares the list with it; the entries it matches are `hits`, and
`visit` is what it does for them, one after the other.

## Main results

* `stop_iff` — a stop at a listed address reports this break point, restores its word and leaves the
  program counter at it, and does nothing else, exactly when the address below is not listed
  further down, and the word and the program file can be accessed.
* `stop_fails` — two neighbours, the upper one listed first.
-/

set_option autoImplicit false

namespace Sdb

open Bytes Trap

variable {ε : Type} {h : Host ε} {s s' s'' s₁ : Sdb ε} {c c' : Tracee ε} {b : Bp} {l : List Bp}

/-! ## Counting reports

A stop at a break point is the message `** breakpoint @ `, so the stops are counted in the outputs.
-/

/-- Between `s` and `s'` stops at break points have been reported `n` times. -/
def Stops (s s' : Sdb ε) (n : Nat) : Prop :=
  ∃ ms, s'.log = s.log ++ ms ∧ ms.count .breakpoint = n

theorem Stops.refl (s : Sdb ε) : Stops s s 0 := ⟨[], by simp, rfl⟩

/-- One thing after the other. -/
theorem Stops.trans {n m : Nat} (hs : Stops s s' n) (hs' : Stops s' s'' m) :
    Stops s s'' (n + m) := by
  obtain ⟨ms, h1, h2⟩ := hs
  obtain ⟨ms', h1', h2'⟩ := hs'
  exact ⟨ms ++ ms', by rw [h1', h1, List.append_assoc], by rw [List.count_append, h2, h2']⟩

/-- Every other message is no report. -/
theorem stops_print (s : Sdb ε) {m : Msg} (hm : m ≠ .breakpoint) : Stops s (s.print m) 0 :=
  ⟨[m], rfl, by simp [hm]⟩

theorem stops_report (s : Sdb ε) : Stops s (s.print .breakpoint) 1 := ⟨[.breakpoint], rfl, rfl⟩

/-- How many reports there are is told by the outputs. -/
theorem Stops.unique {n m : Nat} (hs : Stops s s' n) (hs' : Stops s s' m) : n = m := by
  obtain ⟨ms, h1, rfl⟩ := hs
  obtain ⟨ms', h1', rfl⟩ := hs'
  rw [List.append_cancel_left (h1.symm.trans h1')]

/-- Nor is a row of `disasm`. -/
theorem insnRows_count (e : Elf) (is : List Insn) : (insnRows e is).count .breakpoint = 0 := by
  induction is with
  | nil => rfl
  | cons i is ih =>
    rw [insnRows]
    split
    · simpa using ih
    · rfl

/-- Disassembling reports nothing. -/
theorem disasm_stops {a : Addr} {n : Nat} (hs : disasm h a n s = .ok s') : Stops s s' 0 := by
  rw [disasm] at hs
  split at hs
  · cases hs; exact stops_print s (by simp)
  split at hs
  · cases hs; exact stops_print s (by simp)
  split at hs
  · cases hs; exact stops_print s (by simp)
  · simp only at hs
    split at hs
    · cases hs
    · split at hs
      · cases hs
        refine ⟨_, rfl, ?_⟩
        split
        · rfl
        · exact insnRows_count _ _
      · cases hs

/-- The disassembler says something about an address of the text exactly when the program file can
be read; for the address zero it says that there is none. -/
theorem disasm_returns_iff {a : Addr} {n : Nat} (hrun : s.state = .running)
    (htext : intext s.elf a = true) :
    (∃ s', disasm h a n s = .ok s') ↔ a = 0 ∨ Readable h s := by
  constructor
  · rintro ⟨s', hs⟩
    rw [disasm] at hs
    split at hs
    · rename_i ha
      exact .inl ha
    · rw [if_neg (by simp [hrun]), if_neg (by simp [htext])] at hs
      split at hs
      · cases hs
      · rename_i code hcode
        split at hs
        · rename_i hopen
          exact .inr ⟨hopen, code, hcode⟩
        · cases hs
  · rintro (ha | hr)
    · exact ⟨_, by rw [disasm, if_pos ha]⟩
    · obtain ⟨s', hs, -⟩ := disasm_returns (a := a) (n := n) hr
      exact ⟨s', hs⟩

/-! ## Up to the stop

Until the tracee stops, `cont` changes the tracee and nothing else, because the traps that `chkbp`
plants belong to entries.  So the loop starts from the state the command started from, with the
tracee as it is then.
-/

/-- For a listed address `bp` changes the tracee only. -/
theorem bp_frame {a : Addr} (hrun : s.state = .running) (htext : intext s.elf a = true)
    (hl : ∃ b ∈ s.bpList, b.addr = a) (hs : bp h a s = .ok s') :
    s' = { s with tracee := s'.tracee } := by
  rw [bp, if_neg (by simp [hrun]), if_neg (by simp [htext])] at hs
  simp only at hs
  split at hs
  · cases hs
    rfl
  · split at hs
    · cases hs
    · rename_i s₁ hp
      obtain ⟨c, -, -, rfl⟩ := pokeText_eq hp
      obtain ⟨b, hb, hba⟩ := hl
      rw [if_pos (List.any_eq_true.2 ⟨b, hb, by simpa using hba⟩)] at hs
      cases hs
      rfl

/-- The loop of `chkbp` changes the tracee only. -/
theorem rearm_frame {rip : Addr} (hrun : s.state = .running)
    (htext : ∀ b ∈ s.bpList, intext s.elf b.addr = true) (hl : ∀ b ∈ l, b ∈ s.bpList)
    (hs : rearm h rip l s = .ok s') : s' = { s with tracee := s'.tracee } := by
  induction l generalizing s with
  | nil =>
    cases hs
    rfl
  | cons b bs ih =>
    have hb : b ∈ s.bpList := hl b List.mem_cons_self
    have hbs : ∀ b' ∈ bs, b' ∈ s.bpList := fun b' hb' ↦ hl b' (List.mem_cons_of_mem b hb')
    rw [rearm] at hs
    split at hs
    · split at hs
      · cases hs
      · rename_i s₁ hbp
        have hframe := bp_frame hrun (htext b hb) ⟨b, hb, rfl⟩ hbp
        rw [hframe] at hs
        exact ih (s := { s with tracee := s₁.tracee }) hrun htext hbs hs
    · exact ih hrun htext hbs hs

/-- **What `chkbp` leaves** is the same state with a re-armed tracee. -/
theorem chkbp_eq (hw : WF s) (hrun : s.state = .running) (hs : chkbp h s = .ok s') :
    ∃ c, s.tracee = some c ∧ s' = { s with tracee := some (rearmed s.bpList c) } := by
  obtain ⟨c, hc, hcore, -⟩ := chkbp_spec hrun hw.inText hs
  have htr : s'.tracee = some (rearmed s.bpList c) := congrArg Core.tracee hcore
  rw [chkbp, getRegs, hc] at hs
  refine ⟨c, hc, ?_⟩
  rw [← htr]
  exact rearm_frame hrun hw.inText (fun _ hb ↦ hb) hs

/-- Inside the `cont` the tracee stops with `SIGTRAP` and is then `c`. -/
def TrapsInCont (h : Host ε) (s : Sdb ε) (c : Tracee ε) : Prop :=
  s.state = .running ∧ ∃ s₁ c₁ fuel, chkbp h s = .ok s₁ ∧ s₁.tracee = some c₁ ∧
    h.resume fuel c₁ = some (.stopped sigtrap c)

/-- What `cont` does then. -/
theorem afterCont_trap (hl : s₁.bpList = l) :
    afterCont h (.stopped sigtrap c) s₁ = contLoop h l c.regs { s₁ with tracee := some c } := by
  obtain ⟨he, hst, hsg⟩ := status_stopped sigtrap c
  rw [afterCont, afterWait, ← hl]
  simp only [reportExit, he, hst, hsg, if_true]
  rfl

/-- **A `cont` whose tracee traps** returns what its loop over the list returns. -/
theorem does_cont_iff (hw : WF s) (ht : TrapsInCont h s c) : Does h s .cont s' ↔
    contLoop h s.bpList c.regs { s with tracee := some c } = .ok s' := by
  obtain ⟨hrun, s₁, c₁, fuel, hchk, hc₁, hev⟩ := ht
  have hcont : ∀ n ev, h.resume n c₁ = some ev → cont h n s = some (afterCont h ev s₁) := by
    intro n ev hn
    rw [cont, if_neg (by simp [hrun]), hchk]
    simp only [hc₁, hn]
  obtain ⟨c₀, -, heq⟩ := chkbp_eq hw hrun hchk
  have hafter : afterCont h (.stopped sigtrap c) s₁
      = contLoop h s.bpList c.regs { s with tracee := some c } := by
    rw [heq]
    exact afterCont_trap rfl
  constructor
  · rintro ⟨n, hn⟩
    have hn : cont h n s = some (.ok s') := hn
    have hev' : h.resume n c₁ = some (.stopped sigtrap c) := by
      rcases hres : h.resume n c₁ with _ | ev
      · rw [cont, if_neg (by simp [hrun]), hchk] at hn
        simp only [hc₁, hres] at hn
        cases hn
      · have hmax := Machine.resume_mono hres (Nat.le_max_left n fuel)
        rw [Machine.resume_mono hev (Nat.le_max_right n fuel)] at hmax
        exact hmax.symm ▸ rfl
    rw [hcont n _ hev', hafter] at hn
    exact Option.some.inj hn
  · intro hloop
    exact ⟨fuel, (hcont fuel _ hev).trans (by rw [hafter, hloop])⟩

/-! ## The loop

`visit` is the loop without the comparison: it goes through the entries that are matched (`hits`),
and moves the program counter back once for each.
-/

/-- What the loop of `cont` does for the entries it matches. -/
def visit (h : Host ε) : List Bp → Regs → Sdb ε → Except Exit (Sdb ε)
  | [], _, s => .ok s
  | b :: bs, regs, s =>
    match disasm h b.addr 1 (s.print .breakpoint) with
    | .error e => .error e
    | .ok s =>
      match s.pokeText h "ptrace(PTRACE_POKETEXT)" b.addr b.origCode with
      | .error e => .error e
      | .ok s =>
        let regs := { regs with rip := regs.rip - 1 }
        match s.setRegs regs with
        | .error e => .error e
        | .ok s => visit h bs regs s

/-- The loop of `cont` visits the entries it matches. -/
theorem contLoop_eq_visit (l : List Bp) : ∀ (regs : Regs) (s : Sdb ε),
    contLoop h l regs s = visit h (hits l regs.rip) regs s := by
  induction l with
  | nil => exact fun _ _ ↦ rfl
  | cons b bs ih =>
    intro regs s
    rw [contLoop, hits]
    split
    · have hloop : contLoop h bs = fun regs s ↦ visit h (hits bs regs.rip) regs s :=
        funext fun regs ↦ funext (ih regs)
      rw [hloop]
      rfl
    · exact ih regs s

/-- One entry. -/
theorem visit_cons {bs : List Bp} {regs : Regs} (hs : visit h (b :: bs) regs s = .ok s') :
    ∃ s₁ s₂, Handled h b s s₁ ∧ s₁.setRegs { regs with rip := regs.rip - 1 } = .ok s₂ ∧
      visit h bs { regs with rip := regs.rip - 1 } s₂ = .ok s' := by
  rw [visit] at hs
  split at hs
  · cases hs
  rename_i s₁ hd
  split at hs
  · cases hs
  rename_i s₂ hp
  simp only at hs
  split at hs
  · cases hs
  rename_i s₃ hr
  exact ⟨s₂, s₃, ⟨s₁, hd, hp⟩, hr, hs⟩

/-- Registers that are written are no report. -/
theorem setRegs_stops {regs : Regs} (hr : s.setRegs regs = .ok s') : Stops s s' 0 := by
  rw [setRegs] at hr
  split at hr
  · cases hr
  · cases hr
    exact .refl s

/-- A breakpoint that is hit is one. -/
theorem Handled.stops (hh : Handled h b s s') : Stops s s' 1 := by
  obtain ⟨s₁, hd, hp⟩ := hh
  obtain ⟨c₁, -, -, rfl⟩ := pokeText_eq hp
  exact (stops_report s).trans (disasm_stops hd)

/-- One report for each entry. -/
theorem visit_stops {regs : Regs} (hs : visit h l regs s = .ok s') : Stops s s' l.length := by
  induction l generalizing regs s with
  | nil =>
    cases hs
    exact .refl _
  | cons b bs ih =>
    obtain ⟨s₁, s₂, hh, hr, hs⟩ := visit_cons hs
    rw [List.length_cons, Nat.add_comm]
    exact (hh.stops.trans (setRegs_stops hr)).trans (ih hs)

/-! ## Which entries match

No address is listed twice, so there is one entry for the trap.  When it has been matched the
program counter is one lower, and the entries further down are compared with that.
-/

/-- Entries that do not match are passed over. -/
theorem hits_of_ne {rip : Addr} {l' : List Bp} (hno : ∀ b ∈ l', b.addr ≠ rip - 1) :
    hits (l' ++ l) rip = hits l rip := by
  induction l' with
  | nil => rfl
  | cons b bs ih =>
    rw [List.cons_append, hits, if_neg (hno b List.mem_cons_self)]
    exact ih fun b' hb' ↦ hno b' (List.mem_cons_of_mem b hb')

/-- What comes after an element that occurs once. -/
theorem sublist_of_notMem {x : Addr} {xs l₁ l₂ : List Addr} (hx : x ∉ l₁)
    (hs : (x :: xs).Sublist (l₁ ++ x :: l₂)) : xs.Sublist l₂ := by
  induction l₁ with
  | nil => exact List.cons_sublist_cons.1 hs
  | cons y ys ih =>
    rw [List.mem_cons, not_or] at hx
    rcases List.sublist_cons_iff.1 hs with hs | ⟨r, heq, -⟩
    · exact ih hx.2 hs
    · exact absurd (List.cons.inj heq).1 hx.1

/-- **The first match is the entry of the trap**, and it is the only one unless the address below
is listed further down. -/
theorem hits_eq_singleton_iff (hn : (l.map Bp.addr).Nodup) (hb : b ∈ l) :
    (∃ bs, hits l (b.addr + 1) = b :: bs) ∧
      (hits l (b.addr + 1) = [b] ↔ ¬ [b.addr, b.addr - 1].Sublist (l.map Bp.addr)) := by
  obtain ⟨l₁, l₂, rfl⟩ := List.append_of_mem hb
  rw [List.map_append, List.map_cons] at hn ⊢
  have hself : b.addr + 1 - 1 = b.addr := by grind
  have hno : ∀ b' ∈ l₁, b'.addr ≠ b.addr := fun b' hb' ↦
    (List.nodup_append.1 hn).2.2 _ (List.mem_map_of_mem hb') _ List.mem_cons_self
  have hhits : hits (l₁ ++ b :: l₂) (b.addr + 1) = b :: hits l₂ b.addr := by
    rw [hits_of_ne (by rwa [hself]), hits, if_pos hself.symm, hself]
  have hmem : b.addr ∉ l₁.map Bp.addr := fun hm ↦ by
    obtain ⟨b', hb', he⟩ := List.mem_map.1 hm
    exact hno b' hb' he
  have hsub : [b.addr, b.addr - 1].Sublist (l₁.map Bp.addr ++ b.addr :: l₂.map Bp.addr) ↔
      b.addr - 1 ∈ l₂.map Bp.addr := by
    rw [← List.singleton_sublist]
    constructor
    · exact sublist_of_notMem hmem
    · intro hs
      exact (hs.cons_cons b.addr).trans (List.sublist_append_right _ _)
  rw [hhits, hsub]
  refine ⟨⟨_, rfl⟩, ?_⟩
  rw [List.cons.injEq, and_iff_right rfl]
  exact hits_eq_nil_iff

/-! ## The stop -/

/-- The stop at `b`, where the tracee is `c`, is reported as one stop at `b`; its word is restored,
the program counter is left at it, and nothing else happens. -/
structure StopsOnly (h : Host ε) (s : Sdb ε) (b : Bp) (c : Tracee ε) (s' : Sdb ε) : Prop where
  report : ∃ t, disasm h b.addr 1 ({ s with tracee := some c }.print .breakpoint) = .ok t ∧
    s'.log = t.log
  once : Stops s s' 1
  core : s'.core = s.core.setTracee { c with
    regs := { c.regs with rip := b.addr }
    mem := storeWord c.mem b.addr b.origCode }

/-- **When a stop is right.**  Inside a `cont` the tracee traps at the listed address `b.addr`: the
`cont` returns, having reported this one break point, restored its word and set the program counter
back to it, exactly if the address below does not come later in the list, the eight bytes at the
address are mapped and the program file can be read for the disassembly (or the address is zero,
for which it is not). -/
theorem stop_iff (hr : Reachable h s) (ht : TrapsInCont h s c) (hb : b ∈ s.bpList)
    (hrip : c.regs.rip = b.addr + 1) :
    (∃ s', Does h s .cont s' ∧ StopsOnly h s b c s') ↔
      ¬ [b.addr, b.addr - 1].Sublist (s.bpList.map Bp.addr) ∧
        h.wordMapped c.env b.addr = true ∧ (b.addr = 0 ∨ Readable h s) := by
  have hw := reachable_wf hr
  obtain ⟨⟨bs, hfirst⟩, hsingle⟩ := hits_eq_singleton_iff hw.distinct hb
  have hloop (s' : Sdb ε) : Does h s .cont s' ↔
      visit h (b :: bs) c.regs { s with tracee := some c } = .ok s' := by
    rw [does_cont_iff hw ht, contLoop_eq_visit, hrip, hfirst]
  have hreturns := disasm_returns_iff (h := h) (n := 1)
    (s := { s with tracee := some c }.print .breakpoint) ht.1 (hw.inText b hb)
  constructor
  · rintro ⟨s', hd, hstop⟩
    rw [hloop] at hd
    have hlen : (b :: bs).length = 1 := by
      obtain ⟨ms, hlog, hcount⟩ := visit_stops hd
      exact Stops.unique ⟨ms, hlog, hcount⟩ hstop.once
    have hnil : bs = [] := List.eq_nil_of_length_eq_zero (by simpa using hlen)
    obtain ⟨s₁, s₂, hh, -⟩ := visit_cons hd
    obtain ⟨-, -, hm⟩ := hh.spec rfl
    obtain ⟨t, hdis, -⟩ := hh
    exact ⟨hsingle.1 (hnil ▸ hfirst), hm, hreturns.1 ⟨t, hdis⟩⟩
  · rintro ⟨hbelow, hm, hread⟩
    have hnil : bs = [] := by
      have := hsingle.2 hbelow
      rw [hfirst] at this
      exact (List.cons.inj this).2
    obtain ⟨t, hdis⟩ := hreturns.2 hread
    have hcore : t.core = s.core.setTracee c := (disasm_spec hdis).1
    have htr : t.tracee = some c := congrArg Core.tracee hcore
    have hpoke : t.pokeText h "ptrace(PTRACE_POKETEXT)" b.addr b.origCode
        = .ok { t with tracee := some (writeBack b c) } := by
      simp only [pokeText, htr, hm, if_true]
      rfl
    have hvisit : visit h (b :: bs) c.regs { s with tracee := some c }
        = .ok { t with tracee := some { writeBack b c with
            regs := { c.regs with rip := b.addr } } } := by
      have hback : b.addr + 1 - 1 = b.addr := by grind
      have hkeep : (writeBack b c).regs.updated { c.regs with rip := b.addr }
          = { c.regs with rip := b.addr } := Regs.updated_of_eflags rfl
      rw [hnil, visit, hdis]
      simp only [hpoke, setRegs, hrip, hback, hkeep]
      rfl
    refine ⟨_, (hloop _).2 hvisit, ⟨t, hdis, rfl⟩, ?_, ?_⟩
    · exact (stops_report { s with tracee := some c }).trans (disasm_stops hdis)
    · show t.core.setTracee _ = _
      rw [hcore]
      rfl

/-! ## Two neighbours -/

/-- The tracee where it traps inside a `cont`, as far as the fuel lasts. -/
def trapInCont (h : Host ε) (fuel : Nat) (s : Sdb ε) : Option (Tracee ε) :=
  match s.state, chkbp h s with
  | .running, .ok s₁ =>
    match s₁.tracee.bind (h.resume fuel) with
    | some (.stopped sig c) => if sig = sigtrap then some c else none
    | _ => none
  | _, _ => none

theorem trapsInCont_of_eq {fuel : Nat} (ht : trapInCont h fuel s = some c) : TrapsInCont h s c := by
  rw [trapInCont] at ht
  split at ht
  · rename_i s₁ hrun hchk
    rcases hc₁ : s₁.tracee with _ | c₁
    · simp [hc₁] at ht
    · rw [hc₁, Option.bind_some] at ht
      split at ht
      · rename_i sig c' hev
        split at ht
        · rename_i hsig
          rw [hsig, Option.some.inj ht] at hev
          exact ⟨hrun, s₁, c₁, fuel, hchk, hc₁, hev⟩
        · cases ht
      · cases ht
  · cases ht

/-- The second of two neighbours, the lower one set first. -/
theorem stop_iff_ascending : ∃ s s' : Sdb Nat,
    s.bpList.map Bp.addr = [Tiny.textAddr, Tiny.textAddr + 1] ∧
    Does (Tiny.host [0x90, 0x90, 0xeb, 0xfc]) s .cont s' ∧
      ∃ c, s'.tracee = some c ∧ c.regs.rip = Tiny.textAddr + 1 := by
  obtain ⟨s, hr, hp⟩ := script_reaches (Tiny.host [0x90, 0x90, 0xeb, 0xfc]) (fun _ ↦ True) 3
    [.load "a.out", .start, .break Tiny.textAddr, .break (Tiny.textAddr + 1), .cont]
    (fun s ↦ s.bpList.map Bp.addr = [Tiny.textAddr, Tiny.textAddr + 1] ∧ s.code.isSome = true ∧
      (trapInCont (Tiny.host [0x90, 0x90, 0xeb, 0xfc]) 3 s).any
        (fun c : Tracee Nat ↦ c.regs.rip = Tiny.textAddr + 2) = true)
    (fun _ _ ↦ trivial) (by decide +kernel)
  obtain ⟨hlist, hcode, hany⟩ := of_decide_eq_true hp
  obtain ⟨c, hc, hrip⟩ := (Option.any_eq_true _ _).1 hany
  replace hrip : c.regs.rip = Tiny.textAddr + 2 := of_decide_eq_true hrip
  obtain ⟨b, hb, hba⟩ : ∃ b ∈ s.bpList, b.addr = Tiny.textAddr + 1 :=
    List.mem_map.1 (hlist ▸ by simp)
  obtain ⟨code, hcode⟩ := Option.isSome_iff_exists.1 hcode
  have hmapped : (Tiny.host [0x90, 0x90, 0xeb, 0xfc]).wordMapped 2 (Tiny.textAddr + 1) = true := by
    decide +kernel
  have hread : Readable (Tiny.host [0x90, 0x90, 0xeb, 0xfc]) s :=
    ⟨rfl, code, by rw [cachedCode, hcode]⟩
  obtain ⟨s', hd, hstop⟩ := (stop_iff hr (trapsInCont_of_eq hc) hb (by rw [hrip, hba]; rfl)).2
    ⟨by rw [hlist, hba]; decide +kernel, hba ▸ hmapped, .inr hread⟩
  exact ⟨s, s', hlist, hd, _, congrArg Core.tracee hstop.core, hba⟩

/-- **A stop that is reported twice.**  Of two neighbours the upper one is listed first; the stop
there is taken for a stop at the lower one as well, and the program counter is left below. -/
theorem stop_fails : ∃ (s s' : Sdb Nat) (c : Tracee Nat) (b : Bp),
    Reachable (Tiny.host [0x90, 0x90, 0xeb, 0xfc]) s ∧
    TrapsInCont (Tiny.host [0x90, 0x90, 0xeb, 0xfc]) s c ∧ b ∈ s.bpList ∧
    c.regs.rip = b.addr + 1 ∧ Does (Tiny.host [0x90, 0x90, 0xeb, 0xfc]) s .cont s' ∧
    ¬ StopsOnly (Tiny.host [0x90, 0x90, 0xeb, 0xfc]) s b c s' := by
  obtain ⟨s, hr, hp⟩ := script_reaches (Tiny.host [0x90, 0x90, 0xeb, 0xfc]) (fun _ ↦ True) 3
    [.load "a.out", .start, .break (Tiny.textAddr + 1), .break Tiny.textAddr, .cont]
    (fun s ↦ s.bpList.map Bp.addr = [Tiny.textAddr + 1, Tiny.textAddr] ∧
      (trapInCont (Tiny.host [0x90, 0x90, 0xeb, 0xfc]) 3 s).any
        (fun c : Tracee Nat ↦ c.regs.rip = Tiny.textAddr + 2) = true ∧
      (script (Tiny.host [0x90, 0x90, 0xeb, 0xfc]) 3 [.cont] s).any
        (fun s' ↦ s'.tracee.all fun c ↦ c.regs.rip ≠ Tiny.textAddr + 1) = true)
    (fun _ _ ↦ trivial) (by decide +kernel)
  obtain ⟨hlist, hany, hcont⟩ := of_decide_eq_true hp
  obtain ⟨c, hc, hrip⟩ := (Option.any_eq_true _ _).1 hany
  replace hrip : c.regs.rip = Tiny.textAddr + 2 := of_decide_eq_true hrip
  obtain ⟨b, hb, hba⟩ : ∃ b ∈ s.bpList, b.addr = Tiny.textAddr + 1 :=
    List.mem_map.1 (hlist ▸ by simp)
  obtain ⟨s', hs', hback⟩ := (Option.any_eq_true _ _).1 hcont
  refine ⟨s, s', c, b, hr, trapsInCont_of_eq hc, hb, by rw [hrip, hba]; rfl, ?_, fun hstop ↦ ?_⟩
  · exact does_of_script hs'
  · rw [show s'.tracee = _ from congrArg Core.tracee hstop.core] at hback
    exact of_decide_eq_true hback hba

end Sdb
