import NctuUnix.Hw4.Stop

/-!
# The instruction about to be resumed

After a stop at a break point the byte at the program counter is the one the program image has
there, whatever the neighbours in the list are: the word that is written back last is the word of
the entry the program counter is left at, and its low byte is the image's.

## Main results

* `resumed_original` — for a program that leaves its text alone, in every session.
-/

set_option autoImplicit false

namespace Sdb

open Bytes Trap

variable {ε : Type} {h : Host ε} {s s' s₁ : Sdb ε} {c : Tracee ε} {cmd : Command} {img : Mem}
  {b : Bp} {l hs : List Bp}

/-! ## The entry that is written back last -/

/-- The last word that is written back is there afterwards. -/
theorem restore_concat (m : Mem) : restore (hs ++ [b]) m b.addr = byteOf b.origCode 0 := by
  rw [restore, List.foldl_append]
  exact storeWord_self _ _ _

/-- The program counter is left at the last entry that matches. -/
theorem hits_concat {rip : Addr} (hh : hits l rip = hs ++ [b]) :
    b.addr = rip - BitVec.ofNat 64 (hits l rip).length := by
  induction l generalizing rip hs with
  | nil => exact absurd hh (by simp [hits])
  | cons b' bs ih =>
    rw [hits] at hh ⊢
    split at hh
    · rename_i hb'
      rw [if_pos hb', List.length_cons]
      rcases hs with _ | ⟨b₀, hs⟩
      · obtain ⟨rfl, hnil⟩ := List.cons.inj hh
        rw [hnil, hb']
        rfl
      · rw [ih (List.cons.inj hh).2]
        bv_omega
    · rename_i hb'
      rw [if_neg hb']
      exact ih hh

/-- **After a stop in `cont`** the byte at the program counter is the low byte of a saved word. -/
theorem contUndo_resumes (hne : hits l c.regs.rip ≠ []) :
    ∃ b ∈ l, (contUndo l c).regs.rip = b.addr ∧
      (contUndo l c).mem b.addr = byteOf b.origCode 0 := by
  obtain ⟨hs, b, hh⟩ := (List.eq_nil_or_concat' _).resolve_left hne
  have hlast : b ∈ hits l c.regs.rip := by rw [hh]; simp
  refine ⟨b, hits_subset hlast, (hits_concat hh).symm, ?_⟩
  rw [contUndo, hh]
  exact restore_concat c.mem

/-- **After a stop in `si`** as well. -/
theorem siUndo_resumes (hne : l.filter (fun b ↦ b.addr = c.regs.rip) ≠ []) :
    ∃ b ∈ l, (siUndo l c).regs.rip = b.addr ∧ (siUndo l c).mem b.addr = byteOf b.origCode 0 := by
  obtain ⟨hs, b, hh⟩ := (List.eq_nil_or_concat' _).resolve_left hne
  have hb : b ∈ l.filter fun b ↦ b.addr = c.regs.rip := by rw [hh]; simp
  have hba : b.addr = c.regs.rip := of_decide_eq_true (List.mem_filter.1 hb).2
  refine ⟨b, (List.mem_filter.1 hb).1, hba.symm, ?_⟩
  rw [siUndo, hh]
  exact restore_concat c.mem

/-! ## What is reported -/

theorem siLoop_stops {regs : Regs} (hs : siLoop h regs l s = .ok s') :
    Stops s s' (l.filter fun b ↦ b.addr = regs.rip).length := by
  induction l generalizing s with
  | nil =>
    cases hs
    exact .refl _
  | cons b bs ih =>
    rcases siLoop_cons hs with ⟨hb, s₁, hh, hs⟩ | ⟨hb, hs⟩
    · rw [List.filter_cons_of_pos (by simpa using hb), List.length_cons, Nat.add_comm]
      exact hh.stops.trans (ih hs)
    · rw [List.filter_cons_of_neg (by simpa using hb)]
      exact ih hs

/-- Only where the tracee traps is there anything to report. -/
theorem afterWait_stops {loop : Tracee ε → Sdb ε → Except Exit (Sdb ε)} {ev : Event Regs ε}
    (hs : afterWait loop ev s = .ok s') :
    Stops s s' 0 ∨ ∃ c, ev = .stopped sigtrap c ∧ loop c { s with tracee := some c } = .ok s' := by
  obtain ⟨code, rfl, rfl⟩ | ⟨sig, core, rfl, rfl⟩ | ⟨sig, c, rfl, -, rfl⟩ | ⟨c, rfl, htrap⟩ :=
    afterWait_cases hs
  · exact .inl (stops_print s (by simp))
  · exact .inl (.refl s)
  · exact .inl (stops_print s (by simp))
  · exact .inr ⟨c, rfl, htrap⟩

/-- A `cont` that reports a stop has undone the trap of a listed address. -/
theorem cont_reports {fuel n : Nat} (hw : WF s) (hrun : s.state = .running)
    (hs : cont h fuel s = some (.ok s')) (hn : Stops s s' (n + 1)) :
    ∃ c, hits s.bpList c.regs.rip ≠ [] ∧ s'.tracee = some (contUndo s.bpList c) := by
  obtain ⟨hno, -⟩ | ⟨-, s₁, c₁, ev, hchk, -, -, hafter⟩ := cont_cases hs
  · exact absurd hrun hno
  obtain ⟨c₀, hc₀, rfl⟩ := chkbp_eq hw hrun hchk
  rcases afterWait_stops hafter with ⟨ms, hlog, hcount⟩ | ⟨c, rfl, hloop⟩
  · exact absurd (Stops.unique ⟨ms, hlog, hcount⟩ hn) (by simp)
  · obtain ⟨hcore, -⟩ := contLoop_spec (c := c) rfl hloop
    rw [contLoop_eq_visit] at hloop
    obtain ⟨ms, hlog, hcount⟩ := visit_stops hloop
    have hstops : Stops s s' (hits s.bpList c.regs.rip).length := ⟨ms, hlog, hcount⟩
    have hlen := hstops.unique hn
    refine ⟨c, fun hnil ↦ ?_, congrArg Core.tracee hcore⟩
    rw [hnil] at hlen
    cases hlen

/-- And so has a `si`. -/
theorem si_reports {n : Nat} (hw : WF s) (hrun : s.state = .running) (hs : si h s = .ok s')
    (hn : Stops s s' (n + 1)) :
    ∃ c, s.bpList.filter (fun b ↦ b.addr = c.regs.rip) ≠ [] ∧
      s'.tracee = some (siUndo s.bpList c) := by
  obtain ⟨hno, -⟩ | ⟨-, s₁, c₁, hchk, -, hafter⟩ := si_cases hs
  · exact absurd hrun hno
  obtain ⟨c₀, hc₀, rfl⟩ := chkbp_eq hw hrun hchk
  rcases afterWait_stops hafter with ⟨ms, hlog, hcount⟩ | ⟨c, -, hloop⟩
  · exact absurd (Stops.unique ⟨ms, hlog, hcount⟩ hn) (by simp)
  · obtain ⟨hcore, -⟩ := siLoop_spec (c := c) rfl hloop
    obtain ⟨ms, hlog, hcount⟩ := siLoop_stops hloop
    have hstops : Stops s s' (s.bpList.filter fun b ↦ b.addr = c.regs.rip).length :=
      ⟨ms, hlog, hcount⟩
    have hlen := hstops.unique hn
    refine ⟨c, fun hnil ↦ ?_, congrArg Core.tracee hcore⟩
    rw [hnil] at hlen
    cases hlen

theorem start_stops (hs : start h s = .ok s') : Stops s s' 0 := by
  rw [start] at hs
  split at hs
  · cases hs; exact stops_print s (by simp)
  split at hs
  · cases hs; exact stops_print s (by simp)
  split at hs
  · cases hs
  rename_i pid hfork
  split at hs
  · cases hs
  · cases hs
    exact stops_print s (m := .started pid.val) (by simp)

/-- What `cont` prints comes after what has been printed before. -/
theorem cont_log {fuel : Nat} (hw : WF s) (hrun : s.state = .running)
    (hs : cont h fuel s = some (.ok s')) : ∃ ms, s'.log = s.log ++ ms := by
  obtain ⟨c, ev, -, -, hafter⟩ := cont_spec hrun hw.inText hs
  rcases hafter with ⟨-, ms, hms, -⟩ | ⟨-, ms, hms, -⟩ | ⟨-, -, ms, hms, -⟩ | ⟨-, ms, hms, -⟩
  · exact ⟨ms, hms⟩
  · exact ⟨ms, hms⟩
  · exact ⟨ms, hms⟩
  · exact ⟨ms, hms⟩

/-- The commands that let the tracee run. -/
def Command.resumes (cmd : Command) : Prop := cmd = .cont ∨ cmd = .si ∨ cmd = .run

/-- **A command that reports a stop leaves the program counter at a listed address**, with the low
byte of the saved word in memory. -/
theorem Does.resumes {n : Nat} (hw : WF s) (hcmd : cmd.resumes) (hd : Does h s cmd s')
    (hn : Stops s s' (n + 1)) :
    ∃ c, ∃ b ∈ s.bpList, s'.tracee = some c ∧ c.regs.rip = b.addr ∧
      c.mem b.addr = byteOf b.origCode 0 := by
  have hcont : ∀ {t : Sdb ε}, WF t → t.state = .running → Does h t .cont s' →
      Stops t s' (n + 1) → ∃ c, ∃ b ∈ t.bpList, s'.tracee = some c ∧ c.regs.rip = b.addr ∧
        c.mem b.addr = byteOf b.origCode 0 := by
    rintro t hwt hrun ⟨fuel, hs⟩ hst
    obtain ⟨c, hne, htr⟩ := cont_reports hwt hrun hs hst
    obtain ⟨b, hb, hrip, hmem⟩ := contUndo_resumes hne
    exact ⟨_, b, hb, htr, hrip, hmem⟩
  have hidle : ∀ m : Msg, m ≠ .breakpoint → s' = s.print m → False := fun m hm he ↦ by
    rw [he] at hn
    exact absurd (Stops.unique (stops_print s hm) hn) (by simp)
  rcases hcmd with rfl | rfl | rfl
  · by_cases hrun : s.state = .running
    · exact hcont hw hrun hd hn
    · obtain ⟨fuel, hs⟩ := hd
      rw [exec, cont, if_pos hrun] at hs
      exact (hidle .mustBeRunning (by simp) (Except.ok.inj (Option.some.inj hs)).symm).elim
  · obtain ⟨fuel, hs⟩ := hd
    replace hs : si h s = .ok s' := Option.some.inj hs
    by_cases hrun : s.state = .running
    · obtain ⟨c, hne, htr⟩ := si_reports hw hrun hs hn
      obtain ⟨b, hb, hrip, hmem⟩ := siUndo_resumes hne
      exact ⟨_, b, hb, htr, hrip, hmem⟩
    · rw [si, if_pos hrun] at hs
      exact (hidle .mustBeRunning (by simp) (Except.ok.inj hs).symm).elim
  · obtain ⟨fuel, hs⟩ := hd
    rcases run_spec hs with ⟨hrun, hc⟩ | ⟨hst, s₁, hs₁, hc⟩ | ⟨hst, -⟩
    · exact hcont hw hrun ⟨fuel, hc⟩ hn
    · have hdo : Does h s .start s₁ := ⟨fuel, congrArg some hs₁⟩
      have hw₁ : WF s₁ := hdo.wf hw
      rcases start_spec hs₁ with ⟨-, ⟨hcore, -⟩ | ⟨pid, c, -, -, -, -, hcore⟩⟩
      · have hst₁ : s₁.state = .loaded := (congrArg Core.state hcore).trans hst
        rw [cont, if_pos (by simp [hst₁])] at hc
        have hone := (start_stops hs₁).trans (stops_print s₁ (m := .mustBeRunning) (by simp))
        rw [Except.ok.inj (Option.some.inj hc)] at hone
        exact absurd (hone.unique hn) (by simp)
      · have hrun₁ : s₁.state = .running := congrArg Core.state hcore
        have hl : s₁.bpList = s.bpList := congrArg Core.bpList hcore
        obtain ⟨ms, hms⟩ := cont_log hw₁ hrun₁ hc
        have hone := (start_stops hs₁).trans ⟨ms, hms, rfl⟩
        rw [← hl]
        refine hcont hw₁ hrun₁ ⟨fuel, hc⟩ ⟨ms, hms, ?_⟩
        rw [← hone.unique hn, Nat.zero_add]
    · rw [exec, Sdb.run, hst] at hs
      exact (hidle .mustBeRunningOrLoaded (by simp) (Except.ok.inj (Option.some.inj hs)).symm).elim

/-- **The instruction about to be resumed is the image's.**  For a program that leaves its text
alone: the low byte of every saved word is the image's byte at its address, and when a command has
reported a stop the tracee stands at an instruction whose first byte is the image's. -/
theorem resumed_original (hr : Session h (Throughout h (Program h img)) s) :
    (∀ b ∈ s.bpList, byteOf b.origCode 0 = img b.addr) ∧
      ∀ (cmd : Command) (s' : Sdb ε) (n : Nat), cmd.resumes → Does h s cmd s' →
        Stops s s' (n + 1) →
          ∃ c, s'.tracee = some c ∧ c.mem c.regs.rip = img c.regs.rip := by
  obtain ⟨hw, ht⟩ := session_textOk (fun _ _ ho ↦ ho) hr
  refine ⟨fun b hb ↦ (ht.low b hb).1, fun cmd s' n hcmd hd hn ↦ ?_⟩
  obtain ⟨c, b, hb, htr, hrip, hmem⟩ := hd.resumes hw hcmd hn
  refine ⟨c, htr, ?_⟩
  rw [hrip, hmem]
  exact (ht.low b hb).1

/-- Two neighbours, the upper one listed first: the stop at the upper one leaves the program counter
at the lower one, where the image's byte has been put back. -/
theorem resumed_original_neighbours : ∃ (s s' : Sdb Nat) (c : Tracee Nat),
    Does (Tiny.host [0x90, 0x90, 0xeb, 0xfc]) s .cont s' ∧ s'.tracee = some c ∧
      c.mem c.regs.rip = (Tiny.image [0x90, 0x90, 0xeb, 0xfc]).mem c.regs.rip := by
  obtain ⟨s, hr, hp⟩ := script_reaches (Tiny.host [0x90, 0x90, 0xeb, 0xfc]) (fun _ ↦ True) 3
    [.load "a.out", .start, .break (Tiny.textAddr + 1), .break Tiny.textAddr, .cont]
    (fun s ↦ (script (Tiny.host [0x90, 0x90, 0xeb, 0xfc]) 3 [.cont] s).any (fun s' ↦
      s'.log.take s.log.length = s.log ∧ (s'.log.drop s.log.length).count .breakpoint = 2) = true)
    (fun _ _ ↦ trivial) (by decide +kernel)
  obtain ⟨s', hs', hlog⟩ := (Option.any_eq_true _ _).1 (of_decide_eq_true hp)
  obtain ⟨htake, hcount⟩ := of_decide_eq_true hlog
  have hsplit : s'.log = s.log ++ s'.log.drop s.log.length := by
    rw [← List.take_append_drop s.log.length s'.log, htake, List.drop_left]
  obtain ⟨c, htr, hmem⟩ := (resumed_original
    (hr.mono fun t cmd _ ↦ throughout_of_forall (Tiny.program _) t cmd)).2 .cont s' 1 (.inl rfl)
    (does_of_script hs') ⟨_, hsplit, hcount⟩
  exact ⟨s, s', c, does_of_script hs', htr, hmem⟩

end Sdb
