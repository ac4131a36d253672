import NctuUnix.Hw4.Lifecycle

/-!
# The text of the tracee

A program that does not write its own text still gets its text written: by the debugger.  This file
says what can be found there; `img` is the program image.

## Main results

* `TextOk` — every byte of the text is the image's or a trap, the saved words consist of such bytes
  as far as they lie in the text, and their low byte is the image's and no trap.
* `Does.textOk`, `session_textOk` — for a program that does not write its text (`Program`) this
  holds in every state of every session.
-/

set_option autoImplicit false

namespace Sdb

open Bytes Trap

variable {ε : Type} {h : Host ε} {s s' : Sdb ε} {c : Tracee ε} {cmd : Command} {img : Mem}

/-! ## The assumption on the program -/

/-- The byte `v` may stand at `a`: it is the image's, or a trap. -/
def Allowed (img : Mem) (a : Addr) (v : Byte) : Prop := v = img a ∨ v = int3

/-- The addresses of the text. -/
def InText (e : Elf) (a : Addr) : Prop := intext e a = true

/-- The text of the program is that of the image `img`, and the program does not write it. -/
def Program (h : Host ε) (img : Mem) (s : Sdb ε) : Command → Prop
  | .start => ∀ c, h.execvp s.filePath s.forks = some c → ∀ a, InText s.elf a → c.mem a = img a
  | .cont => s.state = .running → ∀ c, s.tracee = some c →
      ∀ k ck, h.steps k (rearmed s.bpList c) = some ck → h.Keeps (InText s.elf) ck
  | .si => s.state = .running → ∀ c, s.tracee = some c →
      h.Keeps (InText s.elf) (rearmed s.bpList c)
  | _ => True

/-! ## What writing the saved words back leaves -/

/-- The byte that writing the saved words of some entries back leaves at `x`, if they reach it. -/
def writes : List Bp → Addr → Option Byte
  | [], _ => none
  | b :: bs, x =>
    (writes bs x).or
      (if (x - b.addr).toNat < 8 then some (byteOf b.origCode (x - b.addr).toNat) else none)

theorem restore_eq (l : List Bp) (m : Mem) : restore l m = overlay m (writes l) := by
  induction l generalizing m with
  | nil => rfl
  | cons b bs ih =>
    rw [restore, List.foldl_cons, ← restore, ih]
    funext x
    rw [overlay, overlay, writes]
    rcases hw : writes bs x with _ | v
    · simp only [Option.getD_none, Option.none_or, storeWord]
      split <;> rfl
    · rfl

/-- Each byte comes from one of the words. -/
theorem mem_of_writes {l : List Bp} {x : Addr} {v : Byte} (hw : writes l x = some v) :
    ∃ b ∈ l, ∃ k, k < 8 ∧ x = b.addr + BitVec.ofNat 64 k ∧ v = byteOf b.origCode k := by
  induction l with
  | nil => cases hw
  | cons b bs ih =>
    rw [writes, Option.or_eq_some_iff] at hw
    rcases hw with hw | ⟨-, hw⟩
    · obtain ⟨b', hb', hk⟩ := ih hw
      exact ⟨b', List.mem_cons_of_mem b hb', hk⟩
    · split at hw
      · rename_i hlt
        refine ⟨b, List.mem_cons_self, (x - b.addr).toNat, hlt, ?_, (Option.some.inj hw).symm⟩
        rw [BitVec.ofNat_toNat, BitVec.setWidth_eq, BitVec.add_comm, BitVec.sub_add_cancel]
      · cases hw

/-- The entries a stop in `cont` matches are entries. -/
theorem hits_subset {l : List Bp} {rip : Addr} {b : Bp} (hb : b ∈ hits l rip) : b ∈ l := by
  induction l generalizing rip with
  | nil => exact hb
  | cons b' bs ih =>
    rw [hits] at hb
    split at hb
    · rcases List.mem_cons.1 hb with rfl | hb
      · exact List.mem_cons_self
      · exact List.mem_cons_of_mem b' (ih hb)
    · exact List.mem_cons_of_mem b' (ih hb)

/-! ## The invariant -/

/-- What can be found in the text, and in the saved words. -/
structure TextOk (img : Mem) (s : Sdb ε) : Prop where
  saved : ∀ b ∈ s.bpList, ∀ k, k < 8 → InText s.elf (b.addr + BitVec.ofNat 64 k) →
    Allowed img (b.addr + BitVec.ofNat 64 k) (byteOf b.origCode k)
  /-- The byte that `break` replaces is the image's, and no trap. -/
  low : ∀ b ∈ s.bpList, byteOf b.origCode 0 = img b.addr ∧ img b.addr ≠ int3
  bytes : ∀ c, s.tracee = some c → ∀ a, InText s.elf a → Allowed img a (c.mem a)
  /-- Before a program is loaded there is no process. -/
  unloaded : s.state = .nonload → s.tracee = none

theorem textOk_init : TextOk img (init : Sdb ε) where
  saved _ hb := by simp [init] at hb
  low _ hb := by simp [init] at hb
  bytes _ hc := by simp [init] at hc
  unloaded _ := rfl

/-- The debugger's list is what it was, or smaller, and its text section is the same. -/
theorem TextOk.of_tracee (ht : TextOk img s) (he : s'.elf = s.elf)
    (hl : ∀ b ∈ s'.bpList, ∃ b' ∈ s.bpList, b.addr = b'.addr ∧ b.origCode = b'.origCode)
    (hc : ∀ c, s'.tracee = some c → ∀ a, InText s.elf a → Allowed img a (c.mem a))
    (hst : s'.state = .nonload → s'.tracee = none) : TextOk img s' where
  saved b hb k hk := by
    obtain ⟨b', hb', ha, ho⟩ := hl b hb
    rw [he, ha, ho]
    exact ht.saved b' hb' k hk
  low b hb := by
    obtain ⟨b', hb', ha, ho⟩ := hl b hb
    rw [ha, ho]
    exact ht.low b' hb'
  bytes := by rw [he]; exact hc
  unloaded := hst

/-- A trap planted in the text is allowed. -/
theorem allowed_arm {a : Addr}
    (hc : ∀ x, InText s.elf x → Allowed img x (c.mem x)) (x : Addr) (hx : InText s.elf x) :
    Allowed img x ((arm a c).mem x) := by
  by_cases hax : x = a
  · subst hax
    exact .inr (arm_mem_self x c)
  · rw [arm_mem_of_ne hax]
    exact hc x hx

theorem allowed_rearmed
    (hc : ∀ x, InText s.elf x → Allowed img x (c.mem x)) (x : Addr) (hx : InText s.elf x) :
    Allowed img x ((rearmed s.bpList c).mem x) := by
  rw [show (rearmed s.bpList c).mem x = armAbove s.bpList c.regs.rip c.mem x from rfl, armAbove]
  split
  · exact .inr rfl
  · exact hc x hx

/-- Bytes written back from saved words are allowed. -/
theorem TextOk.allowed_restore (ht : TextOk img s) {l : List Bp} (hl : ∀ b ∈ l, b ∈ s.bpList)
    {m : Mem} (hm : ∀ x, InText s.elf x → Allowed img x (m x)) (x : Addr)
    (hx : InText s.elf x) : Allowed img x (restore l m x) := by
  rw [restore_eq, overlay]
  rcases hw : writes l x with _ | v
  · exact hm x hx
  · obtain ⟨b, hb, k, hk, rfl, rfl⟩ := mem_of_writes hw
    exact ht.saved b (hl b hb) k hk hx

/-- The process after an event, where `undo` writes saved words back. -/
theorem After.textOk {undo : Tracee ε → Tracee ε} {ev : Event Regs ε} (ht : TextOk img s)
    (hrun : s.state = .running) (hafter : After undo s ev s')
    (hev : ∀ sig c, ev = .stopped sig c → ∀ x, InText s.elf x → Allowed img x (c.mem x))
    (hundo : ∀ c, (∀ x, InText s.elf x → Allowed img x (c.mem x)) →
      ∀ x, InText s.elf x → Allowed img x ((undo c).mem x)) : TextOk img s' := by
  obtain ⟨hl, he, -, -, hst⟩ := hafter.table
  refine ht.of_tracee he (fun b hb ↦ ⟨b, hl ▸ hb, rfl, rfl⟩) ?_ fun hn ↦ ?_
  · intro c hc
    rcases hafter with ⟨hcore, -⟩ | ⟨hcore, -⟩ | ⟨hsig, hcore, -⟩ | ⟨hcore, -⟩
    · exact absurd (hc.symm.trans (congrArg Core.tracee hcore)) (by simp [Core.ended])
    · exact absurd (hc.symm.trans (congrArg Core.tracee hcore)) (by simp [Core.lost])
    · obtain rfl := Option.some.inj (hc.symm.trans (congrArg Core.tracee hcore))
      exact hev _ _ rfl
    · obtain rfl := Option.some.inj (hc.symm.trans (congrArg Core.tracee hcore))
      exact hundo _ (hev _ _ rfl)
  · rw [hn, hrun] at hst
    rcases hst with hst | hst <;> cases hst

theorem Move.textOk (hw : WF s) (ht : TextOk img s) (hp : Program h img s cmd)
    (hm : Move h s cmd s') : TextOk img s' := by
  have hsame : ∀ b ∈ s.bpList, ∃ b' ∈ s.bpList, b.addr = b'.addr ∧ b.origCode = b'.origCode :=
    fun b hb ↦ ⟨b, hb, rfl, rfl⟩
  -- a state in which a program runs is not the first one
  have hrunning : s.state = .running → s'.state = s.state → s'.state = .nonload →
      s'.tracee = none := fun hrun hst hn ↦ by
    rw [hst, hrun] at hn
    cases hn
  rcases hm with ⟨-, hcore, -⟩ | ⟨e, hst, hcore⟩ | ⟨e, hst, hcore⟩ |
    ⟨pid, c, hst, hpid, hexec, hcore⟩ | ⟨c, hrun, hc, hcore⟩ | ⟨c, hrun, hc, hl, hcore⟩ |
    ⟨c, hrun, htext, hc, hbyte, hl, hcore⟩ | ⟨i, b, c, hrun, hb, hc, hcore⟩ |
    ⟨c, ev, fuel, hrun, hc, hev, hafter⟩ | ⟨c, hrun, hc, hafter⟩
  · have hst : s'.state = s.state := congrArg Core.state hcore
    have htr : s'.tracee = s.tracee := congrArg Core.tracee hcore
    refine ht.of_tracee (congrArg Core.elf hcore) (fun b hb ↦ hsame b ?_) ?_ ?_
    · rwa [← show s'.bpList = s.bpList from congrArg Core.bpList hcore]
    · rw [htr]
      exact ht.bytes
    · rw [hst, htr]
      exact ht.unloaded
  · -- nothing is listed and nothing runs yet
    have hnil : s'.bpList = [] := (congrArg Core.bpList hcore).trans (hw.unloaded hst)
    have hnone : s'.tracee = none := (congrArg Core.tracee hcore).trans (ht.unloaded hst)
    exact ⟨by simp [hnil], by simp [hnil], by simp [hnone], fun _ ↦ hnone⟩
  · have hnil : s'.bpList = [] := (congrArg Core.bpList hcore).trans (hw.unloaded hst)
    have hnone : s'.tracee = none := (congrArg Core.tracee hcore).trans (ht.unloaded hst)
    exact ⟨by simp [hnil], by simp [hnil], by simp [hnone], fun _ ↦ hnone⟩
  · refine ht.of_tracee (congrArg Core.elf hcore) (fun b hb ↦ hsame b ?_) ?_ fun hn ↦ ?_
    · rwa [← show s'.bpList = s.bpList from congrArg Core.bpList hcore]
    · intro c' hc' a ha
      obtain rfl := Option.some.inj (hc'.symm.trans (congrArg Core.tracee hcore))
      exact .inl (hp c' hexec a ha)
    · exact absurd ((congrArg Core.state hcore).symm.trans hn) (by simp [Core.started])
  · refine ht.of_tracee (congrArg Core.elf hcore) (fun b hb ↦ hsame b ?_) ?_
      (hrunning hrun (congrArg Core.state hcore))
    · rwa [← show s'.bpList = s.bpList from congrArg Core.bpList hcore]
    · intro c' hc'
      obtain rfl := Option.some.inj (hc'.symm.trans (congrArg Core.tracee hcore))
      exact ht.bytes c hc
  · refine ht.of_tracee (congrArg Core.elf hcore) (fun b hb ↦ hsame b ?_) ?_
      (hrunning hrun (congrArg Core.state hcore))
    · rwa [← show s'.bpList = s.bpList from congrArg Core.bpList hcore]
    · intro c' hc'
      obtain rfl := Option.some.inj (hc'.symm.trans (congrArg Core.tracee hcore))
      obtain ⟨b, hb, rfl⟩ := hl
      exact allowed_arm (ht.bytes c hc)
  · -- a new entry: its word is what is there now, and its low byte is no trap
    have hli : s'.bpList = s.bpList ++ [⟨s.bpList.length, _, loadWord c.mem _⟩] :=
      congrArg Core.bpList hcore
    have hel : s'.elf = s.elf := congrArg Core.elf hcore
    refine ⟨?_, ?_, ?_, hrunning hrun (congrArg Core.state hcore)⟩
    · intro b hb k hk
      rw [hli, List.mem_append, List.mem_singleton] at hb
      rw [hel]
      rcases hb with hb | rfl
      · exact ht.saved b hb k hk
      · rw [byteOf_loadWord _ _ hk]
        exact ht.bytes c hc _
    · intro b hb
      rw [hli, List.mem_append, List.mem_singleton] at hb
      rcases hb with hb | rfl
      · exact ht.low b hb
      · rcases ht.bytes c hc _ htext with hv | hv
        · rw [byteOf_loadWord _ _ (by omega)]
          exact ⟨by simpa using hv, hv ▸ hbyte⟩
        · exact absurd hv hbyte
    · intro c' hc'
      obtain rfl := Option.some.inj (hc'.symm.trans (congrArg Core.tracee hcore))
      rw [hel]
      exact allowed_arm (ht.bytes c hc)
  · have hli : s'.bpList = reindex (s.bpList.eraseIdx i) := congrArg Core.bpList hcore
    refine ht.of_tracee (congrArg Core.elf hcore) (fun b' hb' ↦ ?_) ?_
      (hrunning hrun (congrArg Core.state hcore))
    · rw [hli] at hb'
      obtain ⟨b'', hb'', hab⟩ := mem_reindex hb'
      exact ⟨b'', List.mem_of_mem_eraseIdx hb'', hab⟩
    · intro c' hc'
      obtain rfl := Option.some.inj (hc'.symm.trans (congrArg Core.tracee hcore))
      have hmem : ∀ b' ∈ [b], b' ∈ s.bpList := fun b' hb' ↦ by
        rw [List.mem_singleton.1 hb']
        exact List.mem_of_getElem? hb
      exact ht.allowed_restore hmem (ht.bytes c hc)
  · refine hafter.textOk ht hrun (fun sig c' hstop x hx ↦ ?_) fun c' hc' ↦
      ht.allowed_restore (fun b hb ↦ hits_subset hb) hc'
    subst hstop
    rw [show c'.mem x = (rearmed s.bpList c).mem x from
      Machine.resume_keeps hev (hp hrun c hc) hx]
    exact allowed_rearmed (ht.bytes c hc) x hx
  · refine hafter.textOk ht hrun (fun sig c' hstop x hx ↦ ?_) fun c' hc' ↦
      ht.allowed_restore (fun b hb ↦ List.mem_of_mem_filter hb) hc'
    rw [show c'.mem x = (rearmed s.bpList c).mem x from
      Machine.singleStep_keeps hstop (hp hrun c hc) hx]
    exact allowed_rearmed (ht.bytes c hc) x hx

/-- **The text stays in order**, for a program that leaves it alone. -/
theorem Does.textOk (hw : WF s) (ht : TextOk img s) (hp : Throughout h (Program h img) s cmd)
    (hd : Does h s cmd s') : WF s' ∧ TextOk img s' :=
  hd.kept hw ht hp fun hwt htt hpt hm ↦ hm.textOk hwt htt hpt

theorem session_textOk {ok : Sdb ε → Command → Prop}
    (hok : ∀ s cmd, ok s cmd → Throughout h (Program h img) s cmd) (hr : Session h ok s) :
    WF s ∧ TextOk img s := by
  refine hr.invariant (I := fun t ↦ WF t ∧ TextOk img t) ⟨wf_init, textOk_init⟩ ?_
  rintro t cmd t' ⟨hw, ht⟩ ho hd
  exact hd.textOk hw ht (hok t cmd ho)

/-- The small host starts its program from one image, and the program writes nothing. -/
theorem Tiny.program (text : List Byte) (s : Sdb Nat) (cmd : Command) :
    Program (host text) (image text).mem s cmd := by
  cases cmd with
  | start =>
    intro c hc a _
    simp only [host] at hc
    split at hc
    · rw [← Option.some.inj hc]
      rfl
    · cases hc
  | cont => exact fun _ _ _ _ _ _ ↦ keeps
  | si => exact fun _ _ _ ↦ keeps
  | _ => trivial

end Sdb
