import NctuUnix.Hw4.Text

/-!
# Stray traps

A trap in the text that belongs to no entry of `bp_list` is a *stray*.  The debugger never plants
one; but an entry saves eight bytes, some of them perhaps traps of its neighbours, and writes all
eight back later, when the neighbour may have been deleted.  `FreshWrite` says that this does not
happen: a byte that is written back is the image's or stands at a listed address.

## Main results

* `session_noStray_iff` — for a program that leaves its text alone, a session has no stray as long
  as what each command writes back is fresh, and the next command leaves none exactly when it writes
  back fresh bytes.
* `noStray_fails` — two neighbours, set from the upper one down and deleted in this order.
-/

set_option autoImplicit false

namespace Sdb

open Bytes Trap

variable {ε : Type} {h : Host ε} {s s' : Sdb ε} {c : Tracee ε} {cmd : Command} {img : Mem}
  {ev : Event Regs ε}

/-! ## What is asked for -/

/-- A byte of the text is the image's, or a trap whose address is listed. -/
def Clean (img : Mem) (e : Elf) (l : List Bp) (m : Mem) : Prop :=
  ∀ a, intext e a = true → m a = img a ∨ (m a = int3 ∧ ∃ b ∈ l, b.addr = a)

/-- There is no stray trap in a program that runs. -/
def NoStray (img : Mem) (s : Sdb ε) : Prop :=
  s.state = .running → ∀ c, s.tracee = some c → Clean img s.elf s.bpList c.mem

/-- The bytes of the text that the entries of `hs` write back are the image's, or stand at
addresses that are listed. -/
def FreshWrite (img : Mem) (s : Sdb ε) (hs : List Bp) : Prop :=
  ∀ a v, intext s.elf a = true → writes hs a = some v → v = img a ∨ ∃ b ∈ s.bpList, b.addr = a

/-- What a command writes back is fresh: the word of a deleted entry, and the words of the entries
that match where a `cont` or a `si` stops. -/
def Fresh (h : Host ε) (img : Mem) (s : Sdb ε) : Command → Prop
  | .delete id => s.state = .running →
      ∀ (i : Nat) (b : Bp), id = i → s.bpList[i]? = some b → FreshWrite img s [b]
  | .cont => ∀ c, Reports h s .cont (.stopped sigtrap c) →
      FreshWrite img s (hits s.bpList c.regs.rip)
  | .si => ∀ c, Reports h s .si (.stopped sigtrap c) →
      FreshWrite img s (s.bpList.filter fun b ↦ b.addr = c.regs.rip)
  | _ => True

/-! ## Planting and writing back

Planting makes traps at listed addresses only.  What is written back are the bytes that entries have
saved, of which each is the byte of the image or a trap (`TextOk`).
-/

/-- Planting leaves no stray. -/
theorem Clean.rearmed (hcl : Clean img s.elf s.bpList c.mem) :
    Clean img s.elf s.bpList (rearmed s.bpList c).mem := by
  intro a ha
  rw [show (Sdb.rearmed s.bpList c).mem a = armAbove s.bpList c.regs.rip c.mem a from rfl, armAbove]
  split
  · rename_i hb
    obtain ⟨b, hb, hba, -⟩ := hb
    exact .inr ⟨rfl, b, hb, hba⟩
  · exact hcl a ha

/-- **Writing back leaves no stray exactly when it is fresh.** -/
theorem TextOk.clean_restore_iff (ht : TextOk img s) {hs l : List Bp} {m : Mem}
    (hsub : ∀ b ∈ hs, b ∈ s.bpList) (hm : ∀ a, intext s.elf a = true → writes hs a = none →
      m a = img a ∨ (m a = int3 ∧ ∃ b ∈ l, b.addr = a)) :
    Clean img s.elf l (restore hs m) ↔ ∀ a v, intext s.elf a = true → writes hs a = some v →
      v = img a ∨ ∃ b ∈ l, b.addr = a := by
  rw [restore_eq]
  constructor
  · intro hcl a v ha hv
    have hva : overlay m (writes hs) a = v := by rw [overlay, hv, Option.getD_some]
    rcases hcl a ha with hi | ⟨-, hb⟩
    · exact .inl (hva ▸ hi)
    · exact .inr hb
  · intro hf a ha
    rw [overlay]
    rcases hv : writes hs a with _ | v
    · exact hm a ha hv
    · rcases hf a v ha hv with hi | hb
      · exact .inl hi
      · obtain ⟨b, hbm, k, hk, hab, rfl⟩ := mem_of_writes hv
        rcases ht.saved b (hsub b hbm) k hk (hab ▸ ha) with hi | htrap
        · exact .inl (hab ▸ hi)
        · exact .inr ⟨htrap, hb⟩

/-! ## One move

For each kind of move there is a list of entries that it writes back, empty for most of them, and
the state behind it is free of strays exactly if that list is fresh.
-/

/-- There is no trap without a process. -/
theorem NoStray.of_not_running (hst : s.state ≠ .running) : NoStray img s :=
  fun hrun ↦ absurd hrun hst

/-- A process that was clean, and had words written back after a trap. -/
theorem After.noStray_iff {undo : Tracee ε → Tracee ε} (hs : Tracee ε → List Bp)
    (ht : TextOk img s) (hrun : s.state = .running) (hafter : After undo s ev s')
    (hone : ∀ ev', Reports h s cmd ev' ↔ ev' = ev)
    (hclean : ∀ sig c, ev = .stopped sig c → Clean img s.elf s.bpList c.mem)
    (hundo : ∀ c, (undo c).mem = restore (hs c) c.mem) (hsub : ∀ c, ∀ b ∈ hs c, b ∈ s.bpList) :
    NoStray img s' ↔ ∀ c, Reports h s cmd (.stopped sigtrap c) → FreshWrite img s (hs c) := by
  obtain ⟨hl, he, -, -, -⟩ := hafter.table
  rcases hafter with ⟨hcore, -⟩ | ⟨hcore, -⟩ | @⟨sig, c, _, hsig, hcore, -⟩ | @⟨c, _, hcore, -⟩
  -- the child has ended, is lost, has stopped for another reason, or has trapped
  · refine iff_of_true (.of_not_running ?_) fun c hc ↦ ?_
    · rw [show s'.state = .loaded from congrArg Core.state hcore]
      simp
    · have := (hone _).1 hc
      cases this
  · refine iff_of_true (fun _ c hc ↦ ?_) fun c hc ↦ ?_
    · exact absurd (hc.symm.trans (congrArg Core.tracee hcore)) (by simp [Core.lost])
    · have := (hone _).1 hc
      cases this
  · refine iff_of_true (fun _ c' hc' ↦ ?_) fun c' hc' ↦ ?_
    · obtain rfl := Option.some.inj (hc'.symm.trans (congrArg Core.tracee hcore))
      rw [hl, he]
      exact hclean sig _ rfl
    · have hev := (hone _).1 hc'
      rw [Event.stopped.injEq] at hev
      exact absurd hev.1.symm hsig
  · have htr : s'.tracee = some (undo c) := congrArg Core.tracee hcore
    have hst : s'.state = .running := (congrArg Core.state hcore).trans hrun
    have hcl := ht.clean_restore_iff (hsub c) fun a ha _ ↦ hclean sigtrap c rfl a ha
    rw [← hundo c] at hcl
    constructor
    · intro hns c' hc'
      obtain rfl : c' = c := by
        have hev := (hone _).1 hc'
        rw [Event.stopped.injEq] at hev
        exact hev.2
      have hcln := hns hst _ htr
      rw [hl, he] at hcln
      exact hcl.1 hcln
    · intro hf _ c' hc'
      obtain rfl := Option.some.inj (hc'.symm.trans htr)
      rw [hl, he]
      exact hcl.2 (hf c ((hone _).2 rfl))

/-- A move that only plants listed traps, or changes no memory. -/
theorem NoStray.of_mem (hl : ∀ b ∈ s.bpList, ∃ b' ∈ s'.bpList, b'.addr = b.addr)
    (he : s'.elf = s.elf) (hns : Clean img s.elf s.bpList c.mem)
    (htr : ∀ c', s'.tracee = some c' → ∀ a, c'.mem a = c.mem a ∨
      (c'.mem a = int3 ∧ ∃ b ∈ s'.bpList, b.addr = a)) : NoStray img s' := by
  intro _ c' hc' a ha
  rcases htr c' hc' a with hsame | hnew
  · rw [hsame]
    rw [he] at ha
    rcases hns a ha with hi | ⟨hint, b, hb, rfl⟩
    · exact .inl hi
    · exact .inr ⟨hint, hl b hb⟩
  · exact .inr hnew

theorem fresh_of_idle (hi : s.Idle cmd) : Fresh h img s cmd := by
  cases cmd with
  | cont => exact fun c hc ↦ absurd hc.cont_running hi
  | si => exact fun c hc ↦ absurd hc.si_running hi
  | delete id =>
    rintro hrun i b rfl hb
    obtain ⟨hlt, -⟩ := List.getElem?_eq_some_iff.1 hb
    rcases hi with hi | hi
    · exact absurd hrun hi
    · exact absurd ⟨by omega, by omega⟩ hi
  | _ => trivial

/-- Deleting an entry keeps the other addresses listed. -/
theorem exists_addr_erase {l : List Bp} {i : Nat} {b : Bp} (hb : l[i]? = some b) {a : Addr}
    (hne : a ≠ b.addr) :
    (∃ b' ∈ reindex (l.eraseIdx i), b'.addr = a) ↔ ∃ b' ∈ l, b'.addr = a := by
  have haddr : ∀ l' : List Bp, (∃ b' ∈ l', b'.addr = a) ↔ a ∈ l'.map Bp.addr := fun l' ↦ by
    rw [List.mem_map]
  rw [haddr, reindex_addr, ← haddr]
  constructor
  · rintro ⟨b', hb', rfl⟩
    exact ⟨b', List.mem_of_mem_eraseIdx hb', rfl⟩
  · rintro ⟨b', hb', rfl⟩
    obtain ⟨j, hj⟩ := List.getElem?_of_mem hb'
    refine ⟨b', List.mem_eraseIdx_iff_getElem?.2 ⟨j, ?_, hj⟩, rfl⟩
    rintro rfl
    rw [hb] at hj
    exact hne (by rw [Option.some.inj hj])

/-- **One move leaves no stray exactly when what it writes back is fresh.** -/
theorem Move.noStray_iff (ht : TextOk img s) (hns : NoStray img s)
    (hp : Program h img s cmd) (hm : Move h s cmd s') : NoStray img s' ↔ Fresh h img s cmd := by
  have hsame : ∀ b ∈ s.bpList, ∃ b' ∈ s.bpList, b'.addr = b.addr := fun b hb ↦ ⟨b, hb, rfl⟩
  rcases hm with ⟨hidle, hcore, -⟩ | ⟨e, hst, hcore⟩ | ⟨e, hst, hcore⟩ |
    ⟨pid, c, hst, hpid, hexec, hcore⟩ | ⟨c, hrun, hc, hcore⟩ | @⟨a, _, c, hrun, hc, hl, hcore⟩ |
    @⟨a, _, c, hrun, htext, hc, hbyte, hl, hcore⟩ | ⟨i, b, c, hrun, hb, hc, hcore⟩ |
    ⟨c, ev, fuel, hrun, hc, hev, hafter⟩ | ⟨c, hrun, hc, hafter⟩
  · refine iff_of_true (fun hrun c hc ↦ ?_) (fresh_of_idle hidle)
    rw [show s'.elf = s.elf from congrArg Core.elf hcore,
      show s'.bpList = s.bpList from congrArg Core.bpList hcore]
    exact hns ((congrArg Core.state hcore).symm.trans hrun) c
      ((congrArg Core.tracee hcore).symm.trans hc)
  · refine iff_of_true (fun _ c hc ↦ ?_) trivial
    have hnone : s'.tracee = none := (congrArg Core.tracee hcore).trans (ht.unloaded hst)
    exact absurd (hc.symm.trans hnone) (by simp)
  · refine iff_of_true (fun _ c hc ↦ ?_) trivial
    have hnone : s'.tracee = none := (congrArg Core.tracee hcore).trans (ht.unloaded hst)
    exact absurd (hc.symm.trans hnone) (by simp)
  · refine iff_of_true (fun _ c' hc' a ha ↦ .inl ?_) trivial
    obtain rfl := Option.some.inj (hc'.symm.trans (congrArg Core.tracee hcore))
    rw [show s'.elf = s.elf from congrArg Core.elf hcore] at ha
    exact hp _ hexec a ha
  · refine iff_of_true (.of_mem ?_ (congrArg Core.elf hcore) (hns hrun c hc) ?_) trivial
    · rw [show s'.bpList = s.bpList from congrArg Core.bpList hcore]
      exact hsame
    · intro c' hc' a
      obtain rfl := Option.some.inj (hc'.symm.trans (congrArg Core.tracee hcore))
      exact .inl rfl
  · have hli : s'.bpList = s.bpList := congrArg Core.bpList hcore
    refine iff_of_true (.of_mem (hli ▸ hsame) (congrArg Core.elf hcore) (hns hrun c hc) ?_) trivial
    intro c' hc' x
    obtain rfl := Option.some.inj (hc'.symm.trans (congrArg Core.tracee hcore))
    by_cases hx : x = a
    · rw [hx, hli]
      exact .inr ⟨arm_mem_self a c, hl⟩
    · exact .inl (arm_mem_of_ne hx c)
  · have hli : s'.bpList = s.bpList ++ [⟨s.bpList.length, a, loadWord c.mem a⟩] :=
      congrArg Core.bpList hcore
    refine iff_of_true (.of_mem ?_ (congrArg Core.elf hcore) (hns hrun c hc) ?_) trivial
    · intro b hb
      exact ⟨b, by rw [hli]; exact List.mem_append_left _ hb, rfl⟩
    · intro c' hc' x
      obtain rfl := Option.some.inj (hc'.symm.trans (congrArg Core.tracee hcore))
      by_cases hx : x = a
      · rw [hx, hli]
        exact .inr ⟨arm_mem_self a c, _, List.mem_append_right _ List.mem_cons_self, rfl⟩
      · exact .inl (arm_mem_of_ne hx c)
  · have hli : s'.bpList = reindex (s.bpList.eraseIdx i) := congrArg Core.bpList hcore
    have he : s'.elf = s.elf := congrArg Core.elf hcore
    have htr : s'.tracee = some (writeBack b c) := congrArg Core.tracee hcore
    have hst : s'.state = .running := (congrArg Core.state hcore).trans hrun
    have hself : writes [b] b.addr = some (byteOf b.origCode 0) := by simp [writes]
    -- the deleted address itself gets the image's byte back
    have hcl : Clean img s.elf s'.bpList (restore [b] c.mem) ↔ FreshWrite img s [b] := by
      rw [ht.clean_restore_iff (fun b' hb' ↦ by
        rw [List.mem_singleton.1 hb']
        exact List.mem_of_getElem? hb) fun a ha hno ↦ ?_]
      · refine forall_congr' fun a ↦ forall_congr' fun v ↦ forall_congr' fun ha ↦
          forall_congr' fun hv ↦ ?_
        by_cases hab : a = b.addr
        · have hlow : v = img a := by
            rw [hab, hself] at hv
            rw [hab, ← (ht.low b (List.mem_of_getElem? hb)).1, Option.some.inj hv]
          exact iff_of_true (.inl hlow) (.inl hlow)
        · rw [hli, exists_addr_erase hb hab]
      · have hab : a ≠ b.addr := by
          rintro rfl
          rw [hself] at hno
          cases hno
        rw [hli, exists_addr_erase hb hab]
        exact hns hrun c hc a ha
    constructor
    · rintro hns' - j b' hij hb'
      obtain rfl : i = j := by exact_mod_cast hij
      obtain rfl := Option.some.inj (hb.symm.trans hb')
      have := hns' hst _ htr
      rw [he] at this
      exact hcl.1 this
    · intro hf _ c' hc'
      obtain rfl := Option.some.inj (hc'.symm.trans htr)
      rw [he]
      exact hcl.2 (hf hrun i b rfl hb)
  · refine hafter.noStray_iff (fun c ↦ hits s.bpList c.regs.rip) ht hrun (fun ev' ↦ ?_) ?_
      (fun _ ↦ rfl) fun _ _ hb ↦ hits_subset hb
    · exact ⟨Reports.cont_unique (.cont hrun hc hev), fun he ↦ he ▸ .cont hrun hc hev⟩
    · rintro sig c' rfl a ha
      rw [show c'.mem a = (Sdb.rearmed s.bpList c).mem a from
        Machine.resume_keeps hev (hp hrun c hc) ha]
      exact (hns hrun c hc).rearmed a ha
  · refine hafter.noStray_iff (fun c ↦ s.bpList.filter fun b ↦ b.addr = c.regs.rip) ht hrun
      (fun ev' ↦ ?_) ?_ (fun _ ↦ rfl) fun _ _ hb ↦ List.mem_of_mem_filter hb
    · exact ⟨Reports.si_unique (.si hrun hc rfl), fun he ↦ he ▸ .si hrun hc rfl⟩
    · intro sig c' hev a ha
      rw [show c'.mem a = (Sdb.rearmed s.bpList c).mem a from
        Machine.singleStep_keeps hev (hp hrun c hc) ha]
      exact (hns hrun c hc).rearmed a ha

/-! ## Commands and sessions

`run` is two moves, so what is asked for a command is asked of each of its moves (`Throughout`).
-/

theorem Does.noStray_iff (hw : WF s) (ht : TextOk img s) (hns : NoStray img s)
    (hp : Throughout h (Program h img) s cmd) (hd : Does h s cmd s') :
    NoStray img s' ↔ Throughout h (Fresh h img) s cmd := by
  by_cases hr : cmd = .run
  · subst hr
    rw [Throughout] at hp ⊢
    rcases hd.run_cases with ⟨hst, hc⟩ | ⟨hst, s₁, hs, hc⟩ | ⟨hst, hcore, hsay⟩
    · rw [hst] at hp ⊢
      exact (hc.move hw (by simp)).noStray_iff ht hns hp
    · rw [hst] at hp ⊢
      have hm := hs.move hw (by simp)
      have hns₁ : NoStray img s₁ := (hm.noStray_iff ht hns hp.1).2 trivial
      rw [(hc.move (hm.wf hw) (by simp)).noStray_iff (hm.textOk hw ht hp.1) hns₁
        (hp.2 s₁ hs)]
      constructor
      · intro hf
        exact ⟨trivial, fun s₂ hs₂ ↦ does_start_unique hs hs₂ ▸ hf⟩
      · intro hf
        exact hf.2 s₁ hs
    · rw [hst] at hp ⊢
      exact (Move.same trivial hcore hsay : Move h s .nothing s').noStray_iff ht hns hp
  · rw [throughout_of_ne hr] at hp ⊢
    exact (hd.move hw hr).noStray_iff ht hns hp

/-- **No stray traps.**  In a session with a program that leaves its text alone, in which every
command has written back fresh bytes only, there is no stray; and the next command leaves none
exactly when it does the same. -/
theorem session_noStray_iff
    (hr : Session h (fun s cmd ↦ Throughout h (Program h img) s cmd ∧
      Throughout h (Fresh h img) s cmd) s) :
    NoStray img s ∧ ∀ cmd s', Throughout h (Program h img) s cmd → Does h s cmd s' →
      (NoStray img s' ↔ Throughout h (Fresh h img) s cmd) := by
  have hall : (WF s ∧ TextOk img s) ∧ NoStray img s := by
    refine hr.invariant (I := fun t ↦ (WF t ∧ TextOk img t) ∧ NoStray img t)
      ⟨⟨wf_init, textOk_init⟩, .of_not_running (by simp [init])⟩ ?_
    rintro t cmd t' ⟨⟨hw, ht⟩, hns⟩ ⟨hp, hf⟩ hd
    exact ⟨hd.textOk hw ht hp, (hd.noStray_iff hw ht hns hp).2 hf⟩
  exact ⟨hall.2, fun cmd s' hp hd ↦ hd.noStray_iff hall.1.1 hall.1.2 hall.2 hp⟩

/-- Two neighbours, the lower one set first: its word is the image's and can be written back. -/
theorem session_noStray_iff_neighbours : ∃ s s', s.bpList.length = 2 ∧
    Does (Tiny.host [0x90, 0x90]) s (.delete 0) s' ∧
      NoStray (Tiny.image [0x90, 0x90]).mem s' := by
  obtain ⟨s, hr, hp⟩ := script_reaches (Tiny.host [0x90, 0x90])
    (fun cmd ↦ cmd ≠ .run ∧ ∀ s, Fresh (Tiny.host [0x90, 0x90]) (Tiny.image [0x90, 0x90]).mem s cmd)
    1 [.load "a.out", .start, .break Tiny.textAddr, .break (Tiny.textAddr + 1)]
    (fun s ↦ s.bpList.length = 2 ∧ s.bpList[0]?.all (fun b ↦ (List.range 8).all fun k ↦
        byteOf b.origCode k = (Tiny.image [0x90, 0x90]).mem (b.addr + BitVec.ofNat 64 k)) ∧
      (del (Tiny.host [0x90, 0x90]) 0 s).isOk)
    (by simp [Fresh]) (by decide +kernel)
  obtain ⟨hlen, hbytes, hok⟩ := of_decide_eq_true hp
  rcases hd : del (Tiny.host [0x90, 0x90]) 0 s with e | s'
  · rw [hd] at hok
    cases hok
  have hdoes : Does (Tiny.host [0x90, 0x90]) s (.delete 0) s' := ⟨1, congrArg some hd⟩
  have hprog : ∀ (s : Sdb Nat) (cmd : Command), Throughout (Tiny.host [0x90, 0x90])
      (Program (Tiny.host [0x90, 0x90]) (Tiny.image [0x90, 0x90]).mem) s cmd :=
    throughout_of_forall (Tiny.program _)
  refine ⟨s, s', hlen, hdoes, ((session_noStray_iff (hr.mono fun t cmd ho ↦
    ⟨hprog t cmd, ?_⟩)).2 _ s' (hprog s _) hdoes).2 ?_⟩
  · exact (throughout_of_ne ho.1).2 (ho.2 t)
  · rintro - i b hi hb a v - hv
    obtain rfl : i = 0 := by exact_mod_cast hi.symm
    rw [hb, Option.all_some, List.all_eq_true] at hbytes
    obtain ⟨b', hb', k, hk, rfl, rfl⟩ := mem_of_writes hv
    obtain rfl := List.mem_singleton.1 hb'
    exact .inl (of_decide_eq_true (hbytes k (List.mem_range.2 hk)))

/-- **A stray.**  The upper of two neighbours is set first, so the lower one saves its trap; both
are deleted in the order they were set.  The list is empty, and the trap is back. -/
theorem noStray_fails : ∃ s c,
    Session (Tiny.host [0x90, 0x90]) (Throughout (Tiny.host [0x90, 0x90])
      (Program (Tiny.host [0x90, 0x90]) (Tiny.image [0x90, 0x90]).mem)) s ∧
    s.state = .running ∧ s.tracee = some c ∧ s.bpList = [] ∧
    intext s.elf (Tiny.textAddr + 1) = true ∧ c.mem (Tiny.textAddr + 1) = int3 ∧
    ¬ NoStray (Tiny.image [0x90, 0x90]).mem s := by
  obtain ⟨s, hr, hp⟩ := script_reaches (Tiny.host [0x90, 0x90]) (fun _ ↦ True) 1
    [.load "a.out", .start, .break (Tiny.textAddr + 1), .break Tiny.textAddr, .delete 0, .delete 0]
    (fun s ↦ s.state = .running ∧ s.bpList = [] ∧ intext s.elf (Tiny.textAddr + 1) = true ∧
      s.tracee.any fun c ↦ c.mem (Tiny.textAddr + 1) = int3)
    (fun _ _ ↦ trivial) (by decide +kernel)
  obtain ⟨hrun, hnil, htext, hany⟩ := of_decide_eq_true hp
  rcases hc : s.tracee with _ | c
  · rw [hc] at hany
    cases hany
  rw [hc, Option.any_some] at hany
  have hint : c.mem (Tiny.textAddr + 1) = int3 := of_decide_eq_true hany
  refine ⟨s, c, hr.mono fun t cmd _ ↦ throughout_of_forall (Tiny.program _) t cmd, hrun, hc, hnil,
    htext, hint, fun hns ↦ ?_⟩
  rcases hns hrun c hc _ htext with hi | ⟨-, b, hb, -⟩
  · rw [hint] at hi
    exact absurd hi (by decide +kernel)
  · rw [hnil] at hb
    cases hb

end Sdb
