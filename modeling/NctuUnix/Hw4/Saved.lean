import NctuUnix.Hw4.Stray

/-!
# Where a saved word comes from

The word that an entry of `bp_list` keeps is written back long after it was read, perhaps in another
process.  A session has set the entry at some moment, and has listed it ever since: `SetAt` names
that moment by the tracee as it was.

## Main results

* `Does.entries` — an entry is one there was before, or `break` has just read its word.
* `exists_setAt` — every entry has been set at some moment of the session.
* `SetAt.origCode` — its word is the one that was in memory then.
* `session_distant` — break points that are far from each other keep words of the image.
-/

set_option autoImplicit false

namespace Sdb

open Bytes Trap

variable {ε : Type} {h : Host ε} {s s' : Sdb ε} {c c₀ : Tracee ε} {cmd : Command} {a : Addr}
  {b : Bp} {img : Mem} {ok : Sdb ε → Command → Prop}

/-! ## One command -/

/-- The entry `b` is one of `s`, but for its id. -/
def Carried (s : Sdb ε) (b : Bp) : Prop :=
  ∃ b' ∈ s.bpList, b'.addr = b.addr ∧ b'.origCode = b.origCode

/-- The entry `b` is set by the command, which is issued in `s`. -/
def SetBy (s : Sdb ε) (cmd : Command) (b : Bp) : Prop :=
  cmd = .break b.addr ∧ (∀ b' ∈ s.bpList, b'.addr ≠ b.addr) ∧
    ∃ c, s.tracee = some c ∧ b.origCode = loadWord c.mem b.addr

theorem carried_of_mem (hl : s'.bpList = s.bpList) (hb : b ∈ s'.bpList) : Carried s b :=
  ⟨b, hl ▸ hb, rfl, rfl⟩

theorem Move.entries (hm : Move h s cmd s') (hb : b ∈ s'.bpList) :
    Carried s b ∨ SetBy s cmd b := by
  rcases hm with ⟨-, hcore, -⟩ | ⟨e, -, hcore⟩ | ⟨e, -, hcore⟩ | ⟨pid, c, -, -, -, hcore⟩ |
    ⟨c, -, -, hcore⟩ | ⟨c, -, -, -, hcore⟩ | ⟨c, -, -, hc, -, hl, hcore⟩ |
    ⟨i, b', c, -, -, -, hcore⟩ | ⟨c, ev, fuel, -, -, -, hafter⟩ | ⟨c, -, -, hafter⟩
  · exact .inl (carried_of_mem (congrArg Core.bpList hcore) hb)
  · exact .inl (carried_of_mem (congrArg Core.bpList hcore) hb)
  · exact .inl (carried_of_mem (congrArg Core.bpList hcore) hb)
  · exact .inl (carried_of_mem (congrArg Core.bpList hcore) hb)
  · exact .inl (carried_of_mem (congrArg Core.bpList hcore) hb)
  · exact .inl (carried_of_mem (congrArg Core.bpList hcore) hb)
  · rw [show s'.bpList = s.bpList ++ [⟨s.bpList.length, _, loadWord c.mem _⟩] from
      congrArg Core.bpList hcore, List.mem_append, List.mem_singleton] at hb
    rcases hb with hb | rfl
    · exact .inl (carried_of_mem rfl hb)
    · exact .inr ⟨rfl, hl, c, hc, rfl⟩
  · rw [show s'.bpList = reindex (s.bpList.eraseIdx i) from congrArg Core.bpList hcore] at hb
    obtain ⟨b'', hb'', ha, ho⟩ := mem_reindex hb
    exact .inl ⟨b'', List.mem_of_mem_eraseIdx hb'', ha.symm, ho.symm⟩
  · exact .inl (carried_of_mem hafter.table.1 hb)
  · exact .inl (carried_of_mem hafter.table.1 hb)

/-- **Where an entry comes from.** -/
theorem Does.entries (hw : WF s) (hd : Does h s cmd s') (hb : b ∈ s'.bpList) :
    Carried s b ∨ SetBy s cmd b := by
  by_cases hr : cmd = .run
  · subst hr
    -- neither `start` nor `cont` sets anything
    have hnone : ∀ {t t' : Sdb ε} {cmd : Command} {b : Bp}, WF t → Does h t cmd t' →
        cmd = .start ∨ cmd = .cont → b ∈ t'.bpList → Carried t b := by
      rintro t t' cmd b hwt hdt hcmd hbt
      rcases (hdt.move hwt (by rcases hcmd with rfl | rfl <;> simp)).entries hbt with hold | hnew
      · exact hold
      · rcases hcmd with rfl | rfl <;> cases hnew.1
    rcases hd.run_cases with ⟨-, hc⟩ | ⟨-, s₁, hs, hc⟩ | ⟨-, hcore, -⟩
    · exact .inl (hnone hw hc (.inr rfl) hb)
    · obtain ⟨b₁, hb₁, ha₁, ho₁⟩ := hnone (hs.wf hw) hc (.inr rfl) hb
      obtain ⟨b₀, hb₀, ha₀, ho₀⟩ := hnone hw hs (.inl rfl) hb₁
      exact .inl ⟨b₀, hb₀, ha₀.trans ha₁, ho₀.trans ho₁⟩
    · exact .inl (carried_of_mem (congrArg Core.bpList hcore) hb)
  · exact (hd.move hw hr).entries hb

/-! ## Its history -/

/-- In a session whose commands are all `ok`, the break point at `a` was set when the tracee was
`c₀`, and it has been listed ever since. -/
inductive SetAt (h : Host ε) (ok : Sdb ε → Command → Prop) (a : Addr) (c₀ : Tracee ε) :
    Sdb ε → Prop
  | set {s s' : Sdb ε} (hr : Session h ok s) (hok : ok s (.break a)) (hc : s.tracee = some c₀)
      (hno : ∀ b ∈ s.bpList, b.addr ≠ a) (hd : Does h s (.break a) s')
      (hl : ∃ b ∈ s'.bpList, b.addr = a) : SetAt h ok a c₀ s'
  | keep {s s' : Sdb ε} {cmd : Command} (hs : SetAt h ok a c₀ s) (hok : ok s cmd)
      (hd : Does h s cmd s') (hl : ∃ b ∈ s'.bpList, b.addr = a) : SetAt h ok a c₀ s'

theorem SetAt.session (hs : SetAt h ok a c₀ s) : Session h ok s := by
  induction hs with
  | set hr hok _ _ hd _ => exact hr.snoc hok hd
  | keep _ hok hd _ ih => exact ih.snoc hok hd

theorem SetAt.wf (hs : SetAt h ok a c₀ s) : WF s :=
  reachable_wf (hs.session.mono fun _ _ _ ↦ trivial)

theorem SetAt.listed (hs : SetAt h ok a c₀ s) : ∃ b ∈ s.bpList, b.addr = a := by
  rcases hs with ⟨-, -, -, -, -, hl⟩ | ⟨-, -, -, hl⟩ <;> exact hl

/-- **The saved word is the one that was in memory** when the break point was set. -/
theorem SetAt.origCode (hs : SetAt h ok a c₀ s) (hb : b ∈ s.bpList) (ha : b.addr = a) :
    b.origCode = loadWord c₀.mem a := by
  induction hs generalizing b with
  | set hr _ hc hno hd _ =>
    have hw := reachable_wf (hr.mono fun _ _ _ ↦ trivial)
    rcases hd.entries hw hb with ⟨b', hb', hab, -⟩ | ⟨-, -, c, hc', ho⟩
    · exact absurd (hab.trans ha) (hno b' hb')
    · rw [ho, ha, Option.some.inj (hc.symm.trans hc')]
  | keep hs _ hd _ ih =>
    rcases hd.entries hs.wf hb with ⟨b', hb', hab, ho⟩ | ⟨-, hno, -⟩
    · rw [← ho, ih hb' (hab.trans ha)]
    · obtain ⟨b', hb', hab⟩ := hs.listed
      exact absurd (hab.trans ha.symm) (hno b' hb')

/-- **Every entry has been set** at some moment of the session. -/
theorem exists_setAt (hr : Session h ok s) (hb : b ∈ s.bpList) : ∃ c₀, SetAt h ok b.addr c₀ s := by
  induction hr generalizing b with
  | nil => simp [init] at hb
  | @snoc t t' cmd hrt hok hd ih =>
    have hw : WF t := reachable_wf (Transition.Run.mono (fun _ _ _ ↦ trivial) hrt)
    rcases hd.entries hw hb with ⟨b', hb', hab, -⟩ | ⟨hcmd, hno, c, hc, -⟩
    · obtain ⟨c₀, hs⟩ := ih hb'
      exact ⟨c₀, (hab ▸ hs).keep hok hd ⟨b, hb, rfl⟩⟩
    · subst hcmd
      exact ⟨c, .set hrt hok hc hno hd ⟨b, hb, rfl⟩⟩

/-! ## Break points that are far from each other -/

/-- No saved word reaches another entry. -/
def Spaced (l : List Bp) : Prop :=
  ∀ b ∈ l, ∀ b' ∈ l, ∀ k, 1 ≤ k → k < 8 → b'.addr ≠ b.addr + BitVec.ofNat 64 k

/-- The saved words are words of the image, as far as they lie in the text. -/
def PureWords (img : Mem) (s : Sdb ε) : Prop :=
  ∀ b ∈ s.bpList, ∀ k, k < 8 → InText s.elf (b.addr + BitVec.ofNat 64 k) →
    byteOf b.origCode k = img (b.addr + BitVec.ofNat 64 k)

theorem PureWords.freshWrite (hp : PureWords img s) {hs : List Bp}
    (hsub : ∀ b ∈ hs, b ∈ s.bpList) : FreshWrite img s hs := by
  intro x v hx hv
  obtain ⟨b, hb, k, hk, rfl, rfl⟩ := mem_of_writes hv
  exact .inl (hp b (hsub b hb) k hk hx)

theorem PureWords.fresh (hp : PureWords img s) : Fresh h img s cmd := by
  cases cmd with
  | delete id =>
    intro _ i b _ hb
    exact hp.freshWrite fun b' hb' ↦ List.mem_singleton.1 hb' ▸ List.mem_of_getElem? hb
  | cont => exact fun c _ ↦ hp.freshWrite fun b hb ↦ hits_subset hb
  | si => exact fun c _ ↦ hp.freshWrite fun b hb ↦ List.mem_of_mem_filter hb
  | _ => trivial

/-- The text section is read once, when nothing is listed yet. -/
theorem Move.elf_eq (hw : WF s) (hm : Move h s cmd s') (hl : s.bpList ≠ []) : s'.elf = s.elf := by
  have hloaded : s.state ≠ .nonload := fun hst ↦ hl (hw.unloaded hst)
  rcases hm with ⟨-, hcore, -⟩ | ⟨e, hst, -⟩ | ⟨e, hst, -⟩ | ⟨pid, c, -, -, -, hcore⟩ |
    ⟨c, -, -, hcore⟩ | ⟨c, -, -, -, hcore⟩ | ⟨c, -, -, -, -, -, hcore⟩ |
    ⟨i, b', c, -, -, -, hcore⟩ | ⟨c, ev, fuel, -, -, -, hafter⟩ | ⟨c, -, -, hafter⟩
  · exact congrArg Core.elf hcore
  · exact absurd hst hloaded
  · exact absurd hst hloaded
  · exact congrArg Core.elf hcore
  · exact congrArg Core.elf hcore
  · exact congrArg Core.elf hcore
  · exact congrArg Core.elf hcore
  · exact congrArg Core.elf hcore
  · exact hafter.table.2.1
  · exact hafter.table.2.1

/-- **One move**, after which the entries are far from each other, leaves words of the image. -/
theorem Move.pureWords (hw : WF s) (ht' : TextOk img s') (hns : NoStray img s)
    (hp : PureWords img s) (hm : Move h s cmd s') (hs : Spaced s'.bpList) : PureWords img s' := by
  intro b hb k hk hx
  rcases hm.entries hb with ⟨b', hb', ha, ho⟩ | ⟨hcmd, hno, c, hc, ho⟩
  · rw [hm.elf_eq hw (List.ne_nil_of_mem hb')] at hx
    rw [← ha] at hx ⊢
    rw [← ho]
    exact hp b' hb' k hk hx
  · -- its own byte is no trap, and the traps of the others are too far away
    rcases Nat.eq_zero_or_pos k with rfl | hpos
    · simpa using (ht'.low b hb).1
    subst hcmd
    rcases hm with ⟨-, hcore, -⟩ | - | - | - | - | ⟨c', -, -, ⟨b', hb', ha⟩, -⟩ |
      ⟨c', hrun, -, hc', -, -, hcore⟩ | - | - | -
    · rw [show s'.bpList = s.bpList from congrArg Core.bpList hcore] at hb
      exact absurd rfl (hno b hb)
    · exact absurd ha (hno b' hb')
    obtain rfl := Option.some.inj (hc.symm.trans hc')
    have hel : s'.elf = s.elf := congrArg Core.elf hcore
    have hli : s'.bpList = s.bpList ++ [⟨s.bpList.length, b.addr, loadWord c.mem b.addr⟩] :=
      congrArg Core.bpList hcore
    rw [hel] at hx
    rw [ho, byteOf_loadWord _ _ hk]
    rcases hns hrun c hc _ hx with himg | ⟨-, b', hb', hba⟩
    · exact himg
    · refine absurd hba (hs b hb b' ?_ k hpos hk)
      rw [hli]
      exact List.mem_append_left _ hb'

/-- The program leaves its text alone, and the break points are far from each other. -/
def Distant (h : Host ε) (img : Mem) (s : Sdb ε) (cmd : Command) : Prop :=
  Program h img s cmd ∧ Spaced s.bpList

/-- **A session with distant break points**: the text is the image's but for the traps that are
listed, and so are the saved words. -/
theorem session_distant (hr : Session h (Throughout h (Distant h img)) s) (hs : Spaced s.bpList) :
    WF s ∧ TextOk img s ∧ NoStray img s ∧ PureWords img s := by
  have hall : WF s ∧ TextOk img s ∧ (Spaced s.bpList → NoStray img s ∧ PureWords img s) := by
    refine hr.invariant (I := fun t ↦ WF t ∧ TextOk img t ∧
      (Spaced t.bpList → NoStray img t ∧ PureWords img t)) ⟨wf_init, textOk_init, fun _ ↦
        ⟨.of_not_running (by simp [init]), fun b hb ↦ absurd hb (by simp [init])⟩⟩ ?_
    rintro t cmd t' ⟨hw, ht, hp⟩ hok hd
    refine hd.kept (I := fun t ↦ TextOk img t ∧
      (Spaced t.bpList → NoStray img t ∧ PureWords img t)) hw ⟨ht, hp⟩ hok ?_
    rintro u u' cmd hwu ⟨htu, hpu⟩ ⟨hprog, hsp⟩ hm
    obtain ⟨hns, hpure⟩ := hpu hsp
    have htu' := hm.textOk hwu htu hprog
    exact ⟨htu', fun hsp' ↦ ⟨(hm.noStray_iff htu hns hprog).2 hpure.fresh,
      hm.pureWords hwu htu' hns hpure hsp'⟩⟩
  exact ⟨hall.1, hall.2.1, hall.2.2 hs⟩

end Sdb
