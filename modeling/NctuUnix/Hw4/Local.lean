import NctuUnix.Hw4.Resume
import NctuUnix.Hw4.Saved

/-!
# What a break point changes

Setting a break point should change one byte of the tracee, and so should taking it away.  The word
that is written back has eight bytes, and they are as old as the break point; and whether an address
is set already is told by the byte in memory.

## Main results

* `restore_local_iff` — writing back the word of an entry changes the byte at its address only,
  exactly when the seven bytes above are what they were when the break point was set; in a program
  that leaves its text alone, exactly when the traps among them are the ones there were then.
* `Restores.local_of_distant` — with distant break points nothing goes wrong.
* `restore_local_fails` — two neighbours, the lower one set first and deleted first.
* `break_iff` — `break` takes effect exactly at an address that is listed or holds no trap, where
  the tracee can be accessed.
* `break_fails` — an image with a trap of its own.
-/

set_option autoImplicit false

namespace Sdb

open Bytes Trap

variable {ε : Type} {h : Host ε} {s s' s₁ : Sdb ε} {c : Tracee ε} {cmd : Command} {a : Addr}
  {b : Bp} {l : List Bp} {m m' img : Mem}

/-! ## Writing a word back -/

/-- Inside the `si` the tracee stops with `SIGTRAP` and is then `c`. -/
def TrapsInSi (h : Host ε) (s : Sdb ε) (c : Tracee ε) : Prop :=
  s.state = .running ∧ ∃ s₁ c₁, chkbp h s = .ok s₁ ∧ s₁.tracee = some c₁ ∧
    h.singleStep c₁ = .stopped sigtrap c

/-- A command that is issued in `s` writes the saved word of `b` over the memory `m`, which makes it
`m'`. -/
inductive Restores (h : Host ε) (s : Sdb ε) : Command → Bp → Mem → Mem → Prop
  | delete {i : Nat} {b : Bp} {c c' : Tracee ε} {s' : Sdb ε} (hrun : s.state = .running)
      (hb : s.bpList[i]? = some b) (hd : Does h s (.delete i) s') (hc : s.tracee = some c)
      (hc' : s'.tracee = some c') : Restores h s (.delete i) b c.mem c'.mem
  /-- One of the entries that match where a `cont` stops. -/
  | cont {hs rest : List Bp} {b : Bp} {c c₁ c₂ : Tracee ε} {t t' : Sdb ε}
      (ht : TrapsInCont h s c) (hh : hits s.bpList c.regs.rip = hs ++ b :: rest)
      (hv : visit h hs c.regs { s with tracee := some c } = .ok t)
      (hv' : visit h (hs ++ [b]) c.regs { s with tracee := some c } = .ok t')
      (hc₁ : t.tracee = some c₁) (hc₂ : t'.tracee = some c₂) : Restores h s .cont b c₁.mem c₂.mem
  /-- The entry that matches where a `si` stops. -/
  | si {b : Bp} {c c' : Tracee ε} {s' : Sdb ε} (ht : TrapsInSi h s c) (hb : b ∈ s.bpList)
      (hrip : b.addr = c.regs.rip) (hd : Does h s .si s') (hc' : s'.tracee = some c') :
      Restores h s .si b c.mem c'.mem

/-- The memory the loop leaves. -/
theorem visit_mem {regs : Regs} (hc : s.tracee = some c) (hs : visit h l regs s = .ok s') :
    ∃ c', s'.tracee = some c' ∧ c'.mem = restore l c.mem := by
  induction l generalizing regs s c with
  | nil =>
    cases hs
    exact ⟨c, hc, rfl⟩
  | cons b bs ih =>
    obtain ⟨s₁, s₂, hh, hr, hs⟩ := visit_cons hs
    obtain ⟨hcore, -⟩ := hh.spec hc
    obtain rfl := setRegs_spec (congrArg Core.tracee hcore) hr
    obtain ⟨c', hc', hmem⟩ := ih rfl hs
    exact ⟨c', hc', hmem⟩

/-- One entry at most is at an address. -/
theorem filter_addr (hn : (l.map Bp.addr).Nodup) (hb : b ∈ l) :
    l.filter (fun b' ↦ b'.addr = b.addr) = [b] := by
  obtain ⟨l₁, l₂, rfl⟩ := List.append_of_mem hb
  rw [List.map_append, List.map_cons, List.nodup_append] at hn
  obtain ⟨-, hn₂, hdisj⟩ := hn
  have h₁ : l₁.filter (fun b' ↦ b'.addr = b.addr) = [] := by
    refine List.filter_eq_nil_iff.2 fun b' hb' he ↦ ?_
    exact hdisj _ (List.mem_map_of_mem hb') _ List.mem_cons_self (of_decide_eq_true he)
  have h₂ : l₂.filter (fun b' ↦ b'.addr = b.addr) = [] := by
    refine List.filter_eq_nil_iff.2 fun b' hb' he ↦ ?_
    exact (List.nodup_cons.1 hn₂).1 (of_decide_eq_true he ▸ List.mem_map_of_mem hb')
  rw [List.filter_append, List.filter_cons_of_pos (by simp), h₁, h₂]
  rfl

/-- **It is the word that was saved** which is written. -/
theorem Restores.eq (hw : WF s) (hr : Restores h s cmd b m m') :
    b ∈ s.bpList ∧ m' = storeWord m b.addr b.origCode := by
  rcases hr with @⟨i, _, c, c', s', hrun, hb, hd, hc, hc'⟩ |
    @⟨hs, rest, _, c, c₁, c₂, t, t', ht, hh, hv, hv', hc₁, hc₂⟩ |
    @⟨_, c, c', s', ht, hb, hrip, hd, hc'⟩
  · refine ⟨List.mem_of_getElem? hb, ?_⟩
    obtain ⟨fuel, hs⟩ := hd
    obtain ⟨-, ⟨-, hno⟩ | ⟨j, b', c₁, hij, -, hb', hc₁, hcore⟩⟩ :=
      del_spec hw.numbered (Option.some.inj hs)
    · obtain ⟨hlt, -⟩ := List.getElem?_eq_some_iff.1 hb
      rcases hno with hno | hno
      · exact absurd hrun hno
      · exact absurd ⟨by omega, by omega⟩ hno
    · obtain rfl : i = j := by exact_mod_cast hij
      obtain rfl := Option.some.inj (hb.symm.trans hb')
      obtain rfl := Option.some.inj (hc.symm.trans hc₁)
      obtain rfl := Option.some.inj (hc'.symm.trans (congrArg Core.tracee hcore))
      rfl
  · have hlast : b ∈ hits s.bpList c.regs.rip := by rw [hh]; simp
    refine ⟨hits_subset hlast, ?_⟩
    obtain ⟨c₁', hc₁', hm₁⟩ := visit_mem rfl hv
    obtain ⟨c₂', hc₂', hm₂⟩ := visit_mem rfl hv'
    obtain rfl := Option.some.inj (hc₁.symm.trans hc₁')
    obtain rfl := Option.some.inj (hc₂.symm.trans hc₂')
    rw [hm₁, hm₂, restore, List.foldl_append]
    rfl
  · refine ⟨hb, ?_⟩
    obtain ⟨hrun, s₁, c₁, hchk, hc₁, hev⟩ := ht
    obtain ⟨fuel, hs⟩ := hd
    obtain ⟨c₀, hc₀, hafter⟩ := si_spec hrun hw.inText (Option.some.inj hs)
    obtain ⟨c₀', hc₀', rfl⟩ := chkbp_eq hw hrun hchk
    obtain rfl := Option.some.inj (hc₀.symm.trans hc₀')
    obtain rfl : rearmed s.bpList c₀ = c₁ := Option.some.inj hc₁
    rw [hev] at hafter
    rcases hafter with _ | _ | ⟨hsig, -, -⟩ | ⟨hcore, -⟩
    · exact absurd rfl hsig
    · obtain rfl := Option.some.inj (hc'.symm.trans (congrArg Core.tracee hcore))
      rw [siUndo, ← hrip, filter_addr hw.distinct hb]
      rfl

/-- The byte at the address of `b` is all that changes, and the other break points that are armed
stay so. -/
structure Local (s : Sdb ε) (b : Bp) (m m' : Mem) : Prop where
  frame : ∀ x, x ≠ b.addr → m' x = m x
  armed : ∀ b' ∈ s.bpList, b' ≠ b → m b'.addr = int3 → m' b'.addr = int3

/-- A write-back changes nothing but the byte at the address of the entry exactly if the seven bytes
above it are those of the saved word. -/
theorem Restores.local_iff (hw : WF s) (hres : Restores h s cmd b m m') :
    Local s b m m' ↔ ∀ k, 1 ≤ k → k < 8 → m (b.addr + BitVec.ofNat 64 k) = byteOf b.origCode k := by
  obtain ⟨hb, rfl⟩ := hres.eq hw
  rw [← storeWord_local_iff]
  refine ⟨Local.frame, fun hframe ↦ ⟨hframe, fun b' hb' hne hint ↦ ?_⟩⟩
  rw [hframe _ fun ha ↦ hne (hw.eq_of_addr hb' hb ha), hint]

/-! ### In a program that leaves its text alone -/

/-- The memory that is written over: what the debugger has let run, with the words of some other
entries written back. -/
theorem Restores.mem_cases (hw : WF s) (hres : Restores h s cmd b m m') :
    (∃ c, s.state = .running ∧ s.tracee = some c ∧ m = c.mem) ∨
      (∃ c c₁ fuel hs, s.state = .running ∧ s.tracee = some c ∧ cmd = .cont ∧
        h.resume fuel (rearmed s.bpList c) = some (.stopped sigtrap c₁) ∧
        (∀ b ∈ hs, b ∈ s.bpList) ∧ m = restore hs c₁.mem) ∨
      ∃ c c₁, s.state = .running ∧ s.tracee = some c ∧ cmd = .si ∧
        h.singleStep (rearmed s.bpList c) = .stopped sigtrap c₁ ∧ m = c₁.mem := by
  rcases hres with @⟨i, _, c, c', s', hrun, hb, hd, hc, hc'⟩ |
    @⟨hs, rest, _, c, c₁, c₂, t, t', ht, hh, hv, hv', hc₁, hc₂⟩ |
    @⟨_, c, c', s', ht, hb, hrip, hd, hc'⟩
  · exact .inl ⟨c, hrun, hc, rfl⟩
  · obtain ⟨hrun, s₁, cr, fuel, hchk, hcr, hev⟩ := ht
    obtain ⟨c₀, hc₀, rfl⟩ := chkbp_eq hw hrun hchk
    obtain rfl : rearmed s.bpList c₀ = cr := Option.some.inj hcr
    obtain ⟨c₁', hc₁', hm₁⟩ := visit_mem rfl hv
    obtain rfl := Option.some.inj (hc₁.symm.trans hc₁')
    refine .inr (.inl ⟨c₀, c, fuel, hs, hrun, hc₀, rfl, hev, fun b' hb' ↦ ?_, hm₁⟩)
    exact hits_subset (by rw [hh]; exact List.mem_append_left _ hb')
  · obtain ⟨hrun, s₁, cr, hchk, hcr, hev⟩ := ht
    obtain ⟨c₀, hc₀, rfl⟩ := chkbp_eq hw hrun hchk
    obtain rfl : rearmed s.bpList c₀ = cr := Option.some.inj hcr
    exact .inr (.inr ⟨c₀, c, hrun, hc₀, rfl, hev, rfl⟩)

/-- The text of it consists of bytes of the image and of traps. -/
theorem Restores.allowed (hw : WF s) (ht : TextOk img s) (hp : Program h img s cmd)
    (hres : Restores h s cmd b m m') {x : Addr} (hx : InText s.elf x) : Allowed img x (m x) := by
  rcases hres.mem_cases hw with ⟨c, hrun, hc, rfl⟩ |
    ⟨c, c₁, fuel, hs, hrun, hc, rfl, hev, hsub, rfl⟩ | ⟨c, c₁, hrun, hc, rfl, hev, rfl⟩
  · exact ht.bytes c hc x hx
  · refine ht.allowed_restore hsub (fun y hy ↦ ?_) x hx
    rw [show c₁.mem y = (rearmed s.bpList c).mem y from
      Machine.resume_keeps hev (hp hrun c hc) hy]
    exact allowed_rearmed (ht.bytes c hc) y hy
  · rw [show c₁.mem x = (rearmed s.bpList c).mem x from
      Machine.singleStep_keeps hev (hp hrun c hc) hx]
    exact allowed_rearmed (ht.bytes c hc) x hx

/-- Two bytes that may stand in the text are the same when both are traps or none is. -/
theorem Allowed.eq_iff {v w : Byte} (hv : Allowed img a v) (hw : Allowed img a w) :
    v = w ↔ (v = int3 ↔ w = int3) := by
  refine ⟨fun heq ↦ by rw [heq], fun hiff ↦ ?_⟩
  rcases hv with hv | hv
  · rcases hw with hw | hw
    · rw [hv, hw]
    · rw [hiff.2 hw, hw]
  · rw [hv, hiff.1 hv]

/-- The traps in it are listed, when the saved words are words of the image. -/
theorem Restores.clean (hw : WF s) (ht : TextOk img s) (hns : NoStray img s)
    (hpure : PureWords img s) (hp : Program h img s cmd) (hres : Restores h s cmd b m m') :
    Clean img s.elf s.bpList m := by
  rcases hres.mem_cases hw with ⟨c, hrun, hc, rfl⟩ |
    ⟨c, c₁, fuel, hs, hrun, hc, rfl, hev, hsub, rfl⟩ | ⟨c, c₁, hrun, hc, rfl, hev, rfl⟩
  · exact hns hrun c hc
  · refine (ht.clean_restore_iff hsub fun x hx _ ↦ ?_).2 (hpure.freshWrite hsub)
    rw [show c₁.mem x = (rearmed s.bpList c).mem x from
      Machine.resume_keeps hev (hp hrun c hc) hx]
    exact (hns hrun c hc).rearmed x hx
  · intro x hx
    rw [show c₁.mem x = (rearmed s.bpList c).mem x from
      Machine.singleStep_keeps hev (hp hrun c hc) hx]
    exact (hns hrun c hc).rearmed x hx

/-- **With distant break points nothing goes wrong**: when no two of them were ever less than eight
bytes apart, and the program leaves its text alone, each write-back is local. -/
theorem Restores.local_of_distant (hr : Session h (Throughout h (Distant h img)) s)
    (hs : Spaced s.bpList) (hp : Program h img s cmd) (hres : Restores h s cmd b m m')
    (htext : ∀ k, k < 8 → InText s.elf (b.addr + BitVec.ofNat 64 k)) : Local s b m m' := by
  obtain ⟨hw, ht, hns, hpure⟩ := session_distant hr hs
  have hb := (hres.eq hw).1
  rw [hres.local_iff hw]
  intro k hk hk8
  rw [hpure b hb k hk8 (htext k hk8)]
  rcases hres.clean hw ht hns hpure hp _ (htext k hk8) with himg | ⟨-, b', hb', ha⟩
  · exact himg
  · exact absurd ha (hs b hb b' hb' k hk hk8)

/-- **When restoring a break point is local.**  Where the word of an entry is written back — by a
`delete`, or by a stop in `cont` or `si` — the session has set the entry before, when the tracee was
some `c₀`, and nothing changes but the byte at its address exactly if the seven bytes above it are
what they were then.  When the program leaves its text alone, these bytes can only differ by traps:
the ones among them must be the ones there were. -/
theorem restore_local_iff {ok : Sdb ε → Command → Prop} (hr : Session h ok s)
    (hres : Restores h s cmd b m m') :
    (∃ c₀, SetAt h ok b.addr c₀ s) ∧ ∀ c₀, SetAt h ok b.addr c₀ s →
      (Local s b m m' ↔ ∀ k, 1 ≤ k → k < 8 →
        m (b.addr + BitVec.ofNat 64 k) = c₀.mem (b.addr + BitVec.ofNat 64 k)) ∧
      ∀ img, (∀ t cmd, ok t cmd → Throughout h (Program h img) t cmd) → Program h img s cmd →
        (∀ k, k < 8 → InText s.elf (b.addr + BitVec.ofNat 64 k)) →
        (Local s b m m' ↔ ∀ k, 1 ≤ k → k < 8 →
          (m (b.addr + BitVec.ofNat 64 k) = int3 ↔
            c₀.mem (b.addr + BitVec.ofNat 64 k) = int3)) := by
  have hw := reachable_wf (hr.mono fun _ _ _ ↦ trivial)
  have hb := (hres.eq hw).1
  refine ⟨exists_setAt hr hb, fun c₀ hset ↦ ?_⟩
  have hbyte : ∀ k, k < 8 →
      byteOf b.origCode k = c₀.mem (b.addr + BitVec.ofNat 64 k) := fun k hk ↦ by
    rw [hset.origCode hb rfl, byteOf_loadWord _ _ hk]
  have hiff : Local s b m m' ↔ ∀ k, 1 ≤ k → k < 8 →
      m (b.addr + BitVec.ofNat 64 k) = c₀.mem (b.addr + BitVec.ofNat 64 k) := by
    rw [hres.local_iff hw]
    exact forall_congr' fun k ↦ forall_congr' fun _ ↦ forall_congr' fun hk ↦ by rw [hbyte k hk]
  refine ⟨hiff, fun img hprog hp htext ↦ hiff.trans ?_⟩
  have ht := (session_textOk hprog hr).2
  refine forall_congr' fun k ↦ forall_congr' fun _ ↦ forall_congr' fun hk ↦ ?_
  have hold : Allowed img (b.addr + BitVec.ofNat 64 k) (c₀.mem (b.addr + BitVec.ofNat 64 k)) := by
    rw [← hbyte k hk]
    exact ht.saved b hb k hk (htext k hk)
  exact (hres.allowed hw ht hp (htext k hk)).eq_iff hold

/-- The upper one of two neighbours, of which the lower one was set first. -/
theorem restore_local_iff_upper : ∃ (s : Sdb Nat) (b : Bp) (m m' : Mem),
    s.bpList.length = 2 ∧ Restores (Tiny.host [0x90, 0x90]) s (.delete 1) b m m' ∧
      Local s b m m' := by
  obtain ⟨s, hr, hp⟩ := script_reaches (Tiny.host [0x90, 0x90]) (fun _ ↦ True) 1
    [.load "a.out", .start, .break Tiny.textAddr, .break (Tiny.textAddr + 1)]
    (fun s ↦ s.state = .running ∧ s.bpList.length = 2 ∧
      (s.bpList[1]?.any fun b ↦ s.tracee.any fun c ↦ (List.range' 1 7).all fun k ↦
        c.mem (b.addr + BitVec.ofNat 64 k) = byteOf b.origCode k) = true ∧
      ((script (Tiny.host [0x90, 0x90]) 1 [.delete 1] s).any fun s' ↦ s'.tracee.isSome) = true)
    (fun _ _ ↦ trivial) (by decide +kernel)
  obtain ⟨hrun, hlen, hany, hdel⟩ := of_decide_eq_true hp
  obtain ⟨b, hb, hany⟩ := (Option.any_eq_true _ _).1 hany
  obtain ⟨c, hc, hall⟩ := (Option.any_eq_true _ _).1 hany
  obtain ⟨s', hs', hsome⟩ := (Option.any_eq_true _ _).1 hdel
  obtain ⟨c', hc'⟩ := Option.isSome_iff_exists.1 hsome
  have hres : Restores (Tiny.host [0x90, 0x90]) s (.delete 1) b c.mem c'.mem :=
    .delete hrun hb (does_of_script hs') hc hc'
  obtain ⟨⟨c₀, hset⟩, hiff⟩ := restore_local_iff hr hres
  refine ⟨s, b, _, _, hlen, hres, (hiff c₀ hset).1.2 fun k hk hk8 ↦ ?_⟩
  rw [← byteOf_loadWord c₀.mem b.addr hk8, ← hset.origCode (List.mem_of_getElem? hb) rfl]
  exact of_decide_eq_true (List.all_eq_true.1 hall k (List.mem_range'_1.2 ⟨hk, by omega⟩))

/-- **A restore that disarms a neighbour.**  The word of the lower of two neighbours was saved
before the upper one was set; when it is deleted the trap of the other one is gone. -/
theorem restore_local_fails : ∃ (s : Sdb Nat) (b : Bp) (m m' : Mem),
    Reachable (Tiny.host [0x90, 0x90]) s ∧ s.state = .running ∧
      Restores (Tiny.host [0x90, 0x90]) s (.delete 0) b m m' ∧ ¬ Local s b m m' := by
  obtain ⟨s, hr, hp⟩ := script_reaches (Tiny.host [0x90, 0x90]) (fun _ ↦ True) 1
    [.load "a.out", .start, .break Tiny.textAddr, .break (Tiny.textAddr + 1)]
    (fun s ↦ s.state = .running ∧ s.bpList.map Bp.addr = [Tiny.textAddr, Tiny.textAddr + 1] ∧
      (s.tracee.any fun c ↦ c.mem (Tiny.textAddr + 1) = int3) = true ∧
      ((script (Tiny.host [0x90, 0x90]) 1 [.delete 0] s).any fun s' ↦
        s'.tracee.any fun c' ↦ c'.mem (Tiny.textAddr + 1) ≠ int3) = true)
    (fun _ _ ↦ trivial) (by decide +kernel)
  obtain ⟨hrun, hlist, hany, hdel⟩ := of_decide_eq_true hp
  obtain ⟨c, hc, hint⟩ := (Option.any_eq_true _ _).1 hany
  obtain ⟨s', hs', hany'⟩ := (Option.any_eq_true _ _).1 hdel
  obtain ⟨c', hc', hint'⟩ := (Option.any_eq_true _ _).1 hany'
  obtain ⟨b, hb, hba⟩ : ∃ b, s.bpList[0]? = some b ∧ b.addr = Tiny.textAddr := by
    rcases hl : s.bpList with _ | ⟨b, bs⟩
    · simp [hl] at hlist
    · rw [hl] at hlist
      exact ⟨b, rfl, (List.cons.inj hlist).1⟩
  refine ⟨s, b, _, _, hr, hrun, .delete hrun hb (does_of_script hs') hc hc', fun hloc ↦ ?_⟩
  rw [hloc.frame _ (by rw [hba]; decide)] at hint'
  exact of_decide_eq_true hint' (of_decide_eq_true hint)

/-! ## Setting a break point -/

/-- There is one entry for `a`, and a trap at `a`; the entries there were are there, and the rest of
the memory is what it was. -/
structure TakesEffect (s : Sdb ε) (a : Addr) (c : Tracee ε) (s' : Sdb ε) : Prop where
  once : (s'.bpList.map Bp.addr).count a = 1
  kept : s.bpList <+: s'.bpList
  only : ∀ b ∈ s'.bpList, b ∈ s.bpList ∨ b.addr = a
  trap : ∃ c', s'.tracee = some c' ∧ c'.mem a = int3 ∧ ∀ x, x ≠ a → c'.mem x = c.mem x

/-- `break` needs to access the tracee. -/
theorem bp_mapped (hrun : s.state = .running) (htext : intext s.elf a = true)
    (hc : s.tracee = some c) (hs : bp h a s = .ok s') : h.wordMapped c.env a = true := by
  by_contra hm
  have hpeek : s.peekText h a = BitVec.allOnes 64 := by
    rw [peekText, hc]
    simp only [hm, if_false]
  have hpoke (w : Word) :
      s.pokeText h "ptrace(POKETEXT)" a w = .error (.error "ptrace(POKETEXT)") := by
    simp only [pokeText, hc, hm, if_false]
  rw [bp, if_neg (by simp [hrun]), if_neg (by simp [htext])] at hs
  simp only [hpeek, hpoke] at hs
  rw [if_neg (by decide)] at hs
  cases hs

theorem count_addr (hw : WF s) (hb : b ∈ s.bpList) : (s.bpList.map Bp.addr).count b.addr = 1 :=
  List.count_eq_one_of_mem hw.distinct (List.mem_map_of_mem hb)

/-- **When `break` takes effect.**  In a state in which a program runs, for an address of the text:
`break` returns and has done what it should, exactly if the address is listed or holds no trap,
and the tracee is there and its eight bytes at the address are mapped. -/
theorem break_iff (hr : Reachable h s) (hrun : s.state = .running)
    (htext : intext s.elf a = true) :
    (∃ c s', s.tracee = some c ∧ Does h s (.break a) s' ∧ TakesEffect s a c s') ↔
      ∃ c, s.tracee = some c ∧ h.wordMapped c.env a = true ∧
        ((∃ b ∈ s.bpList, b.addr = a) ∨ c.mem a ≠ int3) := by
  have hw := reachable_wf hr
  constructor
  · rintro ⟨c, s', hc, ⟨fuel, hs⟩, heff⟩
    replace hs : bp h a s = .ok s' := Option.some.inj hs
    refine ⟨c, hc, bp_mapped hrun htext hc hs, ?_⟩
    obtain ⟨-, ⟨hcore, -⟩ | ⟨c', -, -, hc', hne, -⟩⟩ := bp_spec hs
    · have hmem : a ∈ s'.bpList.map Bp.addr := List.count_pos_iff.1 (heff.once ▸ Nat.one_pos)
      rw [show s'.bpList = s.bpList from congrArg Core.bpList hcore] at hmem
      exact .inl (List.mem_map.1 hmem)
    · obtain rfl := Option.some.inj (hc.symm.trans hc')
      exact .inr hne
  · rintro ⟨c, hc, hm, hor⟩
    obtain ⟨s', hs, -⟩ := bp_returns hc hm
    refine ⟨c, s', hc, ⟨0, congrArg some hs⟩, ?_⟩
    obtain ⟨-, ⟨hcore, hst | hno | ⟨c', hc', hint⟩⟩ | ⟨c', -, -, hc', hne, ⟨⟨b, hb, hba⟩, hcore⟩ |
      ⟨hn, hcore⟩⟩⟩ := bp_spec hs
    · exact absurd hrun hst
    · exact absurd (hno.symm.trans htext) (by simp)
    · -- set and listed: nothing to do
      obtain rfl := Option.some.inj (hc.symm.trans hc')
      obtain ⟨b, hb, rfl⟩ := hor.resolve_right fun hne ↦ hne hint
      have hl : s'.bpList = s.bpList := congrArg Core.bpList hcore
      refine ⟨?_, hl ▸ List.prefix_refl _, fun b' hb' ↦ .inl (hl ▸ hb'), ?_⟩
      · rw [hl]
        exact count_addr hw hb
      · exact ⟨c, (congrArg Core.tracee hcore).trans hc, hint, fun _ _ ↦ rfl⟩
    · obtain rfl := Option.some.inj (hc.symm.trans hc')
      subst hba
      have hl : s'.bpList = s.bpList := congrArg Core.bpList hcore
      refine ⟨?_, hl ▸ List.prefix_refl _, fun b' hb' ↦ .inl (hl ▸ hb'), ?_⟩
      · rw [hl]
        exact count_addr hw hb
      · exact ⟨_, congrArg Core.tracee hcore, arm_mem_self _ c, fun _ hx ↦ arm_mem_of_ne hx c⟩
    · obtain rfl := Option.some.inj (hc.symm.trans hc')
      have hl : s'.bpList = s.bpList ++ [⟨s.bpList.length, a, loadWord c.mem a⟩] :=
        congrArg Core.bpList hcore
      refine ⟨?_, hl ▸ List.prefix_append _ _, fun b' hb' ↦ ?_, ?_⟩
      · have hnot : a ∉ s.bpList.map Bp.addr := fun hmem ↦ by
          obtain ⟨b, hb, hba⟩ := List.mem_map.1 hmem
          exact hn b hb hba
        rw [hl, List.map_append, List.count_append, List.count_eq_zero_of_not_mem hnot]
        simp
      · rw [hl, List.mem_append, List.mem_singleton] at hb'
        exact hb'.imp_right fun he ↦ by rw [he]
      · exact ⟨_, congrArg Core.tracee hcore, arm_mem_self _ c, fun _ hx ↦ arm_mem_of_ne hx c⟩

/-- A break point is set again: nothing happens. -/
theorem break_iff_twice : ∃ (s s' : Sdb Nat) (c : Tracee Nat), s.bpList.length = 1 ∧
    Does (Tiny.host [0x90, 0x90]) s (.break Tiny.textAddr) s' ∧
      TakesEffect s Tiny.textAddr c s' := by
  obtain ⟨s, hr, hp⟩ := script_reaches (Tiny.host [0x90, 0x90]) (fun _ ↦ True) 1
    [.load "a.out", .start, .break Tiny.textAddr]
    (fun s ↦ s.state = .running ∧ s.bpList.map Bp.addr = [Tiny.textAddr] ∧ s.tracee.isSome = true ∧
      intext s.elf Tiny.textAddr = true)
    (fun _ _ ↦ trivial) (by decide +kernel)
  obtain ⟨hrun, hlist, hsome, htext⟩ := of_decide_eq_true hp
  obtain ⟨c, hc⟩ := Option.isSome_iff_exists.1 hsome
  have hmapped : (Tiny.host [0x90, 0x90]).wordMapped 2 Tiny.textAddr = true := by decide +kernel
  obtain ⟨c', s', -, hd, heff⟩ := (break_iff hr hrun htext).2
    ⟨c, hc, hmapped, .inl (List.mem_map.1 (hlist ▸ by simp))⟩
  exact ⟨s, s', c', by simpa using congrArg List.length hlist, hd, heff⟩

/-- **A break point that is not set.**  The image has a trap of its own at the address, so the
address is taken to be set already. -/
theorem break_fails : ∃ (s : Sdb Nat) (c : Tracee Nat), Reachable (Tiny.host [0x90, 0xcc]) s ∧
    s.state = .running ∧ intext s.elf (Tiny.textAddr + 1) = true ∧ s.tracee = some c ∧
    ∃ s', Does (Tiny.host [0x90, 0xcc]) s (.break (Tiny.textAddr + 1)) s' ∧ s'.bpList = [] ∧
      ¬ TakesEffect s (Tiny.textAddr + 1) c s' := by
  obtain ⟨s, hr, hp⟩ := script_reaches (Tiny.host [0x90, 0xcc]) (fun _ ↦ True) 1
    [.load "a.out", .start]
    (fun s ↦ s.state = .running ∧ intext s.elf (Tiny.textAddr + 1) = true ∧
      s.tracee.isSome = true ∧ ((script (Tiny.host [0x90, 0xcc]) 1
        [.break (Tiny.textAddr + 1)] s).any fun s' ↦ s'.bpList = []) = true)
    (fun _ _ ↦ trivial) (by decide +kernel)
  obtain ⟨hrun, htext, hsome, hany⟩ := of_decide_eq_true hp
  obtain ⟨c, hc⟩ := Option.isSome_iff_exists.1 hsome
  obtain ⟨s', hs', hnil⟩ := (Option.any_eq_true _ _).1 hany
  replace hnil : s'.bpList = [] := of_decide_eq_true hnil
  refine ⟨s, c, hr, hrun, htext, hc, s', does_of_script hs', hnil, fun heff ↦ ?_⟩
  have hone := heff.once
  rw [hnil] at hone
  cases hone

end Sdb
