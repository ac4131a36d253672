import NctuUnix.Hw4.BpList

/-!
# The file image

`disasm` decodes a copy of the program file that it reads at its first use and keeps.  `Reads` says
what a command can do to this copy, `UpToDate` that it always is the file that was loaded.

The decoder gets the place in the copy that belongs to the address, and the length of the whole
copy.

## Main results

* `reachable_upToDate` — the copy is the file that was loaded, in every state the debugger reaches.
* `disasm_inside_iff` — the range that the decoder gets lies in the copy exactly if the address
  belongs to the first byte of the file or the copy is empty.
* `disasm_inside_fails` — the first instruction of an ordinary program.
-/

set_option autoImplicit false

namespace Sdb

open Bytes Trap

variable {ε : Type} {h : Host ε} {s s' s'' : Sdb ε} {cmd : Command}

/-! ## The copy is read once

The copy is made by the first `disasm` and by nothing else; there is one lemma for each command
below, and most of them only say that the command has no part in it.  `cont` and `si` have one,
because a breakpoint that is hit shows a row of `disasm`.
-/

/-- Between `s` and `s'` the file may have been read, and the copy is otherwise what it was. -/
structure Reads (h : Host ε) (s s' : Sdb ε) : Prop where
  path : s'.filePath = s.filePath
  unloaded : s'.state = .nonload ↔ s.state = .nonload
  image : s'.code = s.code ∨
    s.state ≠ .nonload ∧ ∃ code, cachedCode h s = .ok code ∧ s'.code = some code

/-- Nothing of this is touched. -/
theorem Reads.same (hp : s'.filePath = s.filePath) (hst : s'.state = s.state)
    (hc : s'.code = s.code) : Reads h s s' := ⟨hp, by rw [hst], .inl hc⟩

/-- A command that refuses to do anything prints a line. -/
theorem Reads.unless {p : Prop} [Decidable p] {m : Msg} {x : Except Exit (Sdb ε)}
    (hs : (if p then .ok (s.print m) else x) = .ok s') (hx : ¬ p → x = .ok s' → Reads h s s') :
    Reads h s s' := by
  split at hs
  · cases hs
    exact .same rfl rfl rfl
  · exact hx ‹_› hs

/-- One thing after the other: a copy that is there already is not made again. -/
theorem Reads.trans (hs : Reads h s s') (hs' : Reads h s' s'') : Reads h s s'' := by
  refine ⟨hs'.path.trans hs.path, hs'.unloaded.trans hs.unloaded, ?_⟩
  rcases hs'.image with hsame | ⟨hst, code, hcode, hnew⟩
  · rw [hsame]
    exact hs.image
  · refine .inr ⟨fun hn ↦ hst (hs.unloaded.2 hn), code, ?_, hnew⟩
    -- the copy was made in the second part, or found there
    rcases hs.image with hsame | ⟨-, code₀, hcode₀, hnew₀⟩
    · rwa [cachedCode, hsame, hs.path] at hcode
    · rw [cachedCode, hnew₀] at hcode
      rwa [← Except.ok.inj hcode]

/-- **`disasm`** uses the copy, and makes it where there is none. -/
theorem disasm_reads {a : Addr} {n : Nat} (hs : disasm h a n s = .ok s') : Reads h s s' := by
  rw [disasm] at hs
  refine .unless hs fun _ hs ↦ .unless hs fun hrun hs ↦ .unless hs fun _ hs ↦ ?_
  split at hs
  · cases hs
  · rename_i code hcode
    simp only at hs
    split at hs
    · cases hs
      have hst : s.state ≠ .nonload := by simp [not_not.1 hrun]
      exact ⟨rfl, .rfl, .inr ⟨hst, code, hcode, rfl⟩⟩
    · cases hs

/-- A word that is written. -/
theorem pokeText_reads {func : String} {a : Addr} {w : Word}
    (hs : s.pokeText h func a w = .ok s') : Reads h s s' := by
  obtain ⟨c, -, -, rfl⟩ := pokeText_eq hs
  exact .same rfl rfl rfl

theorem setRegs_reads {r : Regs} (hs : s.setRegs r = .ok s') : Reads h s s' := by
  rw [setRegs] at hs
  split at hs <;> cases hs
  exact .same rfl rfl rfl

/-- `break` writes to the process and to the list. -/
theorem bp_reads {a : Addr} (hs : bp h a s = .ok s') : Reads h s s' := by
  rw [bp] at hs
  refine .unless hs fun _ hs ↦ .unless hs fun _ hs ↦ ?_
  simp only at hs
  split at hs
  · cases hs; exact .same rfl rfl rfl
  split at hs
  · cases hs
  · rename_i s₁ hp
    have hr₁ : Reads h s s₁ := pokeText_reads hp
    split at hs <;> cases hs <;> exact hr₁.trans (.same rfl rfl rfl)

/-- The loop of `chkbp` is a `break` for some of the entries. -/
theorem rearm_reads {rip : Addr} {l : List Bp} (hs : rearm h rip l s = .ok s') :
    Reads h s s' := by
  induction l generalizing s with
  | nil => cases hs; exact .same rfl rfl rfl
  | cons b bs ih =>
    rw [rearm] at hs
    split at hs
    · split at hs
      · cases hs
      · rename_i s₁ hbp
        exact (bp_reads hbp).trans (ih hs)
    · exact ih hs

theorem chkbp_reads (hs : chkbp h s = .ok s') : Reads h s s' := by
  rw [chkbp] at hs
  split at hs
  · cases hs
  · exact rearm_reads hs

/-- A breakpoint that is hit is where `cont` and `si` come to use the copy. -/
theorem Handled.reads {b : Bp} (hh : Handled h b s s') : Reads h s s' := by
  obtain ⟨s₁, hd, hp⟩ := hh
  have hprint : Reads h s (s.print .breakpoint) := .same rfl rfl rfl
  exact (hprint.trans (disasm_reads hd)).trans (pokeText_reads hp)

/-- The loop of `cont`, hit by hit. -/
theorem contLoop_reads {l : List Bp} {regs : Regs} (hs : contLoop h l regs s = .ok s') :
    Reads h s s' := by
  induction l generalizing s regs with
  | nil => cases hs; exact .same rfl rfl rfl
  | cons b bs ih =>
    rcases contLoop_cons hs with ⟨-, s₁, s₂, hh, hr, hs⟩ | ⟨-, hs⟩
    · exact (hh.reads.trans (setRegs_reads hr)).trans (ih hs)
    · exact ih hs

/-- The loop of `si`, hit by hit. -/
theorem siLoop_reads {l : List Bp} {regs : Regs} (hs : siLoop h regs l s = .ok s') :
    Reads h s s' := by
  induction l generalizing s with
  | nil => cases hs; exact .same rfl rfl rfl
  | cons b bs ih =>
    rcases siLoop_cons hs with ⟨-, s₁, hh, hs⟩ | ⟨-, hs⟩
    · exact hh.reads.trans (ih hs)
    · exact ih hs

/-- The block after `waitpid`, in a state with a program. -/
theorem afterWait_reads {loop : Tracee ε → Sdb ε → Except Exit (Sdb ε)} {ev : Event Regs ε}
    (hloop : ∀ c t t', loop c t = .ok t' → Reads h t t') (hst : s.state ≠ .nonload)
    (hs : afterWait loop ev s = .ok s') : Reads h s s' := by
  obtain ⟨code, rfl, rfl⟩ | ⟨sig, core, rfl, rfl⟩ | ⟨sig, c, rfl, -, rfl⟩ | ⟨c, rfl, htrap⟩ :=
    afterWait_cases hs
  -- the child has ended: the program is still loaded
  · exact ⟨rfl, by simp [hst], .inl rfl⟩
  · exact .same rfl rfl rfl
  · exact .same rfl rfl rfl
  · have htracee : Reads h s { s with tracee := some c } := .same rfl rfl rfl
    exact htracee.trans (hloop _ _ _ htrap)

/-- A program that runs stays loaded, whatever happens to it. -/
theorem Reads.loaded_of_running (hr : Reads h s s') (hrun : s.state = .running) :
    s'.state ≠ .nonload := fun hn ↦ by
  have hn' := hr.unloaded.1 hn
  rw [hrun] at hn'
  exact absurd hn' (by simp)

/-- `cont`: the traps are planted, the process runs, and the loop follows. -/
theorem cont_reads {fuel : Nat} (hs : cont h fuel s = some (.ok s')) : Reads h s s' := by
  obtain ⟨-, rfl⟩ | ⟨hrun, s₁, c, ev, hchk, -, -, hafter⟩ := cont_cases hs
  · exact .same rfl rfl rfl
  · have hr₁ := chkbp_reads hchk
    exact hr₁.trans
      (afterWait_reads (fun _ _ _ ↦ contLoop_reads) (hr₁.loaded_of_running hrun) hafter)

/-- `si` is the same with a single step. -/
theorem si_reads (hs : si h s = .ok s') : Reads h s s' := by
  obtain ⟨-, rfl⟩ | ⟨hrun, s₁, c, hchk, -, hafter⟩ := si_cases hs
  · exact .same rfl rfl rfl
  · have hr₁ := chkbp_reads hchk
    exact hr₁.trans
      (afterWait_reads (fun _ _ _ ↦ siLoop_reads) (hr₁.loaded_of_running hrun) hafter)

theorem delLoop_reads {id : Int} {l : List Bp} {i : Nat} (hs : delLoop h id s l i = .ok s') :
    Reads h s s' := by
  induction l generalizing i with
  | nil => cases hs; exact .same rfl rfl rfl
  | cons b bs ih =>
    rw [delLoop] at hs
    split at hs
    · split at hs
      · cases hs
      split at hs
      · cases hs
      split at hs
      · cases hs
      rename_i s₁ hp
      have hr₁ : Reads h s s₁ := pokeText_reads hp
      cases hs
      exact hr₁.trans (.same rfl rfl rfl)
    · exact ih hs

theorem del_reads {id : Int} (hs : del h id s = .ok s') : Reads h s s' := by
  rw [del] at hs
  exact .unless hs fun _ hs ↦ delLoop_reads hs

theorem start_reads (hs : start h s = .ok s') : Reads h s s' := by
  rw [start] at hs
  refine .unless hs fun hst hs ↦ .unless hs fun _ hs ↦ ?_
  replace hst : s.state = .loaded := not_not.1 hst
  split at hs
  · cases hs
  split at hs
  · cases hs
  · cases hs
    exact ⟨rfl, by simp [hst], .inl rfl⟩

theorem set_reads {reg : String} {val : Word} (hs : set reg val s = .ok s') : Reads h s s' := by
  rw [set] at hs
  refine .unless hs fun _ hs ↦ ?_
  split at hs
  · cases hs
  · exact setRegs_reads hs

theorem run_reads {fuel : Nat} (hs : run h fuel s = some (.ok s')) : Reads h s s' := by
  rw [run] at hs
  split at hs
  · exact cont_reads hs
  · split at hs
    · cases hs
    · rename_i s₁ hstart
      exact (start_reads hstart).trans (cont_reads hs)
  · cases hs; exact .same rfl rfl rfl

theorem get_reads {reg : String} (hs : get reg s = .ok s') : Reads h s s' := by
  rw [get] at hs
  refine .unless hs fun _ hs ↦ .unless hs fun _ hs ↦ ?_
  split at hs
  · cases hs
  · split at hs <;> cases hs <;> exact .same rfl rfl rfl

theorem getregs_reads (hs : getregs s = .ok s') : Reads h s s' := by
  rw [getregs] at hs
  refine .unless hs fun _ hs ↦ ?_
  split at hs <;> cases hs
  exact .same rfl rfl rfl

theorem dump_reads (a : Addr) : Reads h s (dump h a s) := by
  rw [dump]
  split_ifs <;> exact .same rfl rfl rfl

theorem vmmap_reads (hs : vmmap h s = .ok s') : Reads h s s' := by
  rw [vmmap] at hs
  refine .unless hs fun _ hs ↦ ?_
  split at hs
  · cases hs
  split at hs <;> cases hs
  exact .same rfl rfl rfl

/-- **Every command but `load`** leaves the copy as it is, or makes it. -/
theorem Does.reads (hno : ∀ path, cmd ≠ .load path) (hd : Does h s cmd s') : Reads h s s' := by
  obtain ⟨fuel, hs⟩ := hd
  match cmd, hs with
  | .break a, hs => exact bp_reads (Option.some.inj hs)
  | .cont, hs => exact cont_reads hs
  | .delete id, hs => exact del_reads (Option.some.inj hs)
  | .disasm a, hs => exact disasm_reads (Option.some.inj hs)
  | .dump a, hs => exact Except.ok.inj (Option.some.inj hs) ▸ dump_reads a
  | .get reg, hs => exact get_reads (Option.some.inj hs)
  | .getregs, hs => exact getregs_reads (Option.some.inj hs)
  | .load path, _ => exact absurd rfl (hno path)
  | .run, hs => exact run_reads hs
  | .vmmap, hs => exact vmmap_reads (Option.some.inj hs)
  | .set reg val, hs => exact set_reads (Option.some.inj hs)
  | .si, hs => exact si_reads (Option.some.inj hs)
  | .start, hs => exact start_reads (Option.some.inj hs)
  | .list, hs | .help, hs | .noAddress, hs | .noBreakpointId, hs | .notEnoughArguments, hs
  | .nothing, hs => cases hs; exact .same rfl rfl rfl

/-! ## The copy is the file

`load` is the one command that sets the path, and it refuses where there is a program already.  So a
copy that has been made is never out of date, though nothing in the source ever drops it.
-/

/-- The copy, where there is one, is the file that was loaded. -/
structure UpToDate (h : Host ε) (s : Sdb ε) : Prop where
  unread : s.state = .nonload → s.code = none
  image : ∀ code, s.code = some code → getcode h s.filePath = .ok code

/-- Nothing has been read at first. -/
theorem upToDate_init : UpToDate h (init : Sdb ε) := ⟨fun _ ↦ rfl, fun _ hc ↦ nomatch hc⟩

/-- What the decoder will be given does not depend on when the file is read. -/
theorem UpToDate.cachedCode (hf : UpToDate h s) : cachedCode h s = getcode h s.filePath := by
  rcases hcode : s.code with _ | code
  · rw [Sdb.cachedCode, hcode]
  · rw [Sdb.cachedCode, hcode, hf.image code hcode]

/-- The copy stays up to date where it can only be read. -/
theorem Reads.upToDate (hf : UpToDate h s) (hr : Reads h s s') : UpToDate h s' := by
  refine ⟨fun hn ↦ ?_, fun code hc ↦ ?_⟩
  · have hn' : s.state = .nonload := hr.unloaded.1 hn
    rcases hr.image with hsame | ⟨hst, -⟩
    · rw [hsame, hf.unread hn']
    · exact absurd hn' hst
  · rw [hr.path]
    rcases hr.image with hsame | ⟨-, code', hcode, hnew⟩
    · exact hf.image code (hsame.symm.trans hc)
    · rw [hf.cachedCode] at hcode
      rw [hcode, Option.some.inj (hnew.symm.trans hc)]

/-- `load` does not touch the copy, and a program is loaded before there is one. -/
theorem load_upToDate {path : String} (hf : UpToDate h s) (hs : load h path s = .ok s') :
    UpToDate h s' := by
  by_cases hst : s.state = .nonload
  · have hnone : s'.code = none := by
      rw [← hf.unread hst]
      rw [load] at hs
      split at hs
      · cases hs; rfl
      split at hs
      · cases hs; rfl
      split at hs
      · cases hs
      simp only at hs
      split at hs
      · split at hs
        · split at hs <;> cases hs
          rfl
        · cases hs; rfl
      · cases hs; rfl
    exact ⟨fun _ ↦ hnone, fun code hc ↦ absurd (hc.symm.trans hnone) (Option.some_ne_none code)⟩
  · rw [load, if_pos hst] at hs
    cases hs
    exact ⟨hf.unread, hf.image⟩

/-- **The copy is the file that was loaded.** -/
theorem reachable_upToDate (hr : Reachable h s) : UpToDate h s := by
  refine hr.invariant upToDate_init fun t cmd t' hf _ hd ↦ ?_
  by_cases hload : ∃ path, cmd = .load path
  · obtain ⟨path, rfl⟩ := hload
    obtain ⟨fuel, hs⟩ := hd
    exact load_upToDate hf (Option.some.inj hs)
  · exact (hd.reads fun path he ↦ hload ⟨path, he⟩).upToDate hf

/-! ## The range that the decoder gets

The pointer goes to the place of the address in the file, and the length is that of the whole file,
so the range ends as far behind the copy as it starts behind its beginning.
-/

/-- `code_size`, as `getcode` computes it from the length of the file. -/
def codeSize (data : List Byte) : Int := (BitVec.ofNat 32 data.length).toInt

/-- `offset` -/
def codeOffset (e : Elf) (a : Addr) : Word := e.textShdr.shOffset + (a - e.textShdr.shAddr)

/-- What `disasm` calls the decoder with: the buffer, where the range starts in it, and the length
of the range. -/
def decoderRange (h : Host ε) (s : Sdb ε) (a : Addr) : Except Exit (List Byte × Int × Nat) :=
  match cachedCode h s with
  | .error e => .error e
  | .ok code => .ok (code, (codeOffset s.elf a).toInt, code.length)

/-- The call itself. -/
theorem disasm_eq {a : Addr} (n : Nat) (ha : a ≠ 0) (hrun : s.state = .running)
    (htext : intext s.elf a = true) (hopen : h.csOpen = true) :
    disasm h a n s = match decoderRange h s a with
      | .error e => .error e
      | .ok (code, start, len) =>
        let insns := h.csDisasm code start len a n
        let rows := if insns = [] then [Msg.cannotDisassemble] else insnRows s.elf insns
        .ok { s with code := some code, log := s.log ++ rows,
                     cerrHex := s.cerrHex || rows.any fun m ↦ m matches .insn _ } := by
  rw [disasm, if_neg ha, if_neg (by simp [hrun]), if_neg (by simp [htext]), decoderRange]
  rcases cachedCode h s with e | code
  · rfl
  · simp only [hopen, if_true, codeOffset]
    rfl

/-- Every byte of the range is a byte of the buffer. -/
def StaysInside (h : Host ε) (s : Sdb ε) (a : Addr) : Prop :=
  ∃ code start len, decoderRange h s a = .ok (code, start, len) ∧
    ∀ k, k < len → 0 ≤ start + (k : Int) ∧ start + (k : Int) < code.length

/-- A range as long as the buffer that it is in. -/
theorem range_inside_iff (start : Int) (n : Nat) :
    (∀ k, k < n → 0 ≤ start + (k : Int) ∧ start + (k : Int) < n) ↔ start = 0 ∨ n = 0 := by
  constructor
  · intro hall
    rcases Nat.eq_zero_or_pos n with hn | hn
    · exact .inr hn
    · have hfirst := hall 0 hn
      have hlast := hall (n - 1) (by omega)
      exact .inl (by omega)
  · rintro (rfl | rfl) k hk
    · omega
    · omega

/-- `getcode` delivers the file, cut off where its size does not fit in an `int`. -/
theorem getcode_ok_iff {path : String} {code : List Byte} :
    getcode h path = .ok code ↔ ∃ data, h.files path = some data ∧ 0 ≤ codeSize data ∧
      code = data.take (codeSize data).toNat := by
  rw [getcode]
  rcases h.files path with _ | data
  · simp
  · simp only [Option.some.injEq, exists_eq_left', codeSize]
    split
    · rename_i hneg
      exact iff_of_false (by simp) fun hc ↦ absurd hc.1 (by omega)
    · rename_i hneg
      rw [Except.ok.injEq]
      exact ⟨fun he ↦ ⟨by omega, he.symm⟩, fun he ↦ he.2.symm⟩

/-- The copy is as long as its size says. -/
theorem take_codeSize (data : List Byte) :
    (data.take (codeSize data).toNat).length = (codeSize data).toNat := by
  have hmod : codeSize data ≤ data.length := by
    rw [codeSize, BitVec.toInt_eq_toNat_cond, BitVec.toNat_ofNat]
    have := Nat.mod_le data.length (2 ^ 32)
    split <;> omega
  rw [List.length_take]
  omega

/-- **The decoder's range.**  It lies in the copy of the file exactly if the file can be read into
one, and the address belongs to its first byte or the copy is empty. -/
theorem disasm_inside_iff {a : Addr} (hr : Reachable h s) :
    StaysInside h s a ↔ ∃ data, h.files s.filePath = some data ∧ 0 ≤ codeSize data ∧
      (codeOffset s.elf a = 0 ∨ codeSize data = 0) := by
  have hzero : (codeOffset s.elf a).toInt = 0 ↔ codeOffset s.elf a = 0 := by
    rw [← BitVec.toInt_zero (w := 64), BitVec.toInt_inj]
    rfl
  rw [StaysInside, decoderRange, (reachable_upToDate hr).cachedCode]
  constructor
  · rintro ⟨code, start, len, heq, hall⟩
    split at heq
    · cases heq
    rename_i code' hcode
    cases heq
    obtain ⟨data, hfile, hsize, rfl⟩ := getcode_ok_iff.1 hcode
    rw [take_codeSize] at hall
    refine ⟨data, hfile, hsize, ?_⟩
    rcases (range_inside_iff _ _).1 hall with hoff | hlen
    · exact .inl (hzero.1 hoff)
    · exact .inr (by omega)
  · rintro ⟨data, hfile, hsize, hor⟩
    rw [getcode_ok_iff.2 ⟨data, hfile, hsize, rfl⟩]
    refine ⟨_, _, _, rfl, ?_⟩
    rw [take_codeSize]
    refine (range_inside_iff _ _).2 ?_
    rcases hor with hoff | hlen
    · exact .inl (hzero.2 hoff)
    · exact .inr (by omega)

/-- A file whose text section starts with the file header. -/
def headerAsText : List Byte :=
  [0x7f, 0x45, 0x4c, 0x46, 2, 1, 1, 0] ++ List.replicate 32 0 ++ Tiny.le 8 81 ++ List.replicate 12 0
    ++ Tiny.le 2 3 ++ Tiny.le 2 2 ++ Tiny.strTab ++ Tiny.shdr 0 0 0 0 0 0
    ++ Tiny.shdr 1 1 6 Tiny.textAddr.toNat 0 64 ++ Tiny.shdr 7 3 0 0 64 Tiny.strTab.length

/-- The whole of that file is decoded, from its first byte on. -/
theorem disasm_inside_iff_header : ∃ s : Sdb Nat, s.state = .running ∧
    intext s.elf Tiny.textAddr = true ∧ StaysInside
      { Tiny.host [] with files := fun _ ↦ some headerAsText } s Tiny.textAddr := by
  obtain ⟨s, hr, hp⟩ := script_reaches { Tiny.host [] with files := fun _ ↦ some headerAsText }
    (fun _ ↦ True) 1 [.load "a.out", .start]
    (fun s ↦ s.state = .running ∧ intext s.elf Tiny.textAddr = true ∧
      codeOffset s.elf Tiny.textAddr = 0)
    (fun _ _ ↦ trivial) (by decide +kernel)
  obtain ⟨hrun, htext, hoff⟩ := of_decide_eq_true hp
  have hsize : 0 ≤ codeSize headerAsText := by decide +kernel
  exact ⟨s, hrun, htext, (disasm_inside_iff hr).2 ⟨headerAsText, rfl, hsize, .inl hoff⟩⟩

/-- **A range that leaves the buffer.**  The first instruction of a program of one `nop`, which is
byte 120 of the file: the range has the length of the file and starts there. -/
theorem disasm_inside_fails : ∃ s : Sdb Nat, Reachable (Tiny.host [0x90]) s ∧
    s.state = .running ∧ intext s.elf Tiny.textAddr = true ∧
    decoderRange (Tiny.host [0x90]) s Tiny.textAddr =
      .ok (Tiny.elfFile [0x90], 120, (Tiny.elfFile [0x90]).length) ∧
    ¬ StaysInside (Tiny.host [0x90]) s Tiny.textAddr := by
  obtain ⟨s, hr, hp⟩ := script_reaches (Tiny.host [0x90]) (fun _ ↦ True) 1 [.load "a.out", .start]
    (fun s ↦ s.state = .running ∧ intext s.elf Tiny.textAddr = true ∧
      (decoderRange (Tiny.host [0x90]) s Tiny.textAddr).toOption =
        some (Tiny.elfFile [0x90], 120, (Tiny.elfFile [0x90]).length))
    (fun _ _ ↦ trivial) (by decide +kernel)
  obtain ⟨hrun, htext, hopt⟩ := of_decide_eq_true hp
  rcases hrange : decoderRange (Tiny.host [0x90]) s Tiny.textAddr with e | r
  · rw [hrange] at hopt
    cases hopt
  rw [hrange] at hopt
  obtain rfl := Option.some.inj hopt
  refine ⟨s, hr, hrun, htext, hrange, ?_⟩
  rintro ⟨code, start, len, heq, hall⟩
  cases hrange.symm.trans heq
  have hlen : 0 < (Tiny.elfFile [0x90]).length := by decide +kernel
  have hlast := (hall ((Tiny.elfFile [0x90]).length - 1) (by omega)).2
  omega

end Sdb
