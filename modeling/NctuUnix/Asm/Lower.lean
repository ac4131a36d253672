import NctuUnix.Asm.Loop15

/-!
# Sixteen bytes, going up

`asm/loop15.asm` does the work of `asm/assembly/loop15.asm` in another way: with two pointers that
go up, with a signed comparison, and with the zero behind the letters as a sixteenth byte.  Each of
its three bodies falls through to the next one when the pointers have come to the end, and so the
last byte may be put down twice, the second time behind the result.

## Main results

* `body_reaches` — one byte.
* `lowers_iff` — the program does its work if and only if the byte behind the result can be written
  wherever the last byte is put down twice.
* `convert_of_letter`, `overruns_zero` — letters are put in lower case, and a zero at the end is put
  down twice.
-/

set_option autoImplicit false

namespace Lower15

open Bytes Amd64
open X86 (Reg)
open Loop15 (str1 str2 isUpper isLower lower allows_byte)

/-! ## The program -/

/-- The labels. -/
inductive Label
  | l1 | judge | tolower
  deriving DecidableEq, Repr

/-- `[rbx]` -/
def source : Ea := ⟨64, .rbx, 1, 0⟩

/-- `[rcx]` -/
def target : Ea := ⟨64, .rcx, 1, 0⟩

/-- `asm/loop15.asm` -/
def loop15 : List (Item Label) :=
  [.instr (.op (.mov 64 Reg.rbx (.imm 0x600000))),
   .instr (.op (.mov 64 Reg.rcx (.imm 0x600010))),
   .label .l1,
   .instr (.op (.mov 8 Reg.rax source)),
   -- `'a'`
   .instr (.op (.cmp 8 Reg.rax (.imm 0x61))),
   .instr (.jcc .l .judge),
   .instr (.op (.mov 8 target Reg.rax)),
   .instr (.op (.inc 64 Reg.rbx)),
   .instr (.op (.inc 64 Reg.rcx)),
   .instr (.op (.cmp 64 Reg.rbx (.imm 0x600010))),
   .instr (.jcc .l .l1),
   .label .judge,
   .instr (.op (.cmp 8 Reg.rax (.imm 0))),
   .instr (.jcc .ne .tolower),
   .instr (.op (.mov 8 target Reg.rax)),
   .instr (.op (.inc 64 Reg.rbx)),
   .instr (.op (.inc 64 Reg.rcx)),
   .instr (.op (.cmp 64 Reg.rbx (.imm 0x600010))),
   .instr (.jcc .l .l1),
   .label .tolower,
   .instr (.op (.add 8 Reg.rax (.imm 0x20))),
   .instr (.op (.mov 8 target Reg.rax)),
   .instr (.op (.inc 64 Reg.rbx)),
   .instr (.op (.inc 64 Reg.rcx)),
   .instr (.op (.cmp 64 Reg.rbx (.imm 0x600010))),
   .instr (.jcc .l .l1)]

/-! ## What it does -/

/-- What is put down for a byte. -/
def convert (b : Byte) : Byte :=
  if 0x61 ≤ b.toInt then b else if b = 0 then 0 else b + 0x20

/-- The byte is put down twice when it is the last one. -/
def Overruns (b : Byte) : Prop := 0x61 ≤ b.toInt ∨ b = 0

instance : DecidablePred Overruns := fun _ ↦ inferInstanceAs (Decidable (_ ∨ _))

/-- The program comes to its end: sixteen bytes are put down behind the string, one more if the last
one is put down twice, and nothing else has changed. -/
def Lowers (P : Image loop15) (M : Mapped) (c : Core) : Prop :=
  ∃ c', Reaches P M ⟨c, P.start 0⟩ ⟨c', P.start 23⟩ ∧
    (∀ j < 16, c'.mem (str2 j) = convert (c.mem (str1 j))) ∧
    c'.mem (str2 16) =
      (if Overruns (c.mem (str1 15)) then c.mem (str1 15) + 0x20 else c.mem (str2 16)) ∧
    ∀ x, (∀ j < 17, x ≠ str2 j) → c'.mem x = c.mem x

variable {P : Image loop15} {M : Mapped} {c d : Core} {i j k : ℕ}

/-- **Letters** are put in lower case, and a zero stays what it is. -/
theorem convert_of_letter {b : Byte} (h : isUpper b = true ∨ isLower b = true ∨ b = 0) :
    convert b = lower b := by
  revert h b
  decide

/-- A zero behind the letters is put down twice. -/
theorem overruns_zero : Overruns 0 := .inr rfl

/-! ## One byte -/

/-- The pointers are at byte `i`. -/
structure At (i : ℕ) (d : Core) : Prop where
  rbx : d.gpr .rbx = BitVec.ofNat 64 (0x600000 + i)
  rcx : d.gpr .rcx = BitVec.ofNat 64 (0x600010 + i)

theorem ea_source (h : At i d) : d.ea source = str1 i := by
  rw [Core.ea, source, Core.get_64, h.rbx, str1]
  simp

theorem ea_target (h : At i d) : d.ea target = str2 i := by
  rw [Core.ea, target, Core.get_64, h.rcx, str2]
  simp

/-- The end of each body. -/
def put : List Op :=
  [.mov 8 target Reg.rax, .inc 64 Reg.rbx, .inc 64 Reg.rcx, .cmp 64 Reg.rbx (.imm 0x600010)]

theorem mem_put (h : At i d) (x : Addr) :
    (run put d).mem x = if x = str2 i then d.get 8 .rax else d.mem x := by
  have hmem : (run put d).mem = store d.mem (d.ea target) (d.get 8 .rax) := rfl
  rw [hmem, ea_target h, store_byte]

theorem rax_put : (run put d).get 8 .rax = d.get 8 .rax := by
  simp [put, Core.get_set_of_ne]

theorem at_put (h : At i d) : At (i + 1) (run put d) := by
  constructor
  · have hrbx : (run put d).gpr .rbx = d.gpr .rbx + 1 := by simp [put]
    rw [hrbx, h.rbx, ← Nat.add_assoc, BitVec.ofNat_add (0x600000 + i)]
    rfl
  · have hrcx : (run put d).gpr .rcx = d.gpr .rcx + 1 := by simp [put]
    rw [hrcx, h.rcx, ← Nat.add_assoc, BitVec.ofNat_add (0x600010 + i)]
    rfl

theorem flags_put (h : At i d) : (run put d).flags =
    flagsSub (BitVec.ofNat 64 (0x600000 + (i + 1))) (0x600010#64) := by
  have hflags : (run put d).flags = flagsSub ((run put d).gpr .rbx) (0x600010#64) := by simp [put]
  rw [hflags, (at_put h).rbx]

theorem put_fits (h : At i d) (hM : M (str2 i) = true) : Fits M d put := by
  have hstore : M.allows ((Op.mov 8 target Reg.rax).accesses d) = true := by
    simpa [ea_target h] using allows_byte hM
  exact ⟨hstore, rfl, rfl, rfl, trivial⟩

/-- **The end of a body**: the byte in `al` is put down, and it goes on with the next one, if there
is one. -/
theorem put_reaches (P : Image loop15) (h : At i d) (hM : M (str2 i) = true) (hi : i < 32)
    (hops : ((instrs loop15).drop k).take 4 = put.map .op)
    (hjump : (instrs loop15)[k + 4]? = some (.jcc .l .l1)) :
    Reaches P M ⟨d, P.start k⟩
      ⟨run put d, if i < 15 then P.addr .l1 else P.start (k + 5)⟩ := by
  have hjcc := Reaches.jcc (P := P) (M := M) (c := run put d) hjump
  have hless : (BitVec.ofNat 64 (0x600000 + (i + 1))).toInt < (0x600010#64).toInt ↔ i < 15 := by
    have hleft : (BitVec.ofNat 64 (0x600000 + (i + 1))).toInt = 0x600000 + (i + 1) := by
      rw [BitVec.toInt_eq_toNat_of_lt] <;> rw [BitVec.toNat_ofNat, Nat.mod_eq_of_lt (by omega)] <;>
        omega
    rw [hleft, show (0x600010#64).toInt = 0x600010 by decide]
    omega
  rw [flags_put h, holds_l] at hjcc
  simp only [decide_eq_true_eq, hless] at hjcc
  exact (Reaches.ops put hops (put_fits h hM)).trans hjcc

/-- Byte `i` is loaded and compared with `'a'`. -/
theorem loaded_reaches (P : Image loop15) (h : At i d) (hM : M (str1 i) = true) :
    Reaches P M ⟨d, P.addr .l1⟩ ⟨(d.set .rax (d.mem (str1 i))).setFlags
      (flagsSub (d.mem (str1 i)) 0x61#8),
        if 0x61 ≤ (d.mem (str1 i)).toInt then P.start 5 else P.addr .judge⟩ := by
  have hea := ea_source h
  have hmov : Reaches P M ⟨d, P.start 2⟩ ⟨d.set .rax (d.mem (str1 i)), P.start 3⟩ := by
    have hop := Reaches.op (P := P) (M := M) (c := d)
      (rfl : (instrs loop15)[2]? = some (.op (.mov 8 Reg.rax source)))
      (by simpa [hea] using allows_byte hM)
    simpa [hea, load_byte] using hop
  have hcmp : Reaches P M ⟨d.set .rax (d.mem (str1 i)), P.start 3⟩
      ⟨(d.set .rax (d.mem (str1 i))).setFlags (flagsSub (d.mem (str1 i)) 0x61#8), P.start 4⟩ := by
    have hop := Reaches.op (P := P) (M := M) (c := d.set .rax (d.mem (str1 i)))
      (rfl : (instrs loop15)[3]? = some (.op (.cmp 8 Reg.rax (.imm 0x61)))) rfl
    simpa [Core.get_set] using hop
  have hjcc := Reaches.jcc (P := P) (M := M)
    (c := (d.set .rax (d.mem (str1 i))).setFlags (flagsSub (d.mem (str1 i)) 0x61#8))
    (rfl : (instrs loop15)[4]? = some (.jcc .l .judge))
  have hless : (d.mem (str1 i)).toInt < (0x61#8).toInt ↔ ¬ 0x61 ≤ (d.mem (str1 i)).toInt :=
    Int.not_le.symm
  simp only [Core.flags_setFlags, holds_l, decide_eq_true_eq, hless, ite_not] at hjcc
  exact hmov.trans (hcmp.trans hjcc)

/-- What is not in lower case is compared with zero. -/
theorem judge_reaches (P : Image loop15) (M : Mapped) (d : Core) :
    Reaches P M ⟨d, P.addr .judge⟩ ⟨d.setFlags (flagsSub (d.get 8 .rax) 0#8),
      if d.get 8 .rax = 0 then P.start 12 else P.addr .tolower⟩ := by
  have hcmp := Reaches.op (P := P) (M := M) (c := d)
    (rfl : (instrs loop15)[10]? = some (.op (.cmp 8 Reg.rax (.imm 0)))) rfl
  have hjcc := Reaches.jcc (P := P) (M := M) (c := d.setFlags (flagsSub (d.get 8 .rax) 0#8))
    (rfl : (instrs loop15)[11]? = some (.jcc .ne .tolower))
  have hne : Cond.ne.holds (flagsSub (d.get 8 .rax) 0#8) = decide (d.get 8 .rax ≠ 0) := by
    rw [Cond.holds, zf_flagsSub, ← decide_not]
    rfl
  simp only [Core.flags_setFlags, hne, decide_eq_true_eq, ne_eq, ite_not] at hjcc
  exact hcmp.trans hjcc

/-- The difference between the cases is added. -/
theorem add_reaches (P : Image loop15) (M : Mapped) (d : Core) :
    Reaches P M ⟨d, P.addr .tolower⟩ ⟨Op.exec d (.add 8 Reg.rax (.imm 0x20)), P.start 18⟩ :=
  Reaches.op (rfl : (instrs loop15)[17]? = some (.op (.add 8 Reg.rax (.imm 0x20)))) rfl

/-- The pointers are not touched by what happens in `al`. -/
theorem At.of_gpr (h : At i d) {d' : Core} (hgpr : ∀ r, r ≠ .rax → d'.gpr r = d.gpr r) : At i d' :=
  ⟨(hgpr _ (by decide)).trans h.rbx, (hgpr _ (by decide)).trans h.rcx⟩

/-! ## The bytes so far -/

/-- The first `i` bytes are done. -/
structure Lowered (c : Core) (i : ℕ) (d : Core) : Prop where
  pointers : At i d
  bytes : ∀ j < i, d.mem (str2 j) = convert (c.mem (str1 j))
  mem : ∀ x, (∀ j < i, x ≠ str2 j) → d.mem x = c.mem x

theorem str1_ne_str2 (hi : i < 16) (hj : j < 17) : str1 i ≠ str2 j := by
  intro h
  have hnat := congrArg BitVec.toNat h
  simp only [str1, str2, BitVec.toNat_ofNat] at hnat
  omega

theorem str2_injective (hi : i < 17) (hj : j < 17) (h : str2 i = str2 j) : i = j := by
  have hnat := congrArg BitVec.toNat h
  simp only [str2, BitVec.toNat_ofNat] at hnat
  omega

/-- A byte that has been put down. -/
theorem Lowered.put (h : Lowered c i d) (hi : i < 16) {d' : Core} (hat : At i d')
    (hmem : d'.mem = d.mem) (hal : d'.get 8 .rax = convert (c.mem (str1 i))) :
    Lowered c (i + 1) (run put d') := by
  refine ⟨at_put hat, fun j hj ↦ ?_, fun x hx ↦ ?_⟩
  · rw [mem_put hat, hmem]
    rcases Nat.lt_succ_iff_lt_or_eq.1 hj with hlt | rfl
    · rw [if_neg fun he ↦ absurd (str2_injective (by omega) (by omega) he) (by omega)]
      exact h.bytes j hlt
    · rw [if_pos rfl, hal]
  · rw [mem_put hat, hmem, if_neg (hx i (by omega))]
    exact h.mem x fun j hj ↦ hx j (by omega)

/-- Number `k` is the first instruction of the end of a body. -/
def IsPut (k : ℕ) : Prop :=
  ((instrs loop15).drop k).take 4 = put.map .op ∧ (instrs loop15)[k + 4]? = some (.jcc .l .l1)

/-- **One byte** on its way to where it is put down; `k` tells which of the bodies it is in. -/
theorem body_reaches (P : Image loop15) (h : At i d) (hM : M (str1 i) = true) :
    ∃ k d', Reaches P M ⟨d, P.addr .l1⟩ ⟨d', P.start k⟩ ∧ IsPut k ∧ At i d' ∧ d'.mem = d.mem ∧
      d'.get 8 .rax = convert (d.mem (str1 i)) ∧
      (k = 5 ∧ 0x61 ≤ (d.mem (str1 i)).toInt ∨ k = 12 ∧ d.mem (str1 i) = 0 ∨
        k = 18 ∧ ¬ Overruns (d.mem (str1 i))) := by
  have hloaded := loaded_reaches P h hM
  generalize d.mem (str1 i) = b at hloaded ⊢
  have hat : At i ((d.set .rax b).setFlags (flagsSub b 0x61#8)) :=
    h.of_gpr fun r hr ↦ by simp [hr]
  have hal : ((d.set .rax b).setFlags (flagsSub b 0x61#8)).get 8 .rax = b := by
    simp [Core.get_set]
  by_cases hlow : 0x61 ≤ b.toInt
  · rw [if_pos hlow] at hloaded
    exact ⟨5, _, hloaded, ⟨rfl, rfl⟩, hat, rfl, hal.trans (if_pos hlow).symm, .inl ⟨rfl, hlow⟩⟩
  · rw [if_neg hlow] at hloaded
    have hjudge := judge_reaches P M ((d.set .rax b).setFlags (flagsSub b 0x61#8))
    rw [hal] at hjudge
    by_cases hzero : b = 0
    · rw [if_pos hzero] at hjudge
      refine ⟨12, _, hloaded.trans hjudge, ⟨rfl, rfl⟩, hat.of_gpr fun _ _ ↦ rfl, rfl, ?_,
        .inr (.inl ⟨rfl, hzero⟩)⟩
      rw [Core.get_setFlags, hal, convert, if_neg hlow, if_pos hzero, hzero]
    · rw [if_neg hzero] at hjudge
      refine ⟨18, _, (hloaded.trans hjudge).trans (add_reaches P M _), ⟨rfl, rfl⟩,
        h.of_gpr fun r hr ↦ by simp [hr], rfl, ?_,
        .inr (.inr ⟨rfl, fun ho ↦ ho.elim hlow hzero⟩)⟩
      rw [convert, if_neg hlow, if_neg hzero]
      simp [Core.get_set]

/-- What has to be mapped: the string, and the result. -/
def Mapped16 (M : Mapped) : Prop := ∀ j < 16, M (str1 j) = true ∧ M (str2 j) = true

theorem Lowered.load (h : Lowered c i d) (hi : i < 16) : d.mem (str1 i) = c.mem (str1 i) :=
  h.mem _ fun _ hj ↦ str1_ne_str2 hi (by omega)

/-- The bytes up to the last one. -/
theorem bytes_reach (P : Image loop15) (hM : Mapped16 M) (h : Lowered c 0 d) (hi : i ≤ 15) :
    ∃ d', Reaches P M ⟨d, P.addr .l1⟩ ⟨d', P.addr .l1⟩ ∧ Lowered c i d' := by
  induction i with
  | zero => exact ⟨d, .refl _, h⟩
  | succ i ih =>
    obtain ⟨d₁, hreach₁, h₁⟩ := ih (by omega)
    obtain ⟨k, d₂, hreach₂, hput, hat, hmem, hal, -⟩ :=
      body_reaches P h₁.pointers (hM i (by omega)).1
    rw [h₁.load (by omega)] at hal
    have hend := put_reaches P hat (hM i (by omega)).2 (by omega) hput.1 hput.2
    rw [if_pos (by omega)] at hend
    exact ⟨_, hreach₁.trans (hreach₂.trans hend), h₁.put (by omega) hat hmem hal⟩

/-- What happens in `al` and to the flags is nothing to the bytes that are done. -/
theorem Lowered.of_gpr (h : Lowered c i d) {d' : Core} (hgpr : ∀ r, r ≠ .rax → d'.gpr r = d.gpr r)
    (hmem : d'.mem = d.mem) : Lowered c i d' :=
  ⟨h.pointers.of_gpr hgpr, by rw [hmem]; exact h.bytes, by rw [hmem]; exact h.mem⟩

/-- From the third body on, with byte `b` in `al`. -/
theorem again_reaches (P : Image loop15) (M : Mapped) (h : Lowered c i d) {b : Byte}
    (hal : d.get 8 .rax = b) : ∃ d', Reaches P M ⟨d, P.addr .tolower⟩ ⟨d', P.start 18⟩ ∧
      Lowered c i d' ∧ d'.get 8 .rax = b + 0x20 := by
  refine ⟨_, add_reaches P M d, h.of_gpr (fun r hr ↦ by simp [hr]) rfl, ?_⟩
  rw [← hal]
  simp [Core.get_set]

/-- **The last byte**: either the program is at its end, or the byte is going to be put down once
more. -/
theorem last_reaches (P : Image loop15) (hM : Mapped16 M) (h : Lowered c 15 d) :
    ∃ d', Lowered c 16 d' ∧ if Overruns (c.mem (str1 15)) then
      Reaches P M ⟨d, P.addr .l1⟩ ⟨d', P.start 18⟩ ∧
        d'.get 8 .rax = c.mem (str1 15) + 0x20
      else Reaches P M ⟨d, P.addr .l1⟩ ⟨d', P.start 23⟩ := by
  obtain ⟨k, d₁, hreach, hput, hat, hmem, hal, hcase⟩ :=
    body_reaches P h.pointers (hM 15 (by omega)).1
  rw [h.load (by omega)] at hal hcase
  have hend := hreach.trans (put_reaches P hat (hM 15 (by omega)).2 (by omega) hput.1 hput.2)
  rw [if_neg (by omega)] at hend
  have hdone := h.put (by omega) hat hmem hal
  rw [← rax_put] at hal
  rcases hcase with ⟨rfl, hlow⟩ | ⟨rfl, hzero⟩ | ⟨rfl, hno⟩
  · -- the first body falls through to the second, and that jumps to the third
    rw [convert, if_pos hlow] at hal
    have hne : ¬ (run put d₁).get 8 .rax = 0 := fun h0 ↦ by
      rw [← hal, h0] at hlow
      exact absurd hlow (by decide)
    have hjudge := judge_reaches P M (run put d₁)
    rw [if_neg hne] at hjudge
    have hflags : Lowered c 16
        ((run put d₁).setFlags (flagsSub ((run put d₁).get 8 .rax) 0#8)) :=
      hdone.of_gpr (fun _ _ ↦ rfl) rfl
    obtain ⟨d₂, hagain, hdone₂, hal₂⟩ := again_reaches P M hflags hal
    exact ⟨d₂, hdone₂, by rw [if_pos (.inl hlow)]; exact ⟨hend.trans (hjudge.trans hagain), hal₂⟩⟩
  · -- the second body falls through to the third
    rw [convert, if_neg (by rw [hzero]; decide), if_pos hzero, ← hzero] at hal
    obtain ⟨d₂, hagain, hdone₂, hal₂⟩ := again_reaches P M hdone hal
    exact ⟨d₂, hdone₂, by rw [if_pos (.inr hzero)]; exact ⟨hend.trans hagain, hal₂⟩⟩
  · exact ⟨_, hdone, by rw [if_neg hno]; exact hend⟩

/-! ## The end -/

/-- Where the byte behind the result cannot be written, the program stops in front of it. -/
theorem step_stuck (h : At 16 d) (hM : M (str2 16) = false) : step P M ⟨d, P.start 18⟩ = none := by
  rw [step_start (rfl : (instrs loop15)[18]? = some (.op (.mov 8 target Reg.rax))), if_neg]
  have haccess : (Op.mov 8 target Reg.rax).accesses d = [(str2 16, 1)] := by
    simp [ea_target h]
  show ¬ M.allows ((Op.mov 8 target Reg.rax).accesses d) = true
  rw [haccess, Mapped.allows_iff]
  intro hall
  have hbyte := hall _ List.mem_cons_self 0 Nat.one_pos
  rw [show str2 16 + BitVec.ofNat 64 0 = str2 16 from BitVec.add_zero _, hM] at hbyte
  exact absurd hbyte (by decide)

/-- **When the program does its work.**  It does unless the last byte is put down twice, which a
zero behind the letters always is, and the byte behind the result is not mapped. -/
theorem lowers_iff (P : Image loop15) (M : Mapped) (c : Core) (hM : Mapped16 M) :
    Lowers P M c ↔ (Overruns (c.mem (str1 15)) → M (str2 16) = true) := by
  have hstart : ∃ d, Reaches P M ⟨c, P.start 0⟩ ⟨d, P.addr .l1⟩ ∧ Lowered c 0 d := by
    refine ⟨_, Reaches.ops (k := 0) [.mov 64 Reg.rbx (.imm 0x600000),
      .mov 64 Reg.rcx (.imm 0x600010)] rfl ⟨rfl, rfl, trivial⟩, ?_⟩
    exact ⟨⟨rfl, rfl⟩, fun j hj ↦ absurd hj (Nat.not_lt_zero j), fun _ _ ↦ rfl⟩
  obtain ⟨d₀, hreach₀, h₀⟩ := hstart
  obtain ⟨d₁, hreach₁, h₁⟩ := bytes_reach P hM h₀ (le_refl 15)
  obtain ⟨d₂, h₂, hlast⟩ := last_reaches P hM h₁
  have hsame : ∀ x, (∀ j < 17, x ≠ str2 j) → ∀ j < 16, x ≠ str2 j := fun x hx j hj ↦
    hx j (by omega)
  have h16 : ∀ j < 16, str2 16 ≠ str2 j := fun j hj he ↦
    absurd (str2_injective (by omega) (by omega) he) (by omega)
  by_cases hover : Overruns (c.mem (str1 15))
  · rw [if_pos hover] at hlast
    obtain ⟨hreach₂, hal⟩ := hlast
    have hreach := hreach₀.trans (hreach₁.trans hreach₂)
    rcases hmap : M (str2 16) with _ | _
    · -- the program is stuck
      refine iff_of_false ?_ (fun h ↦ absurd (h hover) (by decide))
      rintro ⟨c', hend, -⟩
      have hfinal := hend.final_unique hreach step_end (step_stuck h₂.pointers hmap)
      have hrip := P.start_injective (congrArg State.rip hfinal) le_rfl (by decide)
      exact absurd hrip (by decide)
    · refine iff_of_true ?_ fun _ ↦ rfl
      have hput := put_reaches P h₂.pointers hmap (by omega) (k := 18) rfl rfl
      rw [if_neg (by omega)] at hput
      refine ⟨_, hreach.trans hput, fun j hj ↦ ?_, ?_, fun x hx ↦ ?_⟩
      · rw [mem_put h₂.pointers, if_neg (h16 j hj).symm]
        exact h₂.bytes j hj
      · rw [mem_put h₂.pointers, if_pos rfl, hal, if_pos hover]
      · rw [mem_put h₂.pointers, if_neg (hx 16 (by omega))]
        exact h₂.mem x (hsame x hx)
  · rw [if_neg hover] at hlast
    refine iff_of_true ⟨d₂, hreach₀.trans (hreach₁.trans hlast), h₂.bytes, ?_, fun x hx ↦ ?_⟩
      fun h ↦ absurd h hover
    · rw [if_neg hover]
      exact h₂.mem _ h16
    · exact h₂.mem x (hsame x hx)

/-- A machine with fifteen letters and a zero. -/
def assembly : Core :=
  ⟨fun _ ↦ 0, ⟨false, false, false, false⟩, fun x ↦
    (("AssemblyProgram".toList.map fun ch ↦ BitVec.ofNat 8 ch.toNat)[(x - str1 0).toNat]?).getD 0⟩

/-- The letters are put in lower case if the byte behind the result is mapped, and otherwise the
program does not come to its end. -/
theorem lowers_iff_assembly :
    Lowers (.place loop15 (by decide) 0x400000) (fun _ ↦ true) assembly ∧
    (List.range 16).map (fun j ↦ convert (assembly.mem (str1 j))) =
      ("assemblyprogram".toList.map fun ch ↦ BitVec.ofNat 8 ch.toNat) ++ [0] ∧
    ¬ Lowers (.place loop15 (by decide) 0x400000) (fun x ↦ x != str2 16) assembly := by
  refine ⟨(lowers_iff _ _ _ fun _ _ ↦ ⟨rfl, rfl⟩).2 fun _ ↦ rfl, by decide +kernel, fun h ↦ ?_⟩
  have hM : Mapped16 fun x ↦ x != str2 16 := fun j hj ↦
    ⟨bne_iff_ne.2 (str1_ne_str2 hj (by omega)),
      bne_iff_ne.2 fun he ↦ absurd (str2_injective (by omega) (by omega) he) (by omega)⟩
  have hlast : Overruns (assembly.mem (str1 15)) := overruns_zero
  exact absurd ((lowers_iff _ _ _ hM).1 h hlast) (by decide)

end Lower15
