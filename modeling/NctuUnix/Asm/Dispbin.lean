import NctuUnix.Lib.Emulator

/-!
# Sixteen digits

Two programs that put down the number in `ax` in base two, the highest digit first.  Both shift it
to the left through the carry.

`asm/assembly/dispbin.asm` has a `loop` behind each of two bodies.  The first one falls through to
the second when the counter has run out, and the counter then wraps around.  `asm/dispbin.asm` has
one body, but puts down eight bytes for each digit.

## Main results

* `displays_iff` — the first program does its work if and only if the number is odd.
* `even_not_reaches` — it does not end at all when the number is even.
* `dispbin_reaches` — the second program does its work for every number, and seven bytes more.
-/

set_option autoImplicit false

namespace Dispbin

open Bytes Amd64 Listing Emulator
open X86 (Reg)

/-! ## The programs -/

/-- The labels of the first program. -/
inductive Label
  | L1 | is1 | done
  deriving DecidableEq, Repr

/-- `[0x600000+edx+16]` -/
def target : Ea := ⟨32, .rdx, 1, 0x600000 + 16⟩

/-- The body for a digit. -/
def body (digit : ℤ) : List Op :=
  [.mov 8 Reg.rbx (.imm digit), .mov 32 Reg.rdx Reg.rcx, .neg 32 Reg.rdx, .mov 8 target Reg.rbx]

/-- `asm/assembly/dispbin.asm` -/
def assemblyDispbin : List (Line (Ins Label) Label) :=
  [.ins (.op (.mov 32 Reg.rcx (.imm 16))),
   .ins (.op (.mov 16 Reg.rdx Reg.rax)),
   .label .L1,
   .ins (.shl 16 .rax),
   .ins (.jc .is1),
   .ins (.op (.mov 8 Reg.rbx (.imm 0x30))),
   .ins (.op (.mov 32 Reg.rdx Reg.rcx)),
   .ins (.op (.neg 32 Reg.rdx)),
   .ins (.op (.mov 8 target Reg.rbx)),
   .ins (.loop .L1),
   .label .is1,
   .ins (.op (.mov 8 Reg.rbx (.imm 0x31))),
   .ins (.op (.mov 32 Reg.rdx Reg.rcx)),
   .ins (.op (.neg 32 Reg.rdx)),
   .ins (.op (.mov 8 target Reg.rbx)),
   .ins (.loop .L1),
   .label .done]

/-- The labels of the second program. -/
inductive Label'
  | NEXT | ITIS1 | SAY01
  deriving DecidableEq, Repr

/-- `[RBX]` -/
def here : Ea := ⟨64, .rbx, 1, 0⟩

/-- `asm/dispbin.asm` -/
def dispbin : List (Line (Ins Label') Label') :=
  [.ins (.op (.mov 64 Reg.rbx (.imm 0x600000))),
   .ins (.op (.mov 64 Reg.rcx (.imm 16))),
   .label .NEXT,
   .ins (.shl 16 .rax),
   .ins (.push16 .rax),
   .ins (.jc .ITIS1),
   -- `'0'`
   .ins (.op (.mov 64 Reg.rdx (.imm 0x30))),
   .ins (.jmp .SAY01),
   .label .ITIS1,
   -- `'1'`
   .ins (.op (.mov 64 Reg.rdx (.imm 0x31))),
   .label .SAY01,
   .ins (.op (.mov 64 here Reg.rdx)),
   .ins (.op (.inc 64 Reg.rbx)),
   .ins (.pop16 .rax),
   .ins (.loop .NEXT)]

/-! ## What they are for -/

/-- Byte `i` of the result. -/
def str (i : ℕ) : Addr := BitVec.ofNat 64 (0x600000 + i)

/-- Digit `i` of a number, counted from the highest one. -/
def digit (ax : BitVec 16) (i : ℕ) : Byte := if ax.getMsbD i then 0x31 else 0x30

/-- The program comes to its end, with the sixteen digits put down and nothing else changed. -/
def Displays (M : Mapped) (c : Core) : Prop :=
  ∃ c', Reaches (exec M) assemblyDispbin ⟨c, 0⟩ ⟨c', place .done assemblyDispbin⟩ ∧
    (∀ i < 16, c'.mem (str i) = digit (c.get 16 .rax) i) ∧
    ∀ x, (∀ i < 16, x ≠ str i) → c'.mem x = c.mem x

variable {M : Mapped} {c d : Core} {ax : BitVec 16} {i j k : ℕ}

theorem str_injective (hi : i < 32) (hj : j < 32) (h : str i = str j) : i = j := by
  have hnat := congrArg BitVec.toNat h
  simp only [str, BitVec.toNat_ofNat] at hnat
  omega

theorem str_add (i k : ℕ) : str i + BitVec.ofNat 64 k = str (i + k) := by
  rw [str, str, ← BitVec.ofNat_add, Nat.add_assoc]

/-! ## The first program: one digit -/

/-- In front of digit `i`. -/
structure At1 (ax : BitVec 16) (i : ℕ) (d : Core) : Prop where
  rcx : d.gpr .rcx = BitVec.ofNat 64 (16 - i)
  ax : d.get 16 .rax = ax <<< i

/-- Where the digit goes. -/
theorem ea_target (h : d.gpr .rcx = BitVec.ofNat 64 (16 - i)) (hi : i ≤ 16)
    (hrdx : d.get 32 .rdx = -d.get 32 .rcx) : d.ea target = str i := by
  rw [Core.ea, target, hrdx, Core.get, h, str]
  interval_cases i <;> rfl

/-- A body touches neither the number nor the counter. -/
theorem body_keeps {v : ℤ} {o : Op} (ho : o ∈ body v) (d : Core) :
    (o.exec d).gpr .rcx = d.gpr .rcx ∧ (o.exec d).get 16 .rax = d.get 16 .rax := by
  simp only [body, List.mem_cons, List.not_mem_nil, or_false] at ho
  obtain rfl | rfl | rfl | rfl := ho
  · exact ⟨(Core.gpr_set ..).trans (if_neg (by decide)), Core.get_set_of_ne _ (by decide) _⟩
  · exact ⟨(Core.gpr_set ..).trans (if_neg (by decide)), Core.get_set_of_ne _ (by decide) _⟩
  · exact ⟨(Core.gpr_set ..).trans (if_neg (by decide)), Core.get_set_of_ne _ (by decide) _⟩
  · refine ⟨congrFun (Core.gpr_poke ..) _, ?_⟩
    rw [Core.get, Core.get]
    exact congrArg (BitVec.setWidth 16) (congrFun (Core.gpr_poke ..) _)

theorem run_body_keeps (v : ℤ) (d : Core) : (run (body v) d).gpr .rcx = d.gpr .rcx ∧
    (run (body v) d).get 16 .rax = d.get 16 .rax := by
  suffices h : ∀ ops ⊆ body v, ∀ d, (run ops d).gpr .rcx = d.gpr .rcx ∧
      (run ops d).get 16 .rax = d.get 16 .rax from h _ (List.Subset.refl _) d
  intro ops hops
  induction ops with
  | nil => exact fun d ↦ ⟨rfl, rfl⟩
  | cons o ops ih =>
    intro d
    obtain ⟨ho, hrest⟩ := List.cons_subset.1 hops
    obtain ⟨hrcx, hax⟩ := body_keeps ho d
    obtain ⟨hrcx', hax'⟩ := ih hrest (o.exec d)
    exact ⟨hrcx'.trans hrcx, hax'.trans hax⟩

/-- The body up to the store. -/
def prepared (v : ℤ) (d : Core) : Core := run ((body v).take 3) d

theorem run_body (v : ℤ) (d : Core) :
    run (body v) d = (prepared v d).poke ((prepared v d).ea target) ((prepared v d).get 8 .rbx) :=
  rfl

theorem ea_prepared (h : d.gpr .rcx = BitVec.ofNat 64 (16 - i)) (hi : i ≤ 16) (v : ℤ) :
    (prepared v d).ea target = str i := by
  have hrcx : (prepared v d).gpr .rcx = d.gpr .rcx := by
    simp only [prepared, body, List.take, run_cons, run_nil, Op.exec, Core.write, Core.gpr_set,
      Core.gpr_setFlags]
    rfl
  refine ea_target (hrcx.trans h) hi ?_
  have hneg : (prepared v d).get 32 .rdx = -d.get 32 .rcx := by
    simp only [prepared, body, List.take, run_cons, run_nil, Op.exec, Core.write, Core.read,
      Core.value]
    rw [Core.get_set _ (by decide), if_pos rfl, Core.get_set _ (by decide), if_pos rfl,
      Core.get_set_of_ne _ (by decide)]
  rw [hneg, Core.get, Core.get, hrcx]

/-- It puts the digit down. -/
theorem mem_body (h : d.gpr .rcx = BitVec.ofNat 64 (16 - i)) (hi : i ≤ 16) (v : ℤ) (x : Addr) :
    (run (body v) d).mem x = if x = str i then BitVec.ofInt 8 v else d.mem x := by
  have hbl : (prepared v d).get 8 .rbx = BitVec.ofInt 8 v := by
    simp only [prepared, body, List.take, run_cons, run_nil, Op.exec, Core.write, Core.read,
      Core.value]
    rw [Core.get_set_of_ne _ (by decide), Core.get_setFlags, Core.get_set_of_ne _ (by decide),
      Core.get_set _ (by decide), if_pos rfl]
  rw [run_body, Core.mem_poke, store_byte, ea_prepared h hi, hbl]
  rfl

theorem allows_byte {x : Addr} (h : M x = true) : M.allows [(x, 1)] = true := by
  refine Mapped.allows_iff.2 fun p hp k hk ↦ ?_
  obtain rfl := List.mem_singleton.1 hp
  obtain rfl : k = 0 := by simpa using hk
  simpa using h

theorem body_fits (h : d.gpr .rcx = BitVec.ofNat 64 (16 - i)) (hi : i ≤ 16) (v : ℤ)
    (hM : M (str i) = true) : Fits M d (body v) := by
  refine ⟨rfl, rfl, rfl, ?_, trivial⟩
  show M.allows [((prepared v d).ea target, 1)] = true
  rw [ea_prepared h hi]
  exact allows_byte hM

/-- The number is shifted, and the digit is in the carry. -/
def shifted (d : Core) : Core :=
  (d.setFlags (flagsShl (d.get 16 .rax))).set .rax (d.get 16 .rax <<< 1)

theorem ax_shifted (h : d.get 16 .rax = ax <<< i) : (shifted d).get 16 .rax = ax <<< (i + 1) := by
  rw [shifted, Core.get_set _ (by decide), if_pos rfl, h, BitVec.shiftLeft_add]

theorem cf_shifted (h : d.get 16 .rax = ax <<< i) : (shifted d).flags.cf = ax.getMsbD i := by
  show (d.get 16 .rax).msb = ax.getMsbD i
  rw [h, BitVec.msb_shiftLeft]

/-- What has to be mapped. -/
def Mapped1 (M : Mapped) : Prop := ∀ i < 16, M (str i) = true

/-- The body for digit `i` at `k`, and the `loop` behind it. -/
theorem body_reaches {v : ℤ} (hM : Mapped1 M) (hrcx : d.gpr .rcx = BitVec.ofNat 64 (16 - i))
    (hax : d.get 16 .rax = ax <<< (i + 1)) (hi : i < 16)
    (hbody : ((code assemblyDispbin).drop k).take 4 = (body v).map fun o ↦ .op o)
    (hloop : (code assemblyDispbin)[k + 4]? = some (.loop .L1)) :
    ∃ d', Reaches (exec M) assemblyDispbin ⟨d, k⟩ ⟨d', if i = 15 then k + 5 else 2⟩ ∧
      At1 ax (i + 1) d' ∧ ∀ x, d'.mem x = if x = str i then BitVec.ofInt 8 v else d.mem x := by
  have hfits : Fits M d (body v) := body_fits hrcx hi.le v (hM i hi)
  have hrun : Reaches (exec M) assemblyDispbin ⟨d, k⟩ ⟨run (body v) d, k + 4⟩ :=
    reaches_ops hbody hfits
  have hcount : (run (body v) d).gpr .rcx - 1 = BitVec.ofNat 64 (16 - (i + 1)) := by
    rw [(run_body_keeps v d).1, hrcx]
    interval_cases i <;> rfl
  have hzero : BitVec.ofNat 64 (16 - (i + 1)) = 0 ↔ i = 15 := by
    interval_cases i <;> decide
  have hback : Reaches (exec M) assemblyDispbin ⟨run (body v) d, k + 4⟩
      ⟨(run (body v) d).set .rcx ((run (body v) d).gpr .rcx - 1), if i = 15 then k + 5 else 2⟩ := by
    have hjump := reaches_jump hloop (exec_eq (M := M) (c := run (body v) d) rfl)
    convert hjump using 2
    simp only [hcount, hzero]
    split <;> rfl
  refine ⟨_, hrun.trans hback, ?_, fun x ↦ mem_body hrcx hi.le v x⟩
  constructor
  · rw [Core.gpr_set, if_pos rfl, hcount, merge_64]
  · rw [Core.get_set_of_ne _ (by decide), (run_body_keeps v d).2, hax]

/-- **One digit.**  The first program goes on with the next one, is at its end, or is about to fall
through. -/
theorem digit_reaches (hM : Mapped1 M) (h : At1 ax i d) (hi : i < 16) :
    ∃ d', Reaches (exec M) assemblyDispbin ⟨d, 2⟩
        ⟨d', if i = 15 then (if ax.getMsbD i then 14 else 9) else 2⟩ ∧ At1 ax (i + 1) d' ∧
      ∀ x, d'.mem x = if x = str i then digit ax i else d.mem x := by
  have hshl : Reaches (exec M) assemblyDispbin ⟨d, 2⟩ ⟨shifted d, 3⟩ :=
    reaches_next (i := .shl 16 .rax) rfl rfl
  have hjc : Reaches (exec M) assemblyDispbin ⟨shifted d, 3⟩
      ⟨shifted d, if ax.getMsbD i then 9 else 4⟩ := by
    have hgo : exec M (.jc Label.is1) (shifted d) =
        some (shifted d, if ax.getMsbD i then .to Label.is1 else .next) := by
      rw [← cf_shifted h.ax]
      rfl
    convert reaches_jump (p := assemblyDispbin) (k := 3) rfl hgo using 2
    split <;> rfl
  have hrcx : (shifted d).gpr .rcx = BitVec.ofNat 64 (16 - i) := by
    rw [shifted, Core.gpr_set, if_neg (by decide), Core.gpr_setFlags, h.rcx]
  have hmem : (shifted d).mem = d.mem := rfl
  cases hdigit : ax.getMsbD i
  · rw [hdigit] at hjc
    obtain ⟨d', hreach, hat, hput⟩ := body_reaches (k := 4) (v := 0x30) hM hrcx (ax_shifted h.ax)
      hi rfl rfl
    refine ⟨d', hshl.trans (hjc.trans hreach), hat, fun x ↦ ?_⟩
    rw [hput, hmem, digit, hdigit]
    rfl
  · rw [hdigit] at hjc
    obtain ⟨d', hreach, hat, hput⟩ := body_reaches (k := 9) (v := 0x31) hM hrcx (ax_shifted h.ax)
      hi rfl rfl
    refine ⟨d', hshl.trans (hjc.trans hreach), hat, fun x ↦ ?_⟩
    rw [hput, hmem, digit, hdigit]
    rfl

/-! ## The first program: its run -/

/-- The digits up to digit `i`. -/
theorem digits_reach (hM : Mapped1 M) (h : At1 ax 0 d) (hi : i ≤ 15) :
    ∃ d', Reaches (exec M) assemblyDispbin ⟨d, 2⟩ ⟨d', 2⟩ ∧ At1 ax i d' ∧
      (∀ j < i, d'.mem (str j) = digit ax j) ∧
      ∀ x, (∀ j < i, x ≠ str j) → d'.mem x = d.mem x := by
  induction i with
  | zero => exact ⟨d, .refl, h, fun j hj ↦ absurd hj (Nat.not_lt_zero j), fun x _ ↦ rfl⟩
  | succ i ih =>
    obtain ⟨e, hreach, hat, hput, hkeep⟩ := ih (by omega)
    obtain ⟨e', hreach', hat', hmem⟩ := digit_reaches hM hat (by omega)
    rw [if_neg (by omega)] at hreach'
    refine ⟨e', hreach.trans hreach', hat', fun j hj ↦ ?_, fun x hx ↦ ?_⟩
    · rw [hmem]
      rcases Nat.lt_succ_iff_lt_or_eq.1 hj with hlt | rfl
      · rw [if_neg fun he ↦ hlt.ne (str_injective (by omega) (by omega) he), hput j hlt]
      · rw [if_pos rfl]
    · rw [hmem, if_neg (hx i (Nat.lt_succ_self i))]
      exact hkeep x fun j hj ↦ hx j (hj.trans (Nat.lt_succ_self i))

/-- All of them.  The last one decides where the program goes on. -/
theorem all_reach (hM : Mapped1 M) (c : Core) :
    ∃ c', Reaches (exec M) assemblyDispbin ⟨c, 0⟩
        ⟨c', if (c.get 16 .rax).getMsbD 15 then 14 else 9⟩ ∧
      (∀ i < 16, c'.mem (str i) = digit (c.get 16 .rax) i) ∧
      ∀ x, (∀ i < 16, x ≠ str i) → c'.mem x = c.mem x := by
  have hstart : Reaches (exec M) assemblyDispbin ⟨c, 0⟩
      ⟨run [.mov 32 Reg.rcx (.imm 16), .mov 16 Reg.rdx Reg.rax] c, 2⟩ :=
    reaches_ops (k := 0) rfl ⟨rfl, rfl, trivial⟩
  have hat : At1 (c.get 16 .rax) 0
      (run [.mov 32 Reg.rcx (.imm 16), .mov 16 Reg.rdx Reg.rax] c) := by
    constructor
    · rfl
    · rw [BitVec.shiftLeft_zero]
      exact (Core.get_set_of_ne _ (by decide) _).trans (Core.get_set_of_ne _ (by decide) _)
  obtain ⟨d, hreach, hat, hput, hkeep⟩ := digits_reach hM hat le_rfl
  obtain ⟨d', hreach', -, hmem⟩ := digit_reaches hM hat (by omega)
  rw [if_pos rfl] at hreach'
  refine ⟨d', hstart.trans (hreach.trans hreach'), fun i hi ↦ ?_, fun x hx ↦ ?_⟩
  · rw [hmem]
    rcases Nat.lt_succ_iff_lt_or_eq.1 hi with hlt | rfl
    · rw [if_neg fun he ↦ hlt.ne (str_injective (by omega) (by omega) he), hput i hlt]
    · rw [if_pos rfl]
  · rw [hmem, if_neg (hx 15 (by omega)), hkeep x fun i hi ↦ hx i (by omega)]
    rfl

/-! ## The first program: an even number -/

/-- Some digits have been shifted out of the number, or all of them. -/
def Shifted (ax : BitVec 16) (last more : ℕ) (d : Core) : Prop :=
  ∃ i ≤ last, d.gpr .rcx = BitVec.ofNat 64 (16 - i) ∧ d.get 16 .rax = ax <<< (i + more)

/-- What holds in front of each instruction, for an even number. -/
def Even (ax : BitVec 16) (s : At Core) : Prop :=
  match s.pos with
  | 0 => s.state.get 16 .rax = ax
  | 1 => s.state.get 16 .rax = ax ∧ s.state.gpr .rcx = 16
  | 2 => Shifted ax 15 0 s.state ∨ s.state.get 16 .rax = 0
  -- the last digit is not in the carry
  | 3 => (Shifted ax 15 1 s.state ∧ (s.state.flags.cf = true → s.state.gpr .rcx ≠ 1)) ∨
      (s.state.get 16 .rax = 0 ∧ s.state.flags.cf = false)
  | 4 | 5 | 6 | 7 | 8 => Shifted ax 15 1 s.state ∨ s.state.get 16 .rax = 0
  -- not with the last digit, unless the first body has fallen through
  | 9 | 10 | 11 | 12 | 13 => Shifted ax 14 1 s.state ∨
      (s.state.get 16 .rax = 0 ∧ s.state.gpr .rcx = 0)
  | _ => False

theorem Shifted.keep {last more : ℕ} (h : Shifted ax last more d)
    (hkeep : c.gpr .rcx = d.gpr .rcx ∧ c.get 16 .rax = d.get 16 .rax) : Shifted ax last more c := by
  obtain ⟨i, hi, hrcx, hax⟩ := h
  exact ⟨i, hi, hkeep.1.trans hrcx, hkeep.2.trans hax⟩

/-- What `loop` makes of the counter. -/
theorem counted (hi : i ≤ 15) (h : d.gpr .rcx = BitVec.ofNat 64 (16 - i)) :
    d.gpr .rcx - 1 = BitVec.ofNat 64 (16 - (i + 1)) := by
  rw [h]
  interval_cases i <;> rfl

/-- `shl` in front of an even number. -/
theorem even_shl (hax : ax.getLsbD 0 = false) (h : Even ax ⟨d, 2⟩) : Even ax ⟨shifted d, 3⟩ := by
  have hrcx : (shifted d).gpr .rcx = d.gpr .rcx := (Core.gpr_set ..).trans (if_neg (by decide))
  have hget : (shifted d).get 16 .rax = d.get 16 .rax <<< 1 :=
    (Core.get_set _ (by decide) ..).trans (if_pos rfl)
  rcases h with ⟨i, hi, hc, hd⟩ | hd
  · refine .inl ⟨⟨i, hi, hrcx.trans hc, ax_shifted hd⟩, fun hcf hone ↦ ?_⟩
    rw [cf_shifted hd] at hcf
    rw [hrcx, hc] at hone
    obtain rfl : i = 15 := by
      interval_cases i <;> first | rfl | exact absurd hone (by decide)
    rw [BitVec.getMsbD_eq_getLsbD, hax] at hcf
    exact absurd hcf (by decide)
  · refine .inr ⟨?_, ?_⟩
    · rw [hget, hd]
      rfl
    · show (d.get 16 .rax).msb = false
      rw [hd]
      rfl

/-- `jc` in front of an even number. -/
theorem even_jc (h : Even ax ⟨d, 3⟩) : Even ax ⟨d, if d.flags.cf then 9 else 4⟩ := by
  rcases h with ⟨hshift, hcf⟩ | ⟨hd, hcf⟩
  · split
    · rename_i hset
      obtain ⟨i, hi, hc, hd⟩ := hshift
      have hne : i ≠ 15 := by
        rintro rfl
        exact hcf hset hc
      exact .inl ⟨i, by omega, hc, hd⟩
    · exact .inl hshift
  · rw [hcf]
    exact .inr hd

/-- `loop` behind the first body falls through. -/
theorem even_loop (h : Even ax ⟨d, 8⟩) : Even ax
    ⟨d.set .rcx (d.gpr .rcx - 1), if d.gpr .rcx - 1 = 0 then 9 else 2⟩ := by
  have hrcx : (d.set .rcx (d.gpr .rcx - 1)).gpr .rcx = d.gpr .rcx - 1 := merge_64 (d.gpr .rcx) _
  have hget : (d.set .rcx (d.gpr .rcx - 1)).get 16 .rax = d.get 16 .rax :=
    Core.get_set_of_ne _ (by decide) _
  rcases h with ⟨i, hi, hc, hd⟩ | hd
  · have hcount : d.gpr .rcx - 1 = BitVec.ofNat 64 (16 - (i + 1)) := counted hi hc
    rcases hi.eq_or_lt with rfl | hlt
    · rw [if_pos (show d.gpr .rcx - 1 = 0 from hcount)]
      exact .inr ⟨hget.trans (hd.trans (BitVec.shiftLeft_eq_zero (by decide))), hrcx.trans hcount⟩
    · rw [if_neg (by rw [hcount]; interval_cases i <;> decide)]
      exact .inl ⟨i + 1, by omega, hrcx.trans hcount, hget.trans hd⟩
  · split
    · exact .inr ⟨hget.trans hd, hrcx.trans ‹_›⟩
    · exact .inr (hget.trans hd)

/-- `loop` behind the second body never does. -/
theorem even_loop' (h : Even ax ⟨d, 13⟩) : Even ax
    ⟨d.set .rcx (d.gpr .rcx - 1), if d.gpr .rcx - 1 = 0 then 14 else 2⟩ := by
  have hrcx : (d.set .rcx (d.gpr .rcx - 1)).gpr .rcx = d.gpr .rcx - 1 := merge_64 (d.gpr .rcx) _
  have hget : (d.set .rcx (d.gpr .rcx - 1)).get 16 .rax = d.get 16 .rax :=
    Core.get_set_of_ne _ (by decide) _
  rcases h with ⟨i, hi, hc, hd⟩ | ⟨hd, hc⟩
  · have hcount : d.gpr .rcx - 1 = BitVec.ofNat 64 (16 - (i + 1)) := counted (by omega) hc
    rw [if_neg (by rw [hcount]; interval_cases i <;> decide)]
    exact .inl ⟨i + 1, by omega, hrcx.trans hcount, hget.trans hd⟩
  · rw [if_neg (by rw [hc]; decide)]
    exact .inr (hget.trans hd)

/-- An instruction of the first body. -/
theorem even_body {o : Op} (ho : o ∈ body 0x30) (hk : 4 ≤ k ∧ k ≤ 7) (h : Even ax ⟨d, k⟩) :
    Even ax ⟨o.exec d, k + 1⟩ := by
  obtain ⟨hlo, hhi⟩ := hk
  have hkeep := body_keeps ho d
  interval_cases k
  all_goals exact h.imp (·.keep hkeep) hkeep.2.trans

/-- An instruction of the second body. -/
theorem even_body' {o : Op} (ho : o ∈ body 0x31) (hk : 9 ≤ k ∧ k ≤ 12) (h : Even ax ⟨d, k⟩) :
    Even ax ⟨o.exec d, k + 1⟩ := by
  obtain ⟨hlo, hhi⟩ := hk
  have hkeep := body_keeps ho d
  interval_cases k
  all_goals exact h.imp (·.keep hkeep) fun hd ↦ ⟨hkeep.2.trans hd.1, hkeep.1.trans hd.2⟩

theorem even_step (hax : ax.getLsbD 0 = false) {s s' : At Core} (h : Even ax s)
    (hs : step (exec M) assemblyDispbin s = some s') : Even ax s' := by
  obtain ⟨d, pos⟩ := s
  obtain ⟨i, c', g, hi, he, rfl⟩ := exec_of_step hs
  have hrun := run_of_exec he
  have hpos : pos < 14 := (List.getElem?_eq_some_iff.1 hi).1
  dsimp only at hi hrun
  interval_cases pos
  all_goals
    obtain rfl := Option.some.inj hi
    obtain ⟨rfl, rfl⟩ := Prod.mk.inj (Option.some.inj hrun)
  · exact ⟨(Core.get_set_of_ne _ (by decide) _).trans h, rfl⟩
  · refine .inl ⟨0, by decide, ?_, ?_⟩
    · exact ((Core.gpr_set ..).trans (if_neg (by decide))).trans h.2
    · rw [BitVec.shiftLeft_zero]
      exact (Core.get_set_of_ne _ (by decide) _).trans h.1
  · exact even_shl hax h
  · convert even_jc h using 2
    dsimp only
    split <;> rfl
  · exact even_body (k := 4) (by decide) (by decide) h
  · exact even_body (k := 5) (by decide) (by decide) h
  · exact even_body (k := 6) (by decide) (by decide) h
  · exact even_body (k := 7) (by decide) (by decide) h
  · convert even_loop h using 2
    dsimp only
    split <;> rfl
  · exact even_body' (k := 9) (by decide) (by decide) h
  · exact even_body' (k := 10) (by decide) (by decide) h
  · exact even_body' (k := 11) (by decide) (by decide) h
  · exact even_body' (k := 12) (by decide) (by decide) h
  · convert even_loop' h using 2
    dsimp only
    split <;> rfl

/-- **The first program does not end** when the number is even. -/
theorem even_not_reaches (hax : (c.get 16 .rax).getLsbD 0 = false) (c' : Core) :
    ¬ Reaches (exec M) assemblyDispbin ⟨c, 0⟩ ⟨c', place .done assemblyDispbin⟩ :=
  fun h ↦ h.invariant (I := Even (c.get 16 .rax)) rfl fun _ _ ht hs ↦ even_step hax ht hs

/-- **The first program does its work if and only if the number is odd.** -/
theorem displays_iff (hM : Mapped1 M) (c : Core) :
    Displays M c ↔ (c.get 16 .rax).getLsbD 0 = true := by
  obtain ⟨c', hreach, hput, hkeep⟩ := all_reach hM c
  have hlast : (c.get 16 .rax).getMsbD 15 = (c.get 16 .rax).getLsbD 0 := by
    rw [BitVec.getMsbD_eq_getLsbD]
    rfl
  rw [hlast] at hreach
  constructor
  · rintro ⟨d, hd, -⟩
    by_contra hodd
    exact even_not_reaches (by simpa using hodd) d hd
  · intro hodd
    rw [hodd] at hreach
    exact ⟨c', hreach, hput, hkeep⟩

/-- A machine with the number `n`. -/
def start (n : Word) : Core :=
  ⟨fun r ↦ if r = .rax then n else 0, ⟨false, false, false, false⟩, fun _ ↦ 0⟩

/-- Five and six, with all the memory mapped. -/
theorem displays_iff_five_six :
    Displays (fun _ ↦ true) (start 5) ∧ ¬ Displays (fun _ ↦ true) (start 6) :=
  ⟨(displays_iff (fun _ _ ↦ rfl) _).2 rfl,
    fun h ↦ absurd ((displays_iff (fun _ _ ↦ rfl) _).1 h) (by decide)⟩

/-! ## The second program: one digit -/

/-- In front of digit `i`. -/
structure At2 (ax : BitVec 16) (sp : Addr) (i : ℕ) (d : Core) : Prop where
  rcx : d.gpr .rcx = BitVec.ofNat 64 (16 - i)
  rbx : d.gpr .rbx = str i
  ax : d.get 16 .rax = ax <<< i
  rsp : d.gpr .rsp = sp

/-- What has to be mapped: the result with the seven bytes behind it, and the two bytes in front of
the stack, which must not meet. -/
structure Mapped2 (M : Mapped) (sp : Addr) : Prop where
  str : ∀ i < 23, M (str i) = true
  slot : M.allows [(sp - 2, 2)] = true
  apart : Apart (sp - 2) 2 (Dispbin.str 0) 23

/-- The memory behind a digit: the number has been put on the stack, and eight bytes are put
down. -/
def put (ax : BitVec 16) (sp : Addr) (i : ℕ) (m : Mem) : Mem :=
  store (store m (sp - 2) (ax <<< (i + 1))) (str i) ((digit ax i).setWidth 64)

variable {sp : Addr}

/-- The number on the stack. -/
def pushed (d : Core) : Core :=
  ((shifted d).set .rsp (d.gpr .rsp - 2)).poke (d.gpr .rsp - 2) ((shifted d).get 16 .rax)

theorem pushed_reaches (hM : Mapped2 M sp) (h : At2 ax sp i d) :
    Reaches (exec M) dispbin ⟨d, 2⟩ ⟨pushed d, 4⟩ := by
  have hshl : Reaches (exec M) dispbin ⟨d, 2⟩ ⟨shifted d, 3⟩ :=
    reaches_next (i := .shl 16 .rax) rfl rfl
  have hrsp : (shifted d).gpr .rsp = d.gpr .rsp := (Core.gpr_set ..).trans (if_neg (by decide))
  refine hshl.trans (reaches_next (i := .push16 .rax) rfl ?_)
  rw [exec_eq (by rw [Ins.accesses, hrsp, h.rsp]; exact hM.slot), Ins.run, hrsp]
  rfl

/-- The digit is in `rdx`. -/
def chosen (d : Core) : Core := (pushed d).set .rdx ((digit (d.get 16 .rax) 0).setWidth 64 : Word)

theorem chosen_reaches (d : Core) : Reaches (exec M) dispbin ⟨pushed d, 4⟩ ⟨chosen d, 8⟩ := by
  have hcf : (pushed d).flags.cf = (d.get 16 .rax).getMsbD 0 :=
    (show (pushed d).flags.cf = (d.get 16 .rax).msb from rfl).trans (BitVec.msb_eq_getMsbD_zero _)
  have hjc : exec M (.jc Label'.ITIS1) (pushed d) =
      some (pushed d, if (pushed d).flags.cf then .to .ITIS1 else .next) := rfl
  cases hdigit : (d.get 16 .rax).getMsbD 0
  · rw [hcf, hdigit] at hjc
    have hmov : Reaches (exec M) dispbin ⟨pushed d, 5⟩
        ⟨run [.mov 64 Reg.rdx (.imm 0x30)] (pushed d), 6⟩ := reaches_ops (k := 5) rfl ⟨rfl, trivial⟩
    have hjmp : Reaches (exec M) dispbin ⟨run [.mov 64 Reg.rdx (.imm 0x30)] (pushed d), 6⟩
        ⟨run [.mov 64 Reg.rdx (.imm 0x30)] (pushed d), 8⟩ :=
      reaches_to (p := dispbin) (k := 6) (l := .SAY01) rfl rfl
    convert (reaches_next (k := 4) rfl hjc).trans (hmov.trans hjmp) using 2
    rw [chosen, digit, hdigit]
    rfl
  · rw [hcf, hdigit] at hjc
    have hmov : Reaches (exec M) dispbin ⟨pushed d, 7⟩
        ⟨run [.mov 64 Reg.rdx (.imm 0x31)] (pushed d), 8⟩ := reaches_ops (k := 7) rfl ⟨rfl, trivial⟩
    convert (reaches_to (k := 4) rfl hjc).trans hmov using 2
    rw [chosen, digit, hdigit]
    rfl

/-- The registers and the memory behind it. -/
theorem chosen_eq (h : At2 ax sp i d) : (chosen d).gpr .rcx = d.gpr .rcx ∧
    (chosen d).gpr .rbx = str i ∧ (chosen d).gpr .rsp = sp - 2 ∧
    (chosen d).get 64 .rdx = (digit ax i).setWidth 64 ∧
    (chosen d).mem = store d.mem (sp - 2) (ax <<< (i + 1)) := by
  have hdigit : digit (ax <<< i) 0 = digit ax i := by
    rw [digit, BitVec.getMsbD_shiftLeft, Nat.zero_add, digit]
  refine ⟨?_, ?_, ?_, ?_, ?_⟩
  · simp [chosen, pushed, shifted]
  · simp [chosen, pushed, shifted, h.rbx]
  · simp [chosen, pushed, shifted, h.rsp]
  · rw [chosen, Core.get_set _ le_rfl, if_pos rfl, h.ax, hdigit]
  · rw [chosen, Core.mem_set, pushed, Core.mem_poke, ax_shifted h.ax, h.rsp]
    rfl

/-- The two operations that put it down. -/
def putOps : List Op := [.mov 64 here Reg.rdx, .inc 64 Reg.rbx]

theorem slot_put (hM : Mapped2 M sp) (hi : i < 16) (m : Mem) :
    load 16 (put ax sp i m) (sp - 2) = ax <<< (i + 1) := by
  have hapart : Apart (str i) 8 (sp - 2) 2 := by
    obtain ⟨h₁, h₂⟩ := hM.apart
    rw [Apart, str] at *
    bv_omega
  rw [put, load_store_of_apart hapart, load_store_same (by decide) (by decide)]

/-- The number is off the stack again. -/
def popped (d : Core) : Core :=
  (d.set .rsp (d.gpr .rsp + 2)).set .rax (load 16 d.mem (d.gpr .rsp))

/-- The digit is put down, and the number is taken off the stack again. -/
theorem chosen_rest (hM : Mapped2 M sp) (h : At2 ax sp i d) (hi : i < 16) :
    ∃ d', Reaches (exec M) dispbin ⟨chosen d, 8⟩ ⟨d', 11⟩ ∧ d'.gpr .rcx = d.gpr .rcx ∧
      d'.gpr .rbx = str (i + 1) ∧ d'.get 16 .rax = ax <<< (i + 1) ∧ d'.gpr .rsp = sp ∧
      d'.mem = put ax sp i d.mem := by
  obtain ⟨hrcx, hrbx, hrsp, hrdx, hmem⟩ := chosen_eq h
  have hea : (chosen d).ea here = str i := by
    have hget : (chosen d).get 64 .rbx = str i := (BitVec.setWidth_eq _).trans hrbx
    rw [Core.ea, here, hget]
    simp
  have hput : (run putOps (chosen d)).mem = put ax sp i d.mem := by
    rw [put, ← hmem, ← hrdx, ← hea]
    rfl
  have hsp : (run putOps (chosen d)).gpr .rsp = sp - 2 := by
    rw [← hrsp]
    simp [putOps]
  have hfits : Fits M (chosen d) putOps := by
    refine ⟨?_, rfl, trivial⟩
    show M.allows [((chosen d).ea here, 8)] = true
    rw [hea]
    refine Mapped.allows_iff.2 fun p hp k hk ↦ ?_
    obtain rfl := List.mem_singleton.1 hp
    rw [str_add]
    exact hM.str _ (by simp only at hk; omega)
  have hops : Reaches (exec M) dispbin ⟨chosen d, 8⟩ ⟨run putOps (chosen d), 10⟩ :=
    reaches_ops (k := 8) rfl hfits
  have hpop : exec M (.pop16 .rax : Ins Label') (run putOps (chosen d)) =
      some (popped (run putOps (chosen d)), .next) :=
    exec_eq (by rw [Ins.accesses, hsp]; exact hM.slot)
  refine ⟨popped (run putOps (chosen d)), hops.trans (reaches_next (k := 10) rfl hpop),
    ?_, ?_, ?_, ?_, hput⟩
  · rw [← hrcx]
    simp [popped, putOps]
  · rw [← str_add, ← hrbx]
    simp [popped, putOps, Core.get]
  · rw [popped, Core.get_set _ (by decide), if_pos rfl, hsp, hput, slot_put hM hi]
  · rw [popped, Core.gpr_set, if_neg (by decide), Core.gpr_set, if_pos rfl, hsp, merge_64,
      BitVec.sub_add_cancel]

/-- **One digit** of the second program. -/
theorem digit_reaches' (hM : Mapped2 M sp) (h : At2 ax sp i d) (hi : i < 16) :
    ∃ d', Reaches (exec M) dispbin ⟨d, 2⟩ ⟨d', if i = 15 then 12 else 2⟩ ∧
      At2 ax sp (i + 1) d' ∧ d'.mem = put ax sp i d.mem := by
  obtain ⟨e, hreach, hrcx, hrbx, hax, hrsp, hmem⟩ := chosen_rest hM h hi
  have hcount : e.gpr .rcx - 1 = BitVec.ofNat 64 (16 - (i + 1)) :=
    counted (by omega) (hrcx.trans h.rcx)
  have hzero : BitVec.ofNat 64 (16 - (i + 1)) = 0 ↔ i = 15 := by
    interval_cases i <;> decide
  have hback : Reaches (exec M) dispbin ⟨e, 11⟩
      ⟨e.set .rcx (e.gpr .rcx - 1), if i = 15 then 12 else 2⟩ := by
    convert reaches_jump (p := dispbin) (k := 11) (i := .loop .NEXT) rfl
      (exec_eq (M := M) (c := e) rfl) using 2
    simp only [hcount, hzero]
    split <;> rfl
  refine ⟨_, (pushed_reaches hM h).trans ((chosen_reaches d).trans (hreach.trans hback)), ?_, hmem⟩
  constructor
  · rw [Core.gpr_set, if_pos rfl, hcount, merge_64]
  · exact ((Core.gpr_set ..).trans (if_neg (by decide))).trans hrbx
  · exact (Core.get_set_of_ne _ (by decide) _).trans hax
  · exact ((Core.gpr_set ..).trans (if_neg (by decide))).trans hrsp

/-! ## The second program: its run -/

/-- The memory behind the first digits. -/
def puts (ax : BitVec 16) (sp : Addr) : ℕ → Mem → Mem
  | 0, m => m
  | i + 1, m => put ax sp i (puts ax sp i m)

theorem digits_reach' (hM : Mapped2 M sp) (h : At2 ax sp 0 d) (hi : i ≤ 15) :
    ∃ d', Reaches (exec M) dispbin ⟨d, 2⟩ ⟨d', 2⟩ ∧ At2 ax sp i d' ∧
      d'.mem = puts ax sp i d.mem := by
  induction i with
  | zero => exact ⟨d, .refl, h, rfl⟩
  | succ i ih =>
    obtain ⟨e, hreach, hat, hmem⟩ := ih (by omega)
    obtain ⟨e', hreach', hat', hmem'⟩ := digit_reaches' hM hat (by omega)
    rw [if_neg (by omega)] at hreach'
    exact ⟨e', hreach.trans hreach', hat', hmem'.trans (by rw [hmem, puts])⟩

/-- A digit in the memory. -/
theorem put_str (hM : Mapped2 M sp) (hi : i < 16) (hj : j < 23) (m : Mem) :
    put ax sp i m (str j) =
      if i ≤ j ∧ j < i + 8 then (if j = i then digit ax i else 0) else m (str j) := by
  have hslot : 2 ≤ (str j - (sp - 2)).toNat := by
    obtain ⟨h₁, h₂⟩ := hM.apart
    rw [str] at *
    bv_omega
  have hoff : (str j - str i).toNat = if i ≤ j then j - i else 2 ^ 64 + j - i := by
    rw [str, str]
    split <;> bv_omega
  by_cases hin : i ≤ j ∧ j < i + 8
  · rw [if_pos hin, put, store, hoff, if_pos hin.1, if_pos (by omega)]
    obtain ⟨k, rfl⟩ := Nat.exists_eq_add_of_le hin.1
    have hk : k < 8 := by omega
    rw [Nat.add_sub_cancel_left]
    interval_cases k
    · rw [if_pos (Nat.add_zero i), digit]
      split <;> rfl
    all_goals
      rw [if_neg (by omega), digit]
      split <;> rfl
  · rw [if_neg hin, put, store_of_apart, store_of_apart hslot]
    rw [hoff]
    split <;> omega

theorem puts_str (hM : Mapped2 M sp) (hi : i ≤ 16) (hj : j < 23) (m : Mem) :
    puts ax sp i m (str j) =
      if j < i then digit ax j else if j < i + 7 ∧ 0 < i then 0 else m (str j) := by
  induction i with
  | zero => simp [puts]
  | succ i ih =>
    rw [puts, put_str hM (by omega) hj, ih (by omega)]
    by_cases hj : j = i
    · subst hj
      simp
    · grind

/-- The last number on the stack. -/
theorem puts_slot (hM : Mapped2 M sp) (hi : i < 16) (m : Mem) :
    load 16 (puts ax sp (i + 1) m) (sp - 2) = ax <<< (i + 1) := slot_put hM hi _

/-- All the rest is as before. -/
theorem puts_else {x : Addr} (hi : i ≤ 16) (hx : ∀ j < 23, x ≠ str j)
    (hslot : 2 ≤ (x - (sp - 2)).toNat) (m : Mem) : puts ax sp i m x = m x := by
  induction i with
  | zero => rfl
  | succ i ih =>
    have hoff : 8 ≤ (x - str i).toNat := by
      by_contra hlt
      refine hx (i + (x - str i).toNat) (by omega) ?_
      rw [← str_add, BitVec.ofNat_toNat, BitVec.setWidth_eq, BitVec.add_comm,
        BitVec.sub_add_cancel]
    rw [puts, put, store_of_apart hoff, store_of_apart hslot, ih (by omega)]

/-- **The second program does its work for every number.**  It also clears the seven bytes behind
the result and the two bytes in front of the stack. -/
theorem dispbin_reaches (hM : Mapped2 M (c.gpr .rsp)) :
    ∃ c', Reaches (exec M) dispbin ⟨c, 0⟩ ⟨c', (code dispbin).length⟩ ∧
      (∀ i < 16, c'.mem (str i) = digit (c.get 16 .rax) i) ∧
      (∀ i, 16 ≤ i → i < 23 → c'.mem (str i) = 0) ∧
      load 16 c'.mem (c.gpr .rsp - 2) = 0 ∧ c'.gpr .rsp = c.gpr .rsp ∧
      ∀ x, (∀ i < 23, x ≠ str i) → 2 ≤ (x - (c.gpr .rsp - 2)).toNat → c'.mem x = c.mem x := by
  have hstart : Reaches (exec M) dispbin ⟨c, 0⟩
      ⟨run [.mov 64 Reg.rbx (.imm 0x600000), .mov 64 Reg.rcx (.imm 16)] c, 2⟩ :=
    reaches_ops (k := 0) rfl ⟨rfl, rfl, trivial⟩
  have hat : At2 (c.get 16 .rax) (c.gpr .rsp) 0
      (run [.mov 64 Reg.rbx (.imm 0x600000), .mov 64 Reg.rcx (.imm 16)] c) := by
    constructor
    · rfl
    · rfl
    · rw [BitVec.shiftLeft_zero]
      exact (Core.get_set_of_ne _ (by decide) _).trans (Core.get_set_of_ne _ (by decide) _)
    · simp
  obtain ⟨d, hreach, hat, hmem⟩ := digits_reach' hM hat le_rfl
  obtain ⟨d', hreach', hat', hmem'⟩ := digit_reaches' hM hat (by omega)
  rw [if_pos rfl] at hreach'
  have hputs : d'.mem = puts (c.get 16 .rax) (c.gpr .rsp) 16 c.mem := by
    rw [hmem', hmem, puts]
    rfl
  refine ⟨d', hstart.trans (hreach.trans hreach'), fun i hi ↦ ?_, fun i hlo hhi ↦ ?_, ?_, hat'.rsp,
    fun x hx hslot ↦ ?_⟩
  · rw [hputs, puts_str hM le_rfl (by omega), if_pos hi]
  · rw [hputs, puts_str hM le_rfl hhi, if_neg (by omega), if_pos ⟨by omega, by decide⟩]
  · exact (hputs ▸ puts_slot hM (by omega) _).trans (BitVec.shiftLeft_eq_zero (by decide))
  · rw [hputs, puts_else le_rfl hx hslot]

/-- Six, with all the memory mapped. -/
theorem dispbin_reaches_six :
    ∃ c', Reaches (exec fun _ ↦ true) dispbin ⟨start 6, 0⟩ ⟨c', (code dispbin).length⟩ ∧
      c'.mem (str 14) = 0x31 ∧ c'.mem (str 15) = 0x30 ∧ c'.mem (str 16) = 0 := by
  have hM : Mapped2 (fun _ ↦ true) ((start 6).gpr .rsp) :=
    ⟨fun _ _ ↦ rfl, rfl, by decide⟩
  obtain ⟨c', hreach, hdigits, hzeros, -⟩ := dispbin_reaches hM
  exact ⟨c', hreach, hdigits 14 (by decide), hdigits 15 (by decide),
    hzeros 16 (by decide) (by decide)⟩

end Dispbin
