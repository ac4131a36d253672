import NctuUnix.Lib.Emulator

/-!
# Arithmetic

Three of the programs under `asm/assembly` that divide, `math3.asm`, `math4.asm` and `math5.asm`.
The comment in front of each says which expression it is for, and that what overflows is cut off.
A quotient is not cut off: a division by zero, or one whose quotient does not fit, is an error.

## Main results

* `math4_computes` — `math4.asm` comes to its end exactly when neither of its two divisions fails,
  with the value of the expression.
* `math5_computes`, `math3_computes` — the same for the others, which divide once.
-/

set_option autoImplicit false

namespace Arithmetic

open Bytes Amd64 Listing Emulator
open X86 (Reg)

/-! ## The programs -/

/-- The label at the end of each program. -/
inductive Label
  | done
  deriving DecidableEq, Repr

/-- An address that is written out. -/
def abs (a : ℤ) : Ea := ⟨64, .rax, 0, a⟩

/-- `asm/assembly/math3.asm` -/
def math3 : List (Line (Ins Label) Label) :=
  [.ins (.op (.mov 32 Reg.rdx (.imm 0))),
   .ins (.op (.mov 32 Reg.rax (abs 0x600000))),
   .ins (.op (.mov 32 Reg.rbx (abs 0x600004))),
   .ins (.lea .rax .rax .rax 4),
   .ins (.op (.sub 32 Reg.rbx (.imm 3))),
   .ins (.div .rbx),
   .ins (.op (.mov 32 (abs 0x600008) Reg.rax)),
   .label .done]

/-- `asm/assembly/math4.asm` -/
def math4 : List (Line (Ins Label) Label) :=
  [.ins (.op (.mov 32 Reg.rax (abs 0x600000))),
   .ins (.op (.mov 32 Reg.rbx (.imm (-5)))),
   .ins (.imul .rbx),
   .ins (.op (.mov 32 Reg.rbx Reg.rax)),
   .ins (.op (.mov 32 Reg.rax (abs 0x600004))),
   .ins (.op (.neg 32 Reg.rax)),
   .ins .cdq,
   .ins (.op (.mov 32 Reg.rcx (abs 0x600008))),
   .ins (.idiv .rcx),
   .ins (.op (.mov 32 Reg.rax Reg.rbx)),
   .ins (.op (.mov 32 Reg.rbx Reg.rdx)),
   .ins .cdq,
   .ins (.idiv .rbx),
   .ins (.op (.mov 32 (abs 0x60000c) Reg.rax)),
   .label .done]

/-- `asm/assembly/math5.asm` -/
def math5 : List (Line (Ins Label) Label) :=
  [.ins (.op (.mov 32 Reg.rax (abs 0x600000))),
   .ins (.op (.mov 32 Reg.rcx (abs 0x600004))),
   .ins (.op (.neg 32 Reg.rcx)),
   .ins (.imul .rcx),
   .ins (.op (.mov 32 Reg.rcx (abs 0x600008))),
   .ins (.op (.sub 32 Reg.rcx Reg.rbx)),
   .ins .cdq,
   .ins (.idiv .rcx),
   .ins (.op (.mov 32 (abs 0x600008) Reg.rax)),
   .label .done]

variable {M : Mapped} {c d : Core}

/-- The program comes to its end under a condition only, and then with a value in one place and the
other memory as it was. -/
def Computes (M : Mapped) (p : List (Line (Ins Label) Label)) (c : Core) (cond : Prop) (a : Addr)
    (v : BitVec 32) : Prop :=
  ((∃ c', Reaches (exec M) p ⟨c, 0⟩ ⟨c', (code p).length⟩) ↔ cond) ∧
    ∀ c', Reaches (exec M) p ⟨c, 0⟩ ⟨c', (code p).length⟩ → c'.mem = store c.mem a v

/-! ## Operands -/

@[simp] theorem ea_abs (c : Core) (a : ℤ) : c.ea (abs a) = BitVec.ofInt 64 a := by
  show (c.get 64 .rax * 0#64 + BitVec.ofInt 64 a).setWidth 64 = _
  rw [BitVec.mul_zero, BitVec.zero_add, BitVec.setWidth_eq]

/-- Where variable number `k` is. -/
def var (k : ℕ) : Addr := BitVec.ofNat 64 (0x600000 + 4 * k)

/-- What stands there. -/
def val (c : Core) (k : ℕ) : BitVec 32 := load 32 c.mem (var k)

/-- The first `n` variables are mapped. -/
def MappedVars (M : Mapped) (n : ℕ) : Prop := ∀ k < n, M.allows [(var k, 4)] = true

/-- A variable can be read. -/
theorem allows_load {n k : ℕ} {a : ℤ} {r : Reg} (hM : MappedVars M n) (hk : k < n)
    (ha : BitVec.ofInt 64 a = var k) :
    M.allows (Op.accesses d (.mov 32 (.reg r) (.loc (.mem (abs a))))) = true := by
  show M.allows [(d.ea (abs a), 4)] = true
  rw [ea_abs, ha]
  exact hM k hk

/-- An operand of `cdq`, and what it puts into `edx`. -/
def Extended (d : Core) (x : BitVec 32) : Prop :=
  d.get 32 .rax = x ∧ d.get 32 .rdx = if x.msb then BitVec.allOnes 32 else 0

/-! ## `math4` -/

/-- The product. -/
theorem math4_product (hM : MappedVars M 4) (c : Core) :
    ∃ d, (∀ is, block (exec M) ((code math4).take 3 ++ is) c = block (exec M) is d) ∧
      d.get 32 .rax = val c 0 * BitVec.ofInt 32 (-5) ∧ d.mem = c.mem := by
  have hfits : Fits M c [.mov 32 Reg.rax (abs 0x600000), .mov 32 Reg.rbx (.imm (-5))] :=
    ⟨allows_load hM (k := 0) (by decide) (by decide), rfl, trivial⟩
  refine ⟨mulled (run [.mov 32 Reg.rax (abs 0x600000), .mov 32 Reg.rbx (.imm (-5))] c) .rbx,
    fun _ ↦ (block_cons_ops hfits).trans block_imul, ?_, ?_⟩
  · simp (disch := decide) only [run_cons, run_nil, Op.exec, Core.write, Core.read, Core.value,
      Core.get_set, get_mulled, reduceCtorEq, if_true, if_false, ea_abs]
    rfl
  · simp only [mem_mulled, run_cons, run_nil, Op.exec, Core.write, Core.mem_set]

/-- The operands of the first division. -/
theorem math4_operands (hM : MappedVars M 4) (c : Core) :
    ∃ d, (∀ is, block (exec M) (((code math4).drop 3).take 5 ++ is) c = block (exec M) is d) ∧
      Extended d (-val c 1) ∧ d.get 32 .rcx = val c 2 ∧ d.get 32 .rbx = c.get 32 .rax ∧
      d.mem = c.mem := by
  have hfits : Fits M c [.mov 32 Reg.rbx Reg.rax, .mov 32 Reg.rax (abs 0x600004),
      .neg 32 Reg.rax] := ⟨rfl, allows_load hM (k := 1) (by decide) (by decide), rfl, trivial⟩
  have hfits' (d : Core) : Fits M d [.mov 32 Reg.rcx (abs 0x600008)] :=
    ⟨allows_load hM (k := 2) (by decide) (by decide), trivial⟩
  refine ⟨run [.mov 32 Reg.rcx (abs 0x600008)] (extended (run [.mov 32 Reg.rbx Reg.rax,
    .mov 32 Reg.rax (abs 0x600004), .neg 32 Reg.rax] c)),
    fun _ ↦ (block_cons_ops hfits).trans (block_cdq.trans (block_cons_ops (hfits' _))),
    ?_, ?_, ?_, ?_⟩
  · constructor <;>
    · simp (disch := decide) only [run_cons, run_nil, Op.exec, Core.write, Core.read, Core.value,
        Core.get_set, Core.get_setFlags, get_extended, reduceCtorEq, if_true, if_false, ea_abs,
        Core.mem_set]
      rfl
  · simp (disch := decide) only [run_cons, run_nil, Op.exec, Core.write, Core.read, Core.value,
      Core.get_set, if_true, ea_abs, mem_extended, Core.mem_set, Core.mem_setFlags]
    rfl
  · simp (disch := decide) only [run_cons, run_nil, Op.exec, Core.write, Core.read, Core.value,
      Core.get_set, Core.get_setFlags, get_extended, reduceCtorEq, if_true, if_false]
  · simp only [run_cons, run_nil, Op.exec, Core.write, Core.mem_set, Core.mem_setFlags,
      mem_extended]

/-- The operands of the second one. -/
theorem math4_operands' (M : Mapped) (c : Core) :
    ∃ d, (∀ is, block (exec M) (((code math4).drop 9).take 3 ++ is) c = block (exec M) is d) ∧
      Extended d (c.get 32 .rbx) ∧ d.get 32 .rbx = c.get 32 .rdx ∧ d.mem = c.mem := by
  have hfits : Fits M c [.mov 32 Reg.rax Reg.rbx, .mov 32 Reg.rbx Reg.rdx] := ⟨rfl, rfl, trivial⟩
  refine ⟨extended (run [.mov 32 Reg.rax Reg.rbx, .mov 32 Reg.rbx Reg.rdx] c),
    fun _ ↦ (block_cons_ops hfits).trans block_cdq, ?_, ?_, ?_⟩
  · constructor <;>
    · simp (disch := decide) only [run_cons, run_nil, Op.exec, Core.write, Core.read, Core.value,
        Core.get_set, get_extended, reduceCtorEq, if_true, if_false]
  · simp (disch := decide) only [run_cons, run_nil, Op.exec, Core.write, Core.read, Core.value,
      Core.get_set, get_extended, reduceCtorEq, if_true, if_false]
  · simp only [run_cons, run_nil, Op.exec, Core.write, Core.mem_set, mem_extended]

/-- The last instruction. -/
theorem block_store {n k : ℕ} {a : ℤ} (hM : MappedVars M n) (hk : k < n)
    (ha : BitVec.ofInt 64 a = var k) : ∃ d,
    block (exec M) [(.op (.mov 32 (abs a) Reg.rax) : Ins Label)] c = some d ∧
      d.mem = store c.mem (var k) (c.get 32 .rax) := by
  have hallows : M.allows (Op.accesses c (.mov 32 (abs a) Reg.rax)) = true := by
    show M.allows [(c.ea (abs a), 4)] = true
    rw [ea_abs, ha]
    exact hM k hk
  refine ⟨Op.exec c (.mov 32 (abs a) Reg.rax), ?_, ?_⟩
  · rw [block, exec_op hallows, Option.bind_some, if_pos rfl, block]
  · rw [Op.exec, Core.write, Core.mem_poke, ea_abs, ha]
    rfl

theorem computes_of_block {p : List (Line (Ins Label) Label)} {cond : Prop} {a : Addr}
    {v : BitVec 32} (hp : (code p).all Ins.straight = true)
    (hnot : ¬ cond → block (exec M) (code p) c = none)
    (h : cond → ∃ d, block (exec M) (code p) c = some d ∧ d.mem = store c.mem a v) :
    Computes M p c cond a v := by
  have hiff (c' : Core) : Reaches (exec M) p ⟨c, 0⟩ ⟨c', (code p).length⟩ ↔
      block (exec M) (code p) c = some c' := reaches_end_iff (straight_of hp)
  refine ⟨⟨fun ⟨c', hc'⟩ ↦ ?_, fun hcond ↦ ?_⟩, fun c' hc' ↦ ?_⟩
  · by_contra hcond
    have hnone := hnot hcond
    rw [(hiff c').1 hc'] at hnone
    exact absurd hnone (by simp)
  · obtain ⟨d, hd, -⟩ := h hcond
    exact ⟨d, (hiff d).2 hd⟩
  · by_cases hcond : cond
    · obtain ⟨d, hd, hmem⟩ := h hcond
      rw [(hiff c').1 hc'] at hd
      exact Option.some.inj hd ▸ hmem
    · have hnone := hnot hcond
      rw [(hiff c').1 hc'] at hnone
      exact absurd hnone (by simp)

/-- **`math4` computes `(var1 * -5) / (-var2 % var3)`**, unless one of the divisions fails. -/
theorem math4_computes (hM : MappedVars M 4) (c : Core) :
    Computes M math4 c
      (val c 2 ≠ 0 ∧ (-val c 1).srem (val c 2) ≠ 0 ∧
        ¬ (val c 0 * BitVec.ofInt 32 (-5) = BitVec.intMin 32 ∧ (-val c 1).srem (val c 2) = -1#32))
      (var 3) ((val c 0 * BitVec.ofInt 32 (-5)).sdiv ((-val c 1).srem (val c 2))) := by
  obtain ⟨d₁, h₁, hprod, hmem₁⟩ := math4_product hM c
  obtain ⟨d₂, h₂, hext₂, hrcx, hrbx, hmem₂⟩ := math4_operands hM d₁
  rw [val, hmem₁, ← val] at hext₂
  rw [val, hmem₁, ← val] at hrcx
  generalize hr : (-val c 1).srem (val c 2) = r
  generalize hd₃ : (d₂.set .rax ((-val c 1).sdiv (val c 2))).set .rdx r = d₃
  have hrbx₃ : d₃.get 32 .rbx = val c 0 * BitVec.ofInt 32 (-5) := by
    rw [← hd₃, Core.get_set_of_ne _ (by decide), Core.get_set_of_ne _ (by decide), hrbx, hprod]
  have hrdx₃ : d₃.get 32 .rdx = r := by
    rw [← hd₃, Core.get_set _ (by decide), if_pos rfl]
  have hmem₃ : d₃.mem = c.mem := by
    rw [← hd₃, Core.mem_set, Core.mem_set, hmem₂, hmem₁]
  obtain ⟨d₄, h₄, hext₄, hrbx₄, hmem₄⟩ := math4_operands' M d₃
  rw [hrbx₃] at hext₄
  rw [hrdx₃] at hrbx₄
  obtain ⟨d₅, h₅, hmem₅⟩ := block_store (M := M) (k := 3) (a := 0x60000c) hM (by decide) (by decide)
    (c := (d₄.set .rax ((val c 0 * BitVec.ofInt 32 (-5)).sdiv r)).set .rdx
      ((val c 0 * BitVec.ofInt 32 (-5)).srem r))
  rw [Core.mem_set, Core.mem_set, hmem₄, hmem₃, Core.get_set_of_ne _ (by decide),
    Core.get_set _ (by decide), if_pos rfl] at hmem₅
  -- the second division is not reached behind a first one that fails
  have hblock : block (exec M) (code math4) c =
      if val c 2 = 0 ∨ (-val c 1 = BitVec.intMin 32 ∧ val c 2 = -1#32) then none
      else if r = 0 ∨ (val c 0 * BitVec.ofInt 32 (-5) = BitVec.intMin 32 ∧ r = -1#32) then none
      else some d₅ := by
    have hfirst : block (exec M) (code math4) c = _ :=
      (h₁ _).trans ((h₂ _).trans (block_idiv hext₂.1 hext₂.2 hrcx))
    rw [hfirst, hr, hd₃, ← h₅]
    exact if_congr Iff.rfl rfl ((h₄ _).trans (block_idiv hext₄.1 hext₄.2 hrbx₄))
  refine computes_of_block rfl (fun hcond ↦ ?_) fun hcond ↦ ⟨d₅, ?_, hmem₅⟩
  · rw [hblock]
    split_ifs with hfail hfail'
    · rfl
    · rfl
    · exact absurd ⟨fun h ↦ hfail (.inl h), fun h ↦ hfail' (.inl h), fun h ↦ hfail' (.inr h)⟩ hcond
  · obtain ⟨hy, hr₀, hover⟩ := hcond
    have hfirst : ¬ (val c 2 = 0 ∨ (-val c 1 = BitVec.intMin 32 ∧ val c 2 = -1#32)) := by
      rintro (h | ⟨hx, hy'⟩)
      · exact hy h
      · rw [hx, hy'] at hr
        exact hr₀ hr.symm
    rw [hblock, if_neg hfirst, if_neg (not_or.2 ⟨hr₀, hover⟩)]

/-- A machine with three variables. -/
def start (x y z : BitVec 32) : Core :=
  ⟨fun _ ↦ 0, ⟨false, false, false, false⟩,
    store (store (store (fun _ ↦ 0) (var 0) x) (var 1) y) (var 2) z⟩

/-- `(7 * -5) / (-3 % 2)` is thirty-five, and `(7 * -5) / (-4 % 2)` is an error. -/
theorem math4_computes_seven :
    (∃ c', Reaches (exec fun _ ↦ true) math4 ⟨start 7 3 2, 0⟩ ⟨c', (code math4).length⟩ ∧
      load 32 c'.mem (var 3) = 35) ∧
    ∀ c', ¬ Reaches (exec fun _ ↦ true) math4 ⟨start 7 4 2, 0⟩ ⟨c', (code math4).length⟩ := by
  have hM : MappedVars (fun _ ↦ true) 4 := fun _ _ ↦ rfl
  constructor
  · obtain ⟨c', hc'⟩ := (math4_computes hM (start 7 3 2)).1.2 (by decide +kernel)
    refine ⟨c', hc', ?_⟩
    rw [(math4_computes hM (start 7 3 2)).2 c' hc', load_store_same (by decide) (by decide)]
    decide +kernel
  · exact fun c' hc' ↦ absurd ((math4_computes hM (start 7 4 2)).1.1 ⟨c', hc'⟩) (by decide +kernel)

/-! ## `math5` and `math3` -/

/-- The operands of the division of `math5`. -/
theorem math5_operands (hM : MappedVars M 3) (c : Core) :
    ∃ d, (∀ is, block (exec M) ((code math5).take 7 ++ is) c = block (exec M) is d) ∧
      Extended d (val c 0 * -val c 1) ∧ d.get 32 .rcx = val c 2 - c.get 32 .rbx ∧
      d.mem = c.mem := by
  have hfits : Fits M c [.mov 32 Reg.rax (abs 0x600000), .mov 32 Reg.rcx (abs 0x600004),
      .neg 32 Reg.rcx] := ⟨allows_load hM (k := 0) (by decide) (by decide),
    allows_load hM (k := 1) (by decide) (by decide), rfl, trivial⟩
  have hfits' (d : Core) : Fits M d [.mov 32 Reg.rcx (abs 0x600008), .sub 32 Reg.rcx Reg.rbx] :=
    ⟨allows_load hM (k := 2) (by decide) (by decide), rfl, trivial⟩
  generalize hd : mulled (run [.mov 32 Reg.rax (abs 0x600000), .mov 32 Reg.rcx (abs 0x600004),
    .neg 32 Reg.rcx] c) .rcx = d
  have hrax : d.get 32 .rax = val c 0 * -val c 1 := by
    subst hd
    simp (disch := decide) only [run_cons, run_nil, Op.exec, Core.write, Core.read, Core.value,
      Core.get_set, Core.get_setFlags, Core.mem_set, get_mulled, reduceCtorEq, if_true, if_false,
      ea_abs]
    rfl
  have hrbx : d.get 32 .rbx = c.get 32 .rbx := by
    subst hd
    simp (disch := decide) only [run_cons, run_nil, Op.exec, Core.write, Core.get_set,
      Core.get_setFlags, get_mulled, reduceCtorEq, if_false]
  have hmem : d.mem = c.mem := by
    subst hd
    simp only [mem_mulled, run_cons, run_nil, Op.exec, Core.write, Core.mem_set, Core.mem_setFlags]
  refine ⟨extended (run [.mov 32 Reg.rcx (abs 0x600008), .sub 32 Reg.rcx Reg.rbx] d), fun is ↦ ?_,
    ?_, ?_, ?_⟩
  · subst hd
    exact (block_cons_ops hfits).trans
      (block_imul.trans ((block_cons_ops (hfits' _)).trans block_cdq))
  · constructor <;>
    · simp (disch := decide) only [run_cons, run_nil, Op.exec, Core.write, Core.get_set,
        Core.get_setFlags, get_extended, reduceCtorEq, if_true, if_false, hrax]
  · rw [val, ← hmem, ← hrbx]
    simp (disch := decide) only [run_cons, run_nil, Op.exec, Core.write, Core.read, Core.value,
      Core.get_set, Core.get_setFlags, get_extended, reduceCtorEq, if_true, if_false, ea_abs]
    rfl
  · simp only [run_cons, run_nil, Op.exec, Core.write, Core.mem_set, Core.mem_setFlags,
      mem_extended, hmem]

/-- **`math5` computes `(var1 * -var2) / (var3 - ebx)`**, unless the division fails. -/
theorem math5_computes (hM : MappedVars M 3) (c : Core) :
    Computes M math5 c
      (val c 2 ≠ c.get 32 .rbx ∧
        ¬ (val c 0 * -val c 1 = BitVec.intMin 32 ∧ val c 2 - c.get 32 .rbx = -1#32))
      (var 2) ((val c 0 * -val c 1).sdiv (val c 2 - c.get 32 .rbx)) := by
  obtain ⟨d, h, hext, hrcx, hmem⟩ := math5_operands hM c
  obtain ⟨e, he, hmem'⟩ := block_store (M := M) (k := 2) (a := 0x600008) hM (by decide) (by decide)
    (c := (d.set .rax ((val c 0 * -val c 1).sdiv (val c 2 - c.get 32 .rbx))).set .rdx
      ((val c 0 * -val c 1).srem (val c 2 - c.get 32 .rbx)))
  rw [Core.mem_set, Core.mem_set, hmem, Core.get_set_of_ne _ (by decide),
    Core.get_set _ (by decide), if_pos rfl] at hmem'
  have hzero : val c 2 - c.get 32 .rbx = 0 ↔ val c 2 = c.get 32 .rbx := by
    bv_omega
  have hblock : block (exec M) (code math5) c =
      if val c 2 = c.get 32 .rbx ∨ (val c 0 * -val c 1 = BitVec.intMin 32 ∧
        val c 2 - c.get 32 .rbx = -1#32) then none else some e :=
    ((h _).trans (block_idiv hext.1 hext.2 hrcx)).trans
      (if_congr (or_congr hzero Iff.rfl) rfl he)
  refine computes_of_block rfl (fun hcond ↦ ?_) fun hcond ↦ ⟨e, ?_, hmem'⟩
  · rw [hblock, if_pos]
    by_contra hfail
    exact hcond ⟨fun h ↦ hfail (.inl h), fun h ↦ hfail (.inr h)⟩
  · rw [hblock, if_neg (not_or.2 hcond)]

/-- `(6 * -2) / (5 - 0)` is minus two, and `(6 * -2) / (0 - 0)` is an error. -/
theorem math5_computes_six :
    (∃ c', Reaches (exec fun _ ↦ true) math5 ⟨start 6 2 5, 0⟩ ⟨c', (code math5).length⟩ ∧
      load 32 c'.mem (var 2) = -2) ∧
    ∀ c', ¬ Reaches (exec fun _ ↦ true) math5 ⟨start 6 2 0, 0⟩ ⟨c', (code math5).length⟩ := by
  have hM : MappedVars (fun _ ↦ true) 3 := fun _ _ ↦ rfl
  constructor
  · obtain ⟨c', hc'⟩ := (math5_computes hM (start 6 2 5)).1.2 (by decide +kernel)
    refine ⟨c', hc', ?_⟩
    rw [(math5_computes hM (start 6 2 5)).2 c' hc', load_store_same (by decide) (by decide)]
    decide +kernel
  · exact fun c' hc' ↦ absurd ((math5_computes hM (start 6 2 0)).1.1 ⟨c', hc'⟩) (by decide +kernel)

/-- The operands of the division of `math3`. -/
theorem math3_operands (hM : MappedVars M 3) (c : Core) :
    ∃ d, (∀ is, block (exec M) ((code math3).take 5 ++ is) c = block (exec M) is d) ∧
      d.get 32 .rax = val c 0 * 5 ∧ d.get 32 .rdx = 0 ∧ d.get 32 .rbx = val c 1 - 3 ∧
      d.mem = c.mem := by
  have hfits : Fits M c [.mov 32 Reg.rdx (.imm 0), .mov 32 Reg.rax (abs 0x600000),
      .mov 32 Reg.rbx (abs 0x600004)] := ⟨rfl, allows_load hM (k := 0) (by decide) (by decide),
    allows_load hM (k := 1) (by decide) (by decide), trivial⟩
  generalize hd : run [.mov 32 Reg.rdx (.imm 0), .mov 32 Reg.rax (abs 0x600000),
    .mov 32 Reg.rbx (abs 0x600004)] c = d
  have hrax : d.get 32 .rax = val c 0 := by
    subst hd
    simp (disch := decide) only [run_cons, run_nil, Op.exec, Core.write, Core.read, Core.value,
      Core.get_set, Core.mem_set, reduceCtorEq, if_true, if_false, ea_abs]
    rfl
  have hrdx : d.get 32 .rdx = 0 := by
    subst hd
    simp (disch := decide) only [run_cons, run_nil, Op.exec, Core.write, Core.value,
      Core.get_set, reduceCtorEq, if_true, if_false]
    rfl
  have hrbx : d.get 32 .rbx = val c 1 := by
    subst hd
    simp (disch := decide) only [run_cons, run_nil, Op.exec, Core.write, Core.read, Core.value,
      Core.get_set, Core.mem_set, if_true, ea_abs]
    rfl
  have hmem : d.mem = c.mem := by
    subst hd
    simp only [run_cons, run_nil, Op.exec, Core.write, Core.mem_set]
  have hfive (x : BitVec 32) : x + x * BitVec.ofNat 32 4 = x * 5 := by
    bv_omega
  refine ⟨run [.sub 32 Reg.rbx (.imm 3)] (d.set .rax (val c 0 * 5)), fun is ↦ ?_, ?_, ?_, ?_, ?_⟩
  · have hlea : block (exec M) ((code math3).take 5 ++ is) c =
        block (exec M) ([.op (.sub 32 Reg.rbx (.imm 3))] ++ is)
          (d.set .rax (d.get 32 .rax + d.get 32 .rax * BitVec.ofNat 32 4)) := by
      subst hd
      exact block_cons_ops hfits
    rw [hlea, hrax, hfive]
    rfl
  · simp (disch := decide) only [run_cons, run_nil, Op.exec, Core.write, Core.get_set,
      Core.get_setFlags, reduceCtorEq, if_true, if_false]
  · simp (disch := decide) only [run_cons, run_nil, Op.exec, Core.write, Core.get_set,
      Core.get_setFlags, reduceCtorEq, if_false, hrdx]
  · rw [← hrbx]
    simp (disch := decide) only [run_cons, run_nil, Op.exec, Core.write, Core.read, Core.value,
      Core.get_set, Core.get_setFlags, reduceCtorEq, if_true, if_false]
    rfl
  · simp only [run_cons, run_nil, Op.exec, Core.write, Core.mem_set, Core.mem_setFlags, hmem]

/-- **`math3` computes `(var1 * 5) / (var2 - 3)`**, unless it divides by zero. -/
theorem math3_computes (hM : MappedVars M 3) (c : Core) :
    Computes M math3 c (val c 1 ≠ 3) (var 2) (val c 0 * 5 / (val c 1 - 3)) := by
  obtain ⟨d, h, hrax, hrdx, hrbx, hmem⟩ := math3_operands hM c
  obtain ⟨e, he, hmem'⟩ := block_store (M := M) (k := 2) (a := 0x600008) hM (by decide) (by decide)
    (c := (d.set .rax (val c 0 * 5 / (val c 1 - 3))).set .rdx (val c 0 * 5 % (val c 1 - 3)))
  rw [Core.mem_set, Core.mem_set, hmem, Core.get_set_of_ne _ (by decide),
    Core.get_set _ (by decide), if_pos rfl] at hmem'
  have hzero : val c 1 - 3 = 0 ↔ val c 1 = 3 := by
    bv_omega
  have hblock : block (exec M) (code math3) c = if val c 1 = 3 then none else some e :=
    ((h _).trans (block_div hrax hrdx hrbx)).trans (if_congr hzero rfl he)
  refine computes_of_block rfl (fun hcond ↦ ?_) fun hne ↦ ⟨e, ?_, hmem'⟩
  · rw [hblock, if_pos (not_not.1 hcond)]
  · rw [hblock, if_neg hne]

/-- `(2 * 5) / (1 - 3)` is zero, as nothing has a sign, and `(2 * 5) / (3 - 3)` is an error. -/
theorem math3_computes_two :
    (∃ c', Reaches (exec fun _ ↦ true) math3 ⟨start 2 1 0, 0⟩ ⟨c', (code math3).length⟩ ∧
      load 32 c'.mem (var 2) = 0) ∧
    ∀ c', ¬ Reaches (exec fun _ ↦ true) math3 ⟨start 2 3 0, 0⟩ ⟨c', (code math3).length⟩ := by
  have hM : MappedVars (fun _ ↦ true) 3 := fun _ _ ↦ rfl
  constructor
  · obtain ⟨c', hc'⟩ := (math3_computes hM (start 2 1 0)).1.2 (by decide +kernel)
    refine ⟨c', hc', ?_⟩
    rw [(math3_computes hM (start 2 1 0)).2 c' hc', load_store_same (by decide) (by decide)]
    decide +kernel
  · exact fun c' hc' ↦ absurd ((math3_computes hM (start 2 3 0)).1.1 ⟨c', hc'⟩) (by decide +kernel)

end Arithmetic
