import NctuUnix.Lib.Amd64

/-!
# A recursive function

`asm/assembly/recur.asm` calls a function `r` that calls itself twice.  The argument is on the
stack, above the return address; `r` keeps `rbp` there, and the first of the two results while it
waits for the second one.  The stack pointer is put back with `add esp, 8`, which clears the upper
half of `rsp`, so the stack has to lie below 4 GiB.

## Main results

* `call_reaches` — what a call does, given what `r` does for its argument.
* `r_reaches` — a call of `r` returns the recurrence, and keeps `rsp`, `rbp` and what is above them.
* `recur_reaches` — the program ends with `r 25` in `rax`.
-/

set_option autoImplicit false

namespace Recur

open Bytes Amd64
open X86 (Reg)

/-! ## The program -/

/-- The labels. -/
inductive Label
  | r | Return1 | Return2 | L1 | L2 | exit | done
  deriving DecidableEq, Repr

/-- `[rbp+16]` -/
def argument : Ea := ⟨64, .rbp, 1, 16⟩

/-- `asm/assembly/recur.asm` -/
def recur : List (Item Label) :=
  [.instr (.op (.push (.imm 25))),
   .instr (.call .r),
   .instr (.op (.add 32 Reg.rsp (.imm 8))),
   .instr (.jmp .exit),
   .label .r,
   .instr (.op (.push Reg.rbp)),
   .instr (.op (.mov 64 Reg.rbp Reg.rsp)),
   .instr (.op (.mov 64 Reg.rbx argument)),
   .instr (.op (.cmp 64 Reg.rbx (.imm 0))),
   .instr (.jcc .le .L1),
   .instr (.op (.cmp 64 Reg.rbx (.imm 1))),
   .instr (.jcc .e .L2),
   .instr (.op (.dec 64 Reg.rbx)),
   .instr (.op (.push Reg.rbx)),
   .instr (.call .r),
   .instr (.op (.add 32 Reg.rsp (.imm 8))),
   .label .Return1,
   .instr (.op (.mov 64 Reg.rcx (.imm 2))),
   .instr (.op (.mul Reg.rcx)),
   .instr (.op (.mov 64 Reg.rdx Reg.rax)),
   .instr (.op (.push Reg.rdx)),
   .instr (.op (.mov 64 Reg.rbx argument)),
   .instr (.op (.sub 64 Reg.rbx (.imm 2))),
   .instr (.op (.push Reg.rbx)),
   .instr (.call .r),
   .instr (.op (.add 32 Reg.rsp (.imm 8))),
   .label .Return2,
   .instr (.op (.mov 64 Reg.rcx (.imm 3))),
   .instr (.op (.mul Reg.rcx)),
   .instr (.op (.pop .rdx)),
   .instr (.op (.add 64 Reg.rax Reg.rdx)),
   .instr (.op (.pop .rbp)),
   .instr .ret,
   .label .L1,
   .instr (.op (.mov 64 Reg.rax (.imm 0))),
   .instr (.op (.pop .rbp)),
   .instr .ret,
   .label .L2,
   .instr (.op (.mov 64 Reg.rax (.imm 1))),
   .instr (.op (.pop .rbp)),
   .instr .ret,
   .label .exit,
   .label .done]

/-! ## What it computes

The argument is a signed number.  A call takes a frame of 16 bytes, and for an argument above 1 it
pushes the first result and the next argument, 24 bytes in all for each step down.
-/

/-- The recurrence. -/
def r (n : ℤ) : ℤ :=
  if n ≤ 0 then 0 else if n = 1 then 1 else 2 * r (n - 1) + 3 * r (n - 2)
termination_by n.toNat

/-- The bytes that a call takes below its argument. -/
def depth (n : ℤ) : ℕ := if n ≤ 1 then 16 else 24 * n.toNat

/-- There is room for a call with argument `n` at `sp`, below 4 GiB. -/
structure Room (M : Mapped) (sp n : Word) : Prop where
  enough : depth n.toInt ≤ sp.toNat
  below : sp.toNat ≤ 2 ^ 32
  mapped : ∀ a : Addr, sp.toNat ≤ a.toNat + depth n.toInt → a.toNat < sp.toNat + 8 → M a = true

/-- What a call from `c` with argument `n` comes back with. -/
structure Returned (n : Word) (c c' : Core) : Prop where
  rax : c'.gpr .rax = BitVec.ofInt 64 (r n.toInt)
  rsp : c'.gpr .rsp = c.gpr .rsp
  rbp : c'.gpr .rbp = c.gpr .rbp
  mem : ∀ a : Addr, (c.gpr .rsp).toNat ≤ a.toNat → c'.mem a = c.mem a

variable {P : Image recur} {M : Mapped} {n sp a : Word} {c d : Core} {m m' : Mem} {ret : Addr}
  {k : ℕ}

/-- The way out at `L1`. -/
theorem r_of_nonpos {n : ℤ} (h : n ≤ 0) : r n = 0 := by rw [r, if_pos h]

/-- The way out at `L2`. -/
theorem r_one : r 1 = 1 := by rw [r, if_neg (by decide), if_pos rfl]

/-- The two calls. -/
theorem r_of_one_lt {n : ℤ} (h : 1 < n) : r n = 2 * r (n - 1) + 3 * r (n - 2) := by
  rw [r, if_neg (by omega), if_neg (by omega)]

/-! ## The stack

The first inner call starts 24 bytes further down and the second one 32, with the first result
between them; both have enough room, because their arguments are smaller.
-/

/-- Every call has a frame. -/
theorem depth_pos (n : ℤ) : 16 ≤ depth n := by
  rw [depth]
  split <;> omega

/-- The first inner call fits below its caller. -/
theorem depth_pred {n : ℤ} (h : 1 < n) : depth (n - 1) + 24 ≤ depth n := by
  simp only [depth]
  split <;> split <;> omega

/-- So does the second one. -/
theorem depth_pred_pred {n : ℤ} (h : 1 < n) : depth (n - 2) + 32 ≤ depth n := by
  simp only [depth]
  split <;> split <;> omega

/-- There is less room below. -/
theorem Room.sub (h : Room M sp n) {x : ℕ} {n' : Word} (hx : depth n'.toInt + x ≤ depth n.toInt) :
    Room M (sp - BitVec.ofNat 64 x) n' := by
  have henough := h.enough
  have hbelow := h.below
  have hsp : (sp - BitVec.ofNat 64 x).toNat = sp.toNat - x := by bv_omega
  refine ⟨by omega, by omega, fun a ha ha' ↦ h.mapped a ?_ ?_⟩ <;> omega

/-- What the call itself touches is mapped. -/
theorem Room.allows (h : Room M sp n) (ha : sp.toNat ≤ a.toNat + depth n.toInt)
    (ha' : a.toNat ≤ sp.toNat) : M.allows [(a, 8)] = true := by
  have hbelow := h.below
  refine Mapped.allows_iff.2 fun p hp k hk ↦ ?_
  obtain rfl := List.mem_singleton.1 hp
  dsimp only at hk ⊢
  exact h.mapped _ (by bv_omega) (by bv_omega)

/-- A quadword that has been stored. -/
theorem load_store_quad (m : Mem) (a : Addr) (v : Word) : load 64 (store m a v) a = v :=
  load_store_same rfl (by decide)

/-- A load above `sp` depends on nothing below. -/
theorem load_above (h : ∀ x : Addr, sp.toNat ≤ x.toNat → m x = m' x) (ha : sp.toNat ≤ a.toNat)
    (ha' : a.toNat + 8 ≤ 2 ^ 64) : load 64 m a = load 64 m' a :=
  load_congr fun k hk ↦ h _ (by bv_omega)

/-- A store below `sp` changes nothing above. -/
theorem store_below (v : Word) (ha : a.toNat + 8 ≤ sp.toNat) {x : Addr} (hx : sp.toNat ≤ x.toNat) :
    store m a v x = m x :=
  store_of_apart (by bv_omega)

/-! ## A call from inside

`InFrame` is what the body can rely on between its instructions: where the frame is, what is saved
in it, and that everything from the argument on is as the caller left it.  The inner calls keep it,
because they work below the frame (`InFrame.above`).
-/

/-- A machine in the body of a call that was made in `c`. -/
structure InFrame (c : Core) (ret : Addr) (d : Core) : Prop where
  rbp : d.gpr .rbp = c.gpr .rsp - 16#64
  saved : load 64 d.mem (c.gpr .rsp - 16#64) = c.gpr .rbp
  back : load 64 d.mem (c.gpr .rsp - 8#64) = ret
  mem : ∀ a : Addr, (c.gpr .rsp).toNat ≤ a.toNat → d.mem a = c.mem a

/-- The argument is two words above the frame. -/
theorem ea_argument : d.ea argument = d.gpr .rbp + 16#64 := by
  rw [Core.ea]
  show ((d.gpr .rbp).setWidth 64 * BitVec.ofNat 64 1 + BitVec.ofInt 64 16).setWidth 64 = _
  rw [BitVec.setWidth_eq, BitVec.setWidth_eq]
  show d.gpr .rbp * 1#64 + 16 = _
  rw [BitVec.mul_one]
  rfl

/-- The memory with the frame: the return address and the caller's `rbp`. -/
def framed (c : Core) (ret : Addr) : Mem :=
  store (store c.mem (c.gpr .rsp - 8#64) ret) (c.gpr .rsp - 16#64) (c.gpr .rbp)

/-- The frame lies below the argument. -/
theorem framed_above (h : 16 ≤ (c.gpr .rsp).toNat) (ha : (c.gpr .rsp).toNat ≤ a.toNat) :
    framed c ret a = c.mem a := by
  rw [framed, store_below _ (by bv_omega) ha, store_below _ (by bv_omega) ha]

/-- The return address is not overwritten by `rbp`. -/
theorem framed_back : load 64 (framed c ret) (c.gpr .rsp - 8#64) = ret := by
  rw [framed, load_store_of_apart, load_store_quad]
  refine ⟨?_, ?_⟩ <;> bv_omega

/-- The caller's `rbp` lies at the bottom. -/
theorem framed_saved : load 64 (framed c ret) (c.gpr .rsp - 16#64) = c.gpr .rbp :=
  load_store_quad _ _ _

/-- The frame is built and the argument is loaded. -/
def prologue : List Op := [.push Reg.rbp, .mov 64 Reg.rbp Reg.rsp, .mov 64 Reg.rbx argument]

theorem rsp_prologue : (run prologue (c.push ret)).gpr .rsp = c.gpr .rsp - 8#64 - 8#64 := by
  rw [prologue, run_cons, run_cons, run_cons, run_nil]
  simp

theorem rbp_prologue : (run prologue (c.push ret)).gpr .rbp = c.gpr .rsp - 8#64 - 8#64 := by
  rw [prologue, run_cons, run_cons, run_cons, run_nil]
  simp

theorem mem_prologue : (run prologue (c.push ret)).mem =
    store (store c.mem (c.gpr .rsp - 8#64) ret) (c.gpr .rsp - 8#64 - 8#64) (c.gpr .rbp) := by
  rw [prologue, run_cons, run_cons, run_cons, run_nil]
  simp

theorem rbx_prologue : (run prologue (c.push ret)).gpr .rbx =
    load 64 (run prologue (c.push ret)).mem (c.gpr .rsp - 8#64 - 8#64 + 16#64) := by
  rw [prologue, run_cons, run_cons, run_cons, run_nil]
  simp [ea_argument]

/-- **The way in**: the frame is there, and the argument is in `rbx`. -/
theorem prologue_reaches (P : Image recur) (h : Room M (c.gpr .rsp) n)
    (hn : load 64 c.mem (c.gpr .rsp) = n) (ret : Addr) :
    ∃ d, Reaches P M ⟨c.push ret, P.addr .r⟩ ⟨d, P.start 7⟩ ∧ InFrame c ret d ∧
      d.gpr .rsp = c.gpr .rsp - 16#64 ∧ d.gpr .rbx = n := by
  have hdepth := depth_pos n.toInt
  have henough := h.enough
  have hbelow := h.below
  have hsp : c.gpr .rsp - 8#64 - 8#64 = c.gpr .rsp - 16#64 := by bv_omega
  have hmem : (run prologue (c.push ret)).mem = framed c ret := by rw [mem_prologue, hsp, framed]
  have habove (a : Addr) (ha : (c.gpr .rsp).toNat ≤ a.toNat) : framed c ret a = c.mem a :=
    framed_above (hdepth.trans henough) ha
  refine ⟨run prologue (c.push ret), Reaches.ops (k := 4) prologue rfl ⟨?_, rfl, ?_, trivial⟩,
    ⟨?_, ?_, ?_, ?_⟩, ?_, ?_⟩
  · simpa [hsp] using h.allows (a := c.gpr .rsp - 16#64) (by bv_omega) (by bv_omega)
  · simpa [ea_argument, hsp, BitVec.sub_add_cancel] using h.allows (Nat.le_add_right _ _) le_rfl
  · rw [rbp_prologue, hsp]
  · rw [hmem, framed_saved]
  · rw [hmem, framed_back]
  · rw [hmem]
    exact habove
  · rw [rsp_prologue, hsp]
  · rw [rbx_prologue, hmem, hsp, BitVec.sub_add_cancel]
    exact (load_above habove le_rfl (by omega)).trans hn

/-- The way out, from each of the three places. -/
theorem epilogue_reaches (P : Image recur) (h : Room M (c.gpr .rsp) n) (hframe : InFrame c ret d)
    (hsp : d.gpr .rsp = c.gpr .rsp - 16#64) (hrax : d.gpr .rax = BitVec.ofInt 64 (r n.toInt))
    (hpop : (instrs recur)[k]? = some (.op (.pop .rbp)))
    (hret : (instrs recur)[k + 1]? = some .ret) :
    ∃ c', Reaches P M ⟨d, P.start k⟩ ⟨c', ret⟩ ∧ Returned n c c' := by
  have hdepth := depth_pos n.toInt
  have henough := h.enough
  have hbelow := h.below
  have hup : c.gpr .rsp - 16#64 + 8#64 = c.gpr .rsp - 8#64 := by bv_omega
  have hfirst : Reaches P M ⟨d, P.start k⟩ ⟨d.drop.set .rbp d.top, P.start (k + 1)⟩ := by
    refine Reaches.instr hpop ?_
    simpa [Instr.accesses, hsp] using
      h.allows (a := c.gpr .rsp - 16#64) (by bv_omega) (by bv_omega)
  have hsecond : Reaches P M ⟨d.drop.set .rbp d.top, P.start (k + 1)⟩
      ⟨(d.drop.set .rbp d.top).drop, (d.drop.set .rbp d.top).top⟩ := by
    refine Reaches.ret hret ?_
    simpa [hsp, hup] using h.allows (a := c.gpr .rsp - 8#64) (by bv_omega) (by bv_omega)
  have htop : (d.drop.set .rbp d.top).top = ret := by
    simpa [hsp, hup] using hframe.back
  rw [htop] at hsecond
  refine ⟨_, hfirst.trans hsecond, ?_, ?_, ?_, hframe.mem⟩
  · exact hrax
  · have hback : c.gpr .rsp - 16#64 + 8#64 + 8#64 = c.gpr .rsp := by
      rw [hup, BitVec.sub_add_cancel]
    exact (congrArg (· + 8#64 + 8#64) hsp).trans hback
  · simpa [hsp] using hframe.saved

/-- `r` does what it should for the argument `n`, wherever it is called from. -/
def Correct (P : Image recur) (M : Mapped) (n : Word) : Prop :=
  ∀ (c : Core) (ret : Addr), Room M (c.gpr .rsp) n → load 64 c.mem (c.gpr .rsp) = n →
    ∃ c', Reaches P M ⟨c.push ret, P.addr .r⟩ ⟨c', ret⟩ ∧ Returned n c c'

/-- `add esp, 8` clears the upper half of `rsp`, which is nothing below 4 GiB. -/
theorem add_esp (h : 8 ≤ sp.toNat) (h' : sp.toNat < 2 ^ 32) :
    ((sp - 8#64).setWidth 32 + BitVec.ofInt 32 8).setWidth 64 = sp := by
  apply BitVec.eq_of_toNat_eq
  simp only [BitVec.toNat_setWidth, BitVec.toNat_add, BitVec.toNat_sub, BitVec.toNat_ofNat,
    show (BitVec.ofInt 32 8).toNat = 8 from rfl]
  omega

/-- **A call**: the argument is pushed, `r` is called and the stack pointer is put back. -/
theorem call_reaches {P : Image recur} (hcorrect : Correct P M n) (src : Src)
    (hsrc : d.value 64 src = n) (haccess : src.accesses d 64 = [])
    (hroom : Room M (d.gpr .rsp - 8#64) n) (hsp : (d.gpr .rsp).toNat < 2 ^ 32)
    (hpush : (instrs recur)[k]? = some (.op (.push src)))
    (hcall : (instrs recur)[k + 1]? = some (.call .r))
    (hadd : (instrs recur)[k + 2]? = some (.op (.add 32 Reg.rsp (.imm 8)))) :
    ∃ d', Reaches P M ⟨d, P.start k⟩ ⟨d', P.start (k + 3)⟩ ∧ Returned n d d' := by
  have hdepth := depth_pos n.toInt
  have henough := hroom.enough
  have hbelow := hroom.below
  have height : 8 ≤ (d.gpr .rsp).toNat := by bv_omega
  have hpushed : (d.push n).gpr .rsp = d.gpr .rsp - 8#64 := by simp
  -- the argument, the call, what `r` does, and the stack pointer
  have hfirst : Reaches P M ⟨d, P.start k⟩ ⟨d.push n, P.start (k + 1)⟩ := by
    rw [← hsrc]
    refine Reaches.instr hpush ?_
    show M.allows (src.accesses d 64 ++ [(d.gpr .rsp - 8#64, 8)]) = true
    rw [haccess, List.nil_append]
    exact hroom.allows (Nat.le_add_right _ _) le_rfl
  have hsecond : Reaches P M ⟨d.push n, P.start (k + 1)⟩
      ⟨(d.push n).push (P.start (k + 2)), P.addr .r⟩ := by
    refine Reaches.call hcall ?_
    simpa using hroom.allows (a := d.gpr .rsp - 8#64 - 8#64) (by bv_omega) (by bv_omega)
  obtain ⟨c', hthird, hret⟩ := hcorrect (d.push n) (P.start (k + 2)) (hpushed ▸ hroom)
    (by simpa using load_store_quad ..)
  have hfourth := Reaches.instr (P := P) (M := M) (c := c') hadd rfl
  refine ⟨_, hfirst.trans (hsecond.trans (hthird.trans hfourth)), ?_, ?_, ?_, fun a ha ↦ ?_⟩
  · simpa using hret.rax
  · have hesp : c'.get 32 .rsp = (d.gpr .rsp - 8#64).setWidth 32 := by
      rw [Core.get, hret.rsp, hpushed]
    simpa [hesp] using add_esp height hsp
  · simpa using hret.rbp
  · have hbehind : ((d.push n).gpr .rsp).toNat ≤ a.toNat := by
      rw [hpushed]
      bv_omega
    exact (hret.mem a hbehind).trans (store_below n (by bv_omega) ha)

/-! ## The body

The two comparisons lead to one of three places.  The last of them holds two calls, with `doubled`
between them and `tripled` behind; each piece has a lemma, and `calls_reach` puts them together.
-/

/-- The comparisons set flags only. -/
theorem InFrame.setFlags (h : InFrame c ret d) (f : X86.Flags) : InFrame c ret (d.setFlags f) :=
  ⟨h.rbp, h.saved, h.back, h.mem⟩

/-- A frame is not touched from below. -/
theorem InFrame.above {d' : Core} (h : InFrame c ret d) (h16 : 16 ≤ (c.gpr .rsp).toNat)
    (hrbp : d'.gpr .rbp = d.gpr .rbp)
    (hmem : ∀ a : Addr, (c.gpr .rsp - 16#64).toNat ≤ a.toNat → d'.mem a = d.mem a) :
    InFrame c ret d' := by
  have hload (x : Addr) (hx : (c.gpr .rsp - 16#64).toNat ≤ x.toNat)
      (hx' : x.toNat ≤ (c.gpr .rsp).toNat - 8) : load 64 d'.mem x = load 64 d.mem x :=
    load_above hmem hx (by bv_omega)
  refine ⟨hrbp.trans h.rbp, ?_, ?_, fun a ha ↦ (hmem a (by bv_omega)).trans (h.mem a ha)⟩
  · rw [hload _ le_rfl (by bv_omega), h.saved]
  · rw [hload _ (by bv_omega) (by bv_omega), h.back]

/-- The two comparisons. -/
theorem tests_reach (P : Image recur) (hrbx : d.gpr .rbx = n) :
    ∃ f, Reaches P M ⟨d, P.start 7⟩ ⟨d.setFlags f, if n.toInt ≤ 0 then P.addr .L1
      else if n = 1 then P.addr .L2 else P.start 11⟩ := by
  have hcmp : (instrs recur)[7]? = some (.op (.cmp 64 Reg.rbx (.imm 0))) := rfl
  have hjle : (instrs recur)[8]? = some (.jcc .le .L1) := rfl
  have hcmp' : (instrs recur)[9]? = some (.op (.cmp 64 Reg.rbx (.imm 1))) := rfl
  have hje : (instrs recur)[10]? = some (.jcc .e .L2) := rfl
  have hzero : Reaches P M ⟨d, P.start 7⟩ ⟨d.setFlags (flagsSub n 0#64), P.start 8⟩ := by
    simpa [hrbx] using Reaches.op (P := P) (M := M) (c := d) hcmp rfl
  have hone : Reaches P M ⟨d.setFlags (flagsSub n 0#64), P.start 9⟩
      ⟨d.setFlags (flagsSub n 1#64), P.start 10⟩ := by
    simpa [hrbx, Core.setFlags] using
      Reaches.op (P := P) (M := M) (c := d.setFlags (flagsSub n 0#64)) hcmp' rfl
  by_cases hneg : n.toInt ≤ 0
  · rw [if_pos hneg]
    exact ⟨_, hzero.trans (.jcc_taken hjle (by simpa using hneg))⟩
  · have hboth := hzero.trans ((Reaches.jcc_passed hjle (by simpa using hneg)).trans hone)
    rw [if_neg hneg]
    by_cases heq : n = 1
    · rw [if_pos heq]
      exact ⟨_, hboth.trans (.jcc_taken hje (by simpa using heq))⟩
    · rw [if_neg heq]
      exact ⟨_, hboth.trans (.jcc_passed hje (by simpa using heq))⟩

/-- The lower half of a product. -/
theorem ofNat_toNat_mul (v : Word) (k : ℕ) :
    BitVec.ofNat 64 (v.toNat * k) = v * BitVec.ofNat 64 k := by
  rw [BitVec.ofNat_mul, BitVec.ofNat_toNat, BitVec.setWidth_eq]

/-- The first result is doubled and kept, and the second argument is there. -/
def doubled : List Op :=
  [.mov 64 Reg.rcx (.imm 2), .mul Reg.rcx, .mov 64 Reg.rdx Reg.rax, .push Reg.rdx,
    .mov 64 Reg.rbx argument, .sub 64 Reg.rbx (.imm 2)]

theorem rsp_doubled : (run doubled d).gpr .rsp = d.gpr .rsp - 8#64 := by
  rw [doubled, run_cons, run_cons, run_cons, run_cons, run_cons, run_cons, run_nil]
  simp

theorem mem_doubled :
    (run doubled d).mem = store d.mem (d.gpr .rsp - 8#64) (d.gpr .rax * 2#64) := by
  rw [doubled, run_cons, run_cons, run_cons, run_cons, run_cons, run_cons, run_nil]
  simp [ofNat_toNat_mul]

theorem rbx_doubled :
    (run doubled d).gpr .rbx = load 64 (run doubled d).mem (d.gpr .rbp + 16#64) - 2#64 := by
  rw [doubled, run_cons, run_cons, run_cons, run_cons, run_cons, run_cons, run_nil]
  simp [ea_argument]

/-- Between the calls: twice the first result is on the stack, the second argument in `rbx`. -/
theorem doubled_reaches (P : Image recur) (h : Room M (c.gpr .rsp) n) (hn : 24 ≤ depth n.toInt)
    (harg : load 64 c.mem (c.gpr .rsp) = n) (hframe : InFrame c ret d)
    (hsp : d.gpr .rsp = c.gpr .rsp - 16#64) :
    ∃ d', Reaches P M ⟨d, P.addr .Return1⟩ ⟨d', P.start 21⟩ ∧ InFrame c ret d' ∧
      d'.gpr .rsp = c.gpr .rsp - 24#64 ∧ d'.gpr .rbx = n - 2#64 ∧
      load 64 d'.mem (c.gpr .rsp - 24#64) = d.gpr .rax * 2#64 := by
  have henough := h.enough
  have hbelow := h.below
  have hdown : c.gpr .rsp - 16#64 - 8#64 = c.gpr .rsp - 24#64 := by bv_omega
  have hmem : (run doubled d).mem = store d.mem (c.gpr .rsp - 24#64) (d.gpr .rax * 2#64) := by
    rw [mem_doubled, hsp, hdown]
  have hframe' : InFrame c ret (run doubled d) := by
    refine hframe.above (by omega) rfl fun a ha ↦ ?_
    rw [hmem]
    exact store_below _ (by bv_omega) ha
  refine ⟨run doubled d,
    Reaches.ops (k := 15) doubled rfl ⟨rfl, rfl, rfl, ?_, ?_, rfl, trivial⟩, hframe', ?_, ?_, ?_⟩
  · simpa [hsp, hdown] using h.allows (a := c.gpr .rsp - 24#64) (by bv_omega) (by bv_omega)
  · simpa [ea_argument, hframe.rbp, BitVec.sub_add_cancel] using
      h.allows (Nat.le_add_right _ _) le_rfl
  · rw [rsp_doubled, hsp, hdown]
  · rw [rbx_doubled, hframe.rbp, BitVec.sub_add_cancel,
      load_above hframe'.mem le_rfl (by omega), harg]
  · rw [hmem, load_store_quad]

/-- The results are put together. -/
def tripled : List Op :=
  [.mov 64 Reg.rcx (.imm 3), .mul Reg.rcx, .pop .rdx, .add 64 Reg.rax Reg.rdx]

/-- Behind the calls: three times the second result, and what was on the stack. -/
theorem tripled_reaches (P : Image recur) (h : Room M (c.gpr .rsp) n) (hn : 24 ≤ depth n.toInt)
    (hframe : InFrame c ret d) (hsp : d.gpr .rsp = c.gpr .rsp - 24#64) :
    ∃ d', Reaches P M ⟨d, P.addr .Return2⟩ ⟨d', P.start 28⟩ ∧ InFrame c ret d' ∧
      d'.gpr .rsp = c.gpr .rsp - 16#64 ∧
      d'.gpr .rax = d.gpr .rax * 3#64 + load 64 d.mem (c.gpr .rsp - 24#64) := by
  have henough := h.enough
  have hbelow := h.below
  have hup : c.gpr .rsp - 24#64 + 8#64 = c.gpr .rsp - 16#64 := by bv_omega
  refine ⟨run tripled d, Reaches.ops (k := 24) tripled rfl ⟨rfl, rfl, ?_, rfl, trivial⟩,
    hframe.above (by omega) rfl fun _ _ ↦ rfl, ?_, ?_⟩
  · simpa [hsp] using h.allows (a := c.gpr .rsp - 24#64) (by bv_omega) (by bv_omega)
  · rw [tripled, run_cons, run_cons, run_cons, run_cons, run_nil]
    simp [hsp, hup]
  · rw [tripled, run_cons, run_cons, run_cons, run_cons, run_nil]
    simp [hsp, ofNat_toNat_mul]

/-- A smaller argument, as a signed number. -/
theorem toInt_sub_ofNat (hk : k ≤ n.toInt) (hk' : k < 2 ^ 63) :
    (n - BitVec.ofNat 64 k).toInt = n.toInt - k := by
  simp only [BitVec.toInt_eq_toNat_cond, BitVec.toNat_sub, BitVec.toNat_ofNat] at hk ⊢
  split at hk <;> split <;> omega

/-- The first call of an argument above 1. -/
theorem first_reaches (P : Image recur) (h : Room M (c.gpr .rsp) n) (hlt : 1 < n.toInt)
    (hframe : InFrame c ret d) (hsp : d.gpr .rsp = c.gpr .rsp - 16#64) (hrbx : d.gpr .rbx = n)
    (hfirst : Correct P M (n - 1#64)) :
    ∃ d', Reaches P M ⟨d, P.start 11⟩ ⟨d', P.addr .Return1⟩ ∧ InFrame c ret d' ∧
      d'.gpr .rsp = c.gpr .rsp - 16#64 ∧ d'.gpr .rax = BitVec.ofInt 64 (r (n.toInt - 1)) := by
  have hone : (n - 1#64).toInt = n.toInt - 1 := toInt_sub_ofNat (k := 1) (by omega) (by omega)
  have henough := h.enough
  have hbelow := h.below
  have hdepth := depth_pred hlt
  have hroom : Room M (c.gpr .rsp - 16#64 - 8#64) (n - 1#64) := by
    have hroom := h.sub (hone ▸ hdepth)
    rwa [show c.gpr .rsp - BitVec.ofNat 64 24 = c.gpr .rsp - 16#64 - 8#64 by bv_omega] at hroom
  have hdec : Reaches P M ⟨d, P.start 11⟩ ⟨Op.exec d (.dec 64 Reg.rbx), P.start 12⟩ :=
    Reaches.op rfl rfl
  have hsp' : (Op.exec d (.dec 64 Reg.rbx)).gpr .rsp = c.gpr .rsp - 16#64 := hsp
  have hvalue : (Op.exec d (.dec 64 Reg.rbx)).value 64 Reg.rbx = n - 1#64 := by simp [hrbx]
  obtain ⟨d', hcall, hret⟩ := call_reaches hfirst Reg.rbx (k := 12) hvalue rfl (hsp' ▸ hroom)
    (by rw [hsp']; bv_omega) rfl rfl rfl
  refine ⟨d', hdec.trans hcall, ?_, hret.rsp.trans hsp', hone ▸ hret.rax⟩
  exact hframe.above (by omega) hret.rbp fun a ha ↦ hret.mem a (hsp' ▸ ha)

/-- The second call. -/
theorem second_reaches (P : Image recur) (h : Room M (c.gpr .rsp) n) (hlt : 1 < n.toInt)
    (hframe : InFrame c ret d) (hsp : d.gpr .rsp = c.gpr .rsp - 24#64)
    (hrbx : d.gpr .rbx = n - 2#64) (hsecond : Correct P M (n - 2#64)) :
    ∃ d', Reaches P M ⟨d, P.start 21⟩ ⟨d', P.addr .Return2⟩ ∧ InFrame c ret d' ∧
      d'.gpr .rsp = c.gpr .rsp - 24#64 ∧ d'.gpr .rax = BitVec.ofInt 64 (r (n.toInt - 2)) ∧
      load 64 d'.mem (c.gpr .rsp - 24#64) = load 64 d.mem (c.gpr .rsp - 24#64) := by
  have htwo : (n - 2#64).toInt = n.toInt - 2 := toInt_sub_ofNat (k := 2) (by omega) (by omega)
  have henough := h.enough
  have hbelow := h.below
  have hdepth := depth_pred_pred hlt
  have hroom : Room M (c.gpr .rsp - 24#64 - 8#64) (n - 2#64) := by
    have hroom := h.sub (htwo ▸ hdepth)
    rwa [show c.gpr .rsp - BitVec.ofNat 64 32 = c.gpr .rsp - 24#64 - 8#64 by bv_omega] at hroom
  have hvalue : d.value 64 Reg.rbx = n - 2#64 := by simp [hrbx]
  obtain ⟨d', hcall, hret⟩ := call_reaches hsecond Reg.rbx (k := 21) hvalue rfl (hsp ▸ hroom)
    (by rw [hsp]; bv_omega) rfl rfl rfl
  have hmem (a : Addr) (ha : (c.gpr .rsp - 24#64).toNat ≤ a.toNat) : d'.mem a = d.mem a :=
    hret.mem a (hsp ▸ ha)
  refine ⟨d', hcall, ?_, hret.rsp.trans hsp, htwo ▸ hret.rax, ?_⟩
  · exact hframe.above (by omega) hret.rbp fun a ha ↦ hmem a (by bv_omega)
  · exact load_above hmem le_rfl (by bv_omega)

/-- The two calls of an argument above 1. -/
theorem calls_reach (P : Image recur) (h : Room M (c.gpr .rsp) n) (hlt : 1 < n.toInt)
    (harg : load 64 c.mem (c.gpr .rsp) = n) (hframe : InFrame c ret d)
    (hsp : d.gpr .rsp = c.gpr .rsp - 16#64) (hrbx : d.gpr .rbx = n)
    (hfirst : Correct P M (n - 1#64)) (hsecond : Correct P M (n - 2#64)) :
    ∃ d', Reaches P M ⟨d, P.start 11⟩ ⟨d', P.start 28⟩ ∧ InFrame c ret d' ∧
      d'.gpr .rsp = c.gpr .rsp - 16#64 ∧ d'.gpr .rax = BitVec.ofInt 64 (r n.toInt) := by
  have hdepth := depth_pred_pred hlt
  obtain ⟨d₁, hreach₁, hframe₁, hsp₁, hrax₁⟩ := first_reaches P h hlt hframe hsp hrbx hfirst
  obtain ⟨d₂, hreach₂, hframe₂, hsp₂, hrbx₂, hkept₂⟩ :=
    doubled_reaches P h (by omega) harg hframe₁ hsp₁
  obtain ⟨d₃, hreach₃, hframe₃, hsp₃, hrax₃, hkept₃⟩ :=
    second_reaches P h hlt hframe₂ hsp₂ hrbx₂ hsecond
  obtain ⟨d₄, hreach₄, hframe₄, hsp₄, hrax₄⟩ := tripled_reaches P h (by omega) hframe₃ hsp₃
  refine ⟨d₄, hreach₁.trans (hreach₂.trans (hreach₃.trans hreach₄)), hframe₄, hsp₄, ?_⟩
  -- what is added up modulo `2 ^ 64` is the recurrence
  have hsum : BitVec.ofInt 64 (r n.toInt) = 3#64 * BitVec.ofInt 64 (r (n.toInt - 2)) +
      2#64 * BitVec.ofInt 64 (r (n.toInt - 1)) := by
    rw [r_of_one_lt hlt, Int.add_comm, BitVec.ofInt_add, BitVec.ofInt_mul, BitVec.ofInt_mul]
    rfl
  rw [hrax₄, hkept₃, hkept₂, hrax₃, hrax₁, hsum, BitVec.mul_comm 3#64, BitVec.mul_comm 2#64]

/-- `mov rax, x` in front of a way out. -/
theorem value_reaches (P : Image recur) (h : Room M (c.gpr .rsp) n) (hframe : InFrame c ret d)
    (hsp : d.gpr .rsp = c.gpr .rsp - 16#64) {x : ℤ} (hx : r n.toInt = x)
    (hmov : (instrs recur)[k]? = some (.op (.mov 64 Reg.rax (.imm x))))
    (hpop : (instrs recur)[k + 1]? = some (.op (.pop .rbp)))
    (hret : (instrs recur)[k + 2]? = some .ret) :
    ∃ c', Reaches P M ⟨d, P.start k⟩ ⟨c', ret⟩ ∧ Returned n c c' := by
  obtain ⟨c', hreach, hc'⟩ := epilogue_reaches P (d := d.set .rax (BitVec.ofInt 64 x)) h
    ⟨hframe.rbp, hframe.saved, hframe.back, hframe.mem⟩ hsp (by simp [hx]) hpop hret
  exact ⟨c', (Reaches.op hmov rfl).trans hreach, hc'⟩

/-- **`r` computes the recurrence**, by induction on its argument. -/
theorem r_correct (P : Image recur) (M : Mapped) (n : Word) : Correct P M n := by
  -- for all places to call from at once, since the inner calls come from others
  obtain ⟨size, hsize⟩ : ∃ size, n.toInt.toNat = size := ⟨_, rfl⟩
  induction size using Nat.strong_induction_on generalizing n with
  | _ size ih =>
    intro c ret h harg
    obtain ⟨d, hstart, hframe, hsp, hrbx⟩ := prologue_reaches P h harg ret
    obtain ⟨f, htests⟩ := tests_reach (M := M) P hrbx
    have hin := hframe.setFlags f
    by_cases hneg : n.toInt ≤ 0
    · rw [if_pos hneg] at htests
      obtain ⟨c', hreach, hc'⟩ :=
        value_reaches P h hin hsp (r_of_nonpos hneg) (k := 30) rfl rfl rfl
      exact ⟨c', hstart.trans (htests.trans hreach), hc'⟩
    · rw [if_neg hneg] at htests
      by_cases hone : n = 1
      · rw [if_pos hone] at htests
        obtain ⟨c', hreach, hc'⟩ :=
          value_reaches P h hin hsp (hone ▸ r_one) (k := 33) rfl rfl rfl
        exact ⟨c', hstart.trans (htests.trans hreach), hc'⟩
      · rw [if_neg hone] at htests
        have hlt : 1 < n.toInt := by
          have hne : n.toInt ≠ 1 := fun h ↦ hone (BitVec.eq_of_toInt_eq h)
          omega
        have hpred (k : ℕ) (hk : 0 < k) (hk2 : k ≤ 2) : Correct P M (n - BitVec.ofNat 64 k) := by
          have hsub := toInt_sub_ofNat (n := n) (k := k) (by omega) (by omega)
          exact ih _ (by omega) _ rfl
        obtain ⟨d', hcalls, hframe', hsp', hrax'⟩ := calls_reach P h hlt harg hin hsp hrbx
          (hpred 1 (by omega) (by omega)) (hpred 2 (by omega) (by omega))
        obtain ⟨c', hreach, hc'⟩ := epilogue_reaches P h hframe' hsp' hrax' (k := 28) rfl rfl
        exact ⟨c', hstart.trans (htests.trans (hcalls.trans hreach)), hc'⟩

/-- **A call of `r`**, with `n` on the stack, comes back to `ret` with the recurrence in `rax`, and
with `rsp`, `rbp` and everything from the argument on as they were. -/
theorem r_reaches (P : Image recur) (M : Mapped) (n : Word) (c : Core) (ret : Addr)
    (hroom : Room M (c.gpr .rsp) n) (harg : load 64 c.mem (c.gpr .rsp) = n) :
    ∃ c', Reaches P M (Instr.exec P c ret (.call .r)) ⟨c', ret⟩ ∧ Returned n c c' :=
  r_correct P M n c ret hroom harg

/-- A machine with a 2 on its stack. -/
def withTwo : Core :=
  ⟨fun reg ↦ if reg = .rsp then 0x10000 else 0, ⟨false, false, false, false⟩,
    store (fun _ ↦ 0) 0x10000 (2 : Word)⟩

theorem r_reaches_two : ∃ c', Reaches (.place recur (by decide) 0x400000) (fun _ ↦ true)
    (Instr.exec (.place recur (by decide) 0x400000) withTwo 0x400002 (.call .r))
      ⟨c', 0x400002⟩ ∧ c'.gpr .rax = BitVec.ofInt 64 (2 * 1 + 3 * 0) := by
  obtain ⟨c', hreach, hret⟩ := r_reaches (.place recur (by decide) 0x400000) (fun _ ↦ true) 2
    withTwo 0x400002 ⟨by decide, by decide, fun _ _ _ ↦ rfl⟩ (load_store_quad ..)
  refine ⟨c', hreach, hret.rax.trans ?_⟩
  rw [show (2 : Word).toInt = 2 by decide, r_of_one_lt (by decide), show (2 : ℤ) - 1 = 1 by decide,
    show (2 : ℤ) - 2 = 0 by decide, r_one, r_of_nonpos le_rfl]

/-- **The program** ends with `r 25` in `rax`. -/
theorem recur_reaches (P : Image recur) (h : Room M (c.gpr .rsp - 8#64) 25#64)
    (hsp : (c.gpr .rsp).toNat < 2 ^ 32) :
    ∃ c', Reaches P M ⟨c, P.start 0⟩ ⟨c', P.addr .done⟩ ∧ Returned 25 c c' := by
  obtain ⟨c', hreach, hret⟩ :=
    call_reaches (r_correct P M 25) (.imm 25) (k := 0) rfl rfl h hsp rfl rfl rfl
  exact ⟨c', hreach.trans (Reaches.jmp (k := 3) (l := Label.exit) rfl), hret⟩

end Recur
