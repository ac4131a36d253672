import NctuUnix.Lib.X86

/-!
# x86-64 instructions on operands of all sizes

Programs written for an emulator: they work on parts of registers, use 32-bit addresses, have no
operating system below them, and end where their text ends.  An operation carries the size of its
operands in bits.  The memory is mapped in places (`Mapped`), and an access elsewhere stops the
machine, so that a program that ends has kept to what is mapped.

`Image` is a program that stands somewhere in memory, where nothing writes; as in
`NctuUnix.Lib.X86` nothing is said about how long an encoding is.  Registers and flags are those of
that module.

## Main results

* `Image.place` — every program can be placed anywhere.
* `holds_e`, `holds_l` and so on — what the conditions say behind a comparison.
* `load_store_same`, `load_store_of_apart`, `store_of_apart` — reading over writing.
* `Image.start_injective` — no two instructions stand in the same place.
* `Reaches.ops` — a stretch of operations; `Reaches.jcc_taken` and so on for what comes between
  them.
* `Reaches.final_unique` — a program ends in one state.
* `Reaches.mem_of_unmapped` — it changes nothing but what is mapped.
-/

set_option autoImplicit false

namespace Amd64

open Bytes
open X86 (Reg Flags)

/-! ## Memory -/

/-- The number that stands in the `n` bytes at `a`. -/
def loadNat (m : Mem) (a : Addr) : ℕ → ℕ
  | 0 => 0
  | n + 1 => (m a).toNat + 256 * loadNat m (a + 1) n

/-- The value of `w` bits at `a`. -/
def load (w : ℕ) (m : Mem) (a : Addr) : BitVec w := BitVec.ofNat w (loadNat m a (w / 8))

/-- The memory after `v` has been written at `a`. -/
def store {w : ℕ} (m : Mem) (a : Addr) (v : BitVec w) : Mem :=
  fun x ↦ if (x - a).toNat < w / 8 then v.extractLsb' (8 * (x - a).toNat) 8 else m x

variable {w w' : ℕ} {m m' : Mem} {a b : Addr}

theorem loadNat_congr (n : ℕ) : ∀ a : Addr, (∀ k < n, m (a + BitVec.ofNat 64 k) =
    m' (a + BitVec.ofNat 64 k)) → loadNat m a n = loadNat m' a n := by
  induction n with
  | zero => exact fun _ _ ↦ rfl
  | succ n ih =>
    intro a h
    have hnext (k : ℕ) : a + BitVec.ofNat 64 (k + 1) = a + 1 + BitVec.ofNat 64 k := by
      rw [Nat.add_comm, BitVec.ofNat_add, BitVec.add_assoc]
      rfl
    have hhead := h 0 (Nat.succ_pos n)
    rw [BitVec.add_zero] at hhead
    rw [loadNat, loadNat, hhead, ih (a + 1) fun k hk ↦ ?_]
    rw [← hnext]
    exact h (k + 1) (Nat.succ_lt_succ hk)

/-- A load reads its bytes and no others. -/
theorem load_congr (h : ∀ k < w / 8, m (a + BitVec.ofNat 64 k) = m' (a + BitVec.ofNat 64 k)) :
    load w m a = load w m' a := by
  rw [load, load, loadNat_congr _ a h]

/-- Outside its bytes a store leaves the memory alone. -/
theorem store_of_apart {x : Addr} {v : BitVec w} (h : w / 8 ≤ (x - a).toNat) :
    store m a v x = m x := if_neg (Nat.not_lt.2 h)

theorem off_toNat (a : Addr) {k : ℕ} (hk : k < 2 ^ 64) :
    (a + BitVec.ofNat 64 k - a).toNat = k := by
  rw [BitVec.add_comm, BitVec.add_sub_cancel, BitVec.toNat_ofNat, Nat.mod_eq_of_lt hk]

theorem load_store_of_apart {v : BitVec w'} (h : Apart a (w' / 8) b (w / 8)) :
    load w (store m a v) b = load w m b := by
  obtain ⟨h₁, h₂⟩ := h
  refine load_congr fun k hk ↦ store_of_apart ?_
  bv_omega

theorem loadNat_store (v : BitVec w) (n : ℕ) : ∀ k, k + n ≤ w / 8 → w / 8 < 2 ^ 64 →
    loadNat (store m a v) (a + BitVec.ofNat 64 k) n = v.toNat / 256 ^ k % 256 ^ n := by
  induction n with
  | zero => exact fun k _ _ ↦ by rw [loadNat, pow_zero, Nat.mod_one]
  | succ n ih =>
    intro k hk hw
    have hnext : a + BitVec.ofNat 64 k + 1 = a + BitVec.ofNat 64 (k + 1) := by
      rw [BitVec.ofNat_add, BitVec.add_assoc]
      rfl
    have hbyte : (store m a v (a + BitVec.ofNat 64 k)).toNat = v.toNat / 256 ^ k % 256 := by
      rw [store, off_toNat a (by omega), if_pos (by omega), BitVec.extractLsb'_toNat,
        Nat.shiftRight_eq_div_pow, pow_mul, show 2 ^ 8 = 256 from rfl]
    rw [loadNat, hbyte, hnext, ih (k + 1) (by omega) hw, pow_succ 256 k, ← Nat.div_div_eq_div_mul,
      pow_succ' 256 n, Nat.mod_mul]

/-- A load reads what was stored there. -/
theorem load_store_same {v : BitVec w} (h : 8 * (w / 8) = w) (hw : w / 8 < 2 ^ 64) :
    load w (store m a v) a = v := by
  have hnat := loadNat_store (m := m) (a := a) v (w / 8) 0 (by omega) hw
  rw [BitVec.add_zero, pow_zero, Nat.div_one] at hnat
  have hpow : 256 ^ (w / 8) = 2 ^ w := by
    rw [show 256 = 2 ^ 8 from rfl, ← pow_mul, h]
  rw [load, hnat, hpow, Nat.mod_eq_of_lt v.isLt, BitVec.ofNat_toNat, BitVec.setWidth_eq]

/-- A load of one byte. -/
theorem load_byte (m : Mem) (a : Addr) : load 8 m a = m a := by
  show BitVec.ofNat 8 ((m a).toNat + 256 * 0) = m a
  rw [Nat.mul_zero, Nat.add_zero, BitVec.ofNat_toNat, BitVec.setWidth_eq]

/-- A store of one byte. -/
theorem store_byte (m : Mem) (a x : Addr) (v : BitVec 8) :
    store m a v x = if x = a then v else m x := by
  rw [store]
  by_cases h : x = a
  · rw [h, BitVec.sub_self, if_pos (by decide), if_pos rfl]
    exact BitVec.extractLsb'_eq_self
  · rw [if_neg (by bv_omega), if_neg h]

/-! ## States -/

/-- A machine between two instructions, but for the address of the next one. -/
structure Core where
  gpr : Reg → Word
  flags : Flags
  mem : Mem

/-- A machine between two instructions. -/
structure State extends Core where
  rip : Addr

/-- A register after its lowest `w` bits have been written: 32 bits clear what is above them, fewer
leave it alone. -/
def merge (old : Word) (v : BitVec w) : Word :=
  if w < 32 then old >>> w <<< w ||| v.setWidth 64 else v.setWidth 64

namespace Core

variable (c : Core)

/-- The lowest `w` bits of a register. -/
def get (w : ℕ) (r : Reg) : BitVec w := (c.gpr r).setWidth w

/-- `c` with `v` in the lowest bits of register `r`. -/
def set (r : Reg) (v : BitVec w) : Core :=
  { c with gpr := fun r' ↦ if r' = r then merge (c.gpr r) v else c.gpr r' }

/-- `c` with `v` at `a`. -/
def poke (a : Addr) (v : BitVec w) : Core := { c with mem := store c.mem a v }

/-- `c` with other flags. -/
def setFlags (f : Flags) : Core := { c with flags := f }

@[simp] theorem gpr_set (r r' : Reg) (v : BitVec w) :
    (c.set r v).gpr r' = if r' = r then merge (c.gpr r) v else c.gpr r' := rfl

@[simp] theorem mem_set (r : Reg) (v : BitVec w) : (c.set r v).mem = c.mem := rfl

@[simp] theorem flags_set (r : Reg) (v : BitVec w) : (c.set r v).flags = c.flags := rfl

@[simp] theorem gpr_poke (a : Addr) (v : BitVec w) : (c.poke a v).gpr = c.gpr := rfl

@[simp] theorem mem_poke (a : Addr) (v : BitVec w) : (c.poke a v).mem = store c.mem a v := rfl

@[simp] theorem flags_poke (a : Addr) (v : BitVec w) : (c.poke a v).flags = c.flags := rfl

@[simp] theorem gpr_setFlags (f : Flags) : (c.setFlags f).gpr = c.gpr := rfl

@[simp] theorem mem_setFlags (f : Flags) : (c.setFlags f).mem = c.mem := rfl

@[simp] theorem flags_setFlags (f : Flags) : (c.setFlags f).flags = f := rfl

end Core

@[simp] theorem merge_64 (old v : Word) : merge old v = v := BitVec.setWidth_eq v

@[simp] theorem merge_32 (old : Word) (v : BitVec 32) : merge old v = v.setWidth 64 := rfl

/-- What has been written to the lowest bits is there. -/
theorem setWidth_merge (h : w ≤ 64) (old : Word) (v : BitVec w) : (merge old v).setWidth w = v := by
  rw [merge]
  split
  · apply BitVec.eq_of_getLsbD_eq
    intro i hi
    simp only [BitVec.getLsbD_setWidth, BitVec.getLsbD_or, BitVec.getLsbD_shiftLeft]
    simp [hi, show i < 64 by omega]
  · rw [BitVec.setWidth_setWidth_of_le _ h, BitVec.setWidth_eq]

namespace Core

variable (c : Core)

@[simp] theorem get_64 (r : Reg) : c.get 64 r = c.gpr r := BitVec.setWidth_eq _

theorem get_set (h : w ≤ 64) (r r' : Reg) (v : BitVec w) :
    (c.set r v).get w r' = if r' = r then v else c.get w r' := by
  rw [get, gpr_set]
  split
  · rw [setWidth_merge h]
  · rfl

theorem get_set_of_ne {r r' : Reg} (h : r' ≠ r) (v : BitVec w) :
    (c.set r v).get w' r' = c.get w' r' := by
  rw [get, gpr_set, if_neg h, get]

@[simp] theorem get_poke (a : Addr) (v : BitVec w) (r : Reg) : (c.poke a v).get w' r = c.get w' r :=
  rfl

@[simp] theorem get_setFlags (f : Flags) (r : Reg) : (c.setFlags f).get w r = c.get w r := rfl

end Core

/-! ## Operands -/

/-- An effective address, which is computed in `size` bits. -/
structure Ea where
  size : ℕ
  index : Reg
  scale : ℕ
  disp : ℤ
  deriving DecidableEq, Repr

/-- Where an operand is. -/
inductive Loc
  | reg (r : Reg)
  | mem (ea : Ea)
  deriving DecidableEq, Repr

/-- What an operation reads. -/
inductive Src
  | loc (l : Loc)
  | imm (i : ℤ)
  deriving DecidableEq, Repr

instance : Coe Reg Loc := ⟨.reg⟩

instance : Coe Ea Loc := ⟨.mem⟩

instance : Coe Reg Src := ⟨fun r ↦ .loc (.reg r)⟩

instance : Coe Ea Src := ⟨fun ea ↦ .loc (.mem ea)⟩

namespace Core

variable (c : Core)

/-- The address that is accessed. -/
def ea (e : Ea) : Addr :=
  (c.get e.size e.index * BitVec.ofNat e.size e.scale + BitVec.ofInt e.size e.disp).setWidth 64

/-- An address that does not wrap around. -/
theorem ea_of_lt {r : Reg} {n s d : ℕ} (h : c.get 32 r = BitVec.ofNat 32 n)
    (hlt : n * s + d < 2 ^ 32) : c.ea ⟨32, r, s, d⟩ = BitVec.ofNat 64 (n * s + d) := by
  show (c.get 32 r * BitVec.ofNat 32 s + BitVec.ofInt 32 d).setWidth 64 = _
  apply BitVec.eq_of_toNat_eq
  rw [h, BitVec.ofInt_natCast, ← BitVec.ofNat_mul, ← BitVec.ofNat_add, BitVec.toNat_setWidth,
    BitVec.toNat_ofNat, BitVec.toNat_ofNat, Nat.mod_eq_of_lt hlt]

/-- What is read from a location. -/
def read (w : ℕ) : Loc → BitVec w
  | .reg r => c.get w r
  | .mem e => load w c.mem (c.ea e)

/-- What an operation gets to see. -/
def value (w : ℕ) : Src → BitVec w
  | .loc l => c.read w l
  | .imm i => BitVec.ofInt w i

/-- `c` after a location has been written. -/
def write (v : BitVec w) : Loc → Core
  | .reg r => c.set r v
  | .mem e => c.poke (c.ea e) v

/-- A quadword put on the stack. -/
def push (v : Word) : Core := (c.set .rsp (c.gpr .rsp - 8)).poke (c.gpr .rsp - 8) v

/-- The quadword on top of the stack. -/
def top : Word := load 64 c.mem (c.gpr .rsp)

/-- The stack without it. -/
def drop : Core := c.set .rsp (c.gpr .rsp + 8)

end Core

/-! ## Operations -/

/-- The flags of `x - y`. -/
def flagsSub (x y : BitVec w) : Flags :=
  ⟨x - y = 0, (x - y).msb, BitVec.usubOverflow x y, BitVec.ssubOverflow x y⟩

/-- The flags of `x + y`. -/
def flagsAdd (x y : BitVec w) : Flags :=
  ⟨x + y = 0, (x + y).msb, BitVec.uaddOverflow x y, BitVec.saddOverflow x y⟩

/-- The operations, on operands of `w` bits: instructions that the next one follows. -/
inductive Op
  | mov (w : ℕ) (dst : Loc) (src : Src)
  | add (w : ℕ) (dst : Loc) (src : Src)
  | sub (w : ℕ) (dst : Loc) (src : Src)
  | cmp (w : ℕ) (dst : Loc) (src : Src)
  | inc (w : ℕ) (dst : Loc)
  | dec (w : ℕ) (dst : Loc)
  | neg (w : ℕ) (dst : Loc)
  | xchg (w : ℕ) (dst : Reg) (src : Loc)
  | mul (src : Loc)
  | push (src : Src)
  | pop (dst : Reg)
  deriving DecidableEq, Repr

/-- What an operation does. -/
def Op.exec (c : Core) : Op → Core
  | .mov w dst src => c.write (c.value w src) dst
  | .add w dst src =>
    (c.setFlags (flagsAdd (c.read w dst) (c.value w src))).write (c.read w dst + c.value w src) dst
  | .sub w dst src =>
    (c.setFlags (flagsSub (c.read w dst) (c.value w src))).write (c.read w dst - c.value w src) dst
  | .cmp w dst src => c.setFlags (flagsSub (c.read w dst) (c.value w src))
  | .inc w dst =>
    -- `inc` and `dec` leave the carry alone
    (c.setFlags { flagsAdd (c.read w dst) 1 with cf := c.flags.cf }).write (c.read w dst + 1) dst
  | .dec w dst =>
    (c.setFlags { flagsSub (c.read w dst) 1 with cf := c.flags.cf }).write (c.read w dst - 1) dst
  | .neg w dst => (c.setFlags (flagsSub 0 (c.read w dst))).write (-c.read w dst) dst
  | .xchg w dst src => (c.write (c.get w dst) src).set dst (c.read w src)
  | .mul src =>
    -- the flags that are undefined then stay as they are
    let p := (c.gpr .rax).toNat * (c.read 64 src).toNat
    let high := BitVec.ofNat 64 (p / 2 ^ 64)
    ((c.setFlags { c.flags with cf := high ≠ 0, ov := high ≠ 0 }).set .rax
      (BitVec.ofNat 64 p)).set .rdx high
  | .push src => c.push (c.value 64 src)
  | .pop dst => c.drop.set dst c.top

/-- The bytes of an operand that are in memory: where they start, and how many there are. -/
def Loc.accesses (c : Core) (w : ℕ) : Loc → List (Addr × ℕ)
  | .reg _ => []
  | .mem e => [(c.ea e, w / 8)]

def Src.accesses (c : Core) (w : ℕ) : Src → List (Addr × ℕ)
  | .loc l => l.accesses c w
  | .imm _ => []

/-- What an operation accesses. -/
def Op.accesses (c : Core) : Op → List (Addr × ℕ)
  | .mov w dst src => dst.accesses c w ++ src.accesses c w
  | .add w dst src => dst.accesses c w ++ src.accesses c w
  | .sub w dst src => dst.accesses c w ++ src.accesses c w
  | .cmp w dst src => dst.accesses c w ++ src.accesses c w
  | .inc w dst => dst.accesses c w
  | .dec w dst => dst.accesses c w
  | .neg w dst => dst.accesses c w
  | .xchg w _ src => src.accesses c w
  | .mul src => src.accesses c 64
  | .push src => src.accesses c 64 ++ [(c.gpr .rsp - 8, 8)]
  | .pop _ => [(c.gpr .rsp, 8)]

-- symbolic execution: operations on locations, down to registers and memory
attribute [simp] Op.exec Op.accesses Loc.accesses Src.accesses Core.read Core.value Core.write
  Core.push Core.top Core.drop

/-- What a stretch of operations does. -/
def run (ops : List Op) (c : Core) : Core := ops.foldl Op.exec c

@[simp] theorem run_nil (c : Core) : run [] c = c := rfl

@[simp] theorem run_cons (op : Op) (ops : List Op) (c : Core) :
    run (op :: ops) c = run ops (op.exec c) := rfl

/-! ## Conditions -/

/-- The conditions of the jumps. -/
inductive Cond
  | e | ne | l | le | g | ge | ae
  deriving DecidableEq, Repr

/-- Whether a condition holds. -/
def Cond.holds (f : Flags) : Cond → Bool
  | .e => f.zf
  | .ne => !f.zf
  | .l => f.sf != f.ov
  | .le => f.zf || f.sf != f.ov
  | .g => !(f.zf || f.sf != f.ov)
  | .ge => !(f.sf != f.ov)
  | .ae => !f.cf

/-- Behind a comparison the sign and overflow flags say which number is less. -/
theorem lt_flagsSub (x y : BitVec w) :
    ((flagsSub x y).sf != (flagsSub x y).ov) = decide (x.toInt < y.toInt) := by
  have hx : x.msb = decide (x.toInt < 0) := BitVec.msb_eq_toInt
  have hy : y.msb = decide (y.toInt < 0) := BitVec.msb_eq_toInt
  show ((x - y).msb != BitVec.ssubOverflow x y) = _
  by_cases hov : BitVec.ssubOverflow x y = true
  · have hsigns := hov
    rw [BitVec.ssubOverflow_eq] at hsigns
    rw [hov, Bool.bne_true]
    -- the operands have different signs, and the result that of the second one
    rcases Bool.or_eq_true_iff.1 hsigns with h | h
    · simp only [Bool.and_eq_true, Bool.not_eq_true', hx, hy, decide_eq_false_iff_not,
        decide_eq_true_eq] at h
      rw [h.2]
      exact (decide_eq_false (by omega)).symm
    · simp only [Bool.and_eq_true, Bool.not_eq_true', hx, hy, decide_eq_false_iff_not,
        decide_eq_true_eq] at h
      rw [h.2]
      exact (decide_eq_true (by omega)).symm
  · have hsub := BitVec.toInt_sub_of_not_ssubOverflow hov
    have hmsb : (x - y).msb = decide ((x - y).toInt < 0) := BitVec.msb_eq_toInt
    rw [Bool.not_eq_true] at hov
    rw [hov, Bool.bne_false, hmsb, hsub]
    exact decide_eq_decide.2 (by omega)

@[simp] theorem zf_flagsSub (x y : BitVec w) : (flagsSub x y).zf = decide (x = y) := by
  rw [flagsSub]
  refine decide_eq_decide.2 ⟨fun h ↦ ?_, fun h ↦ h ▸ BitVec.sub_self x⟩
  have hcancel : x - y + y = y := by
    rw [h]
    exact BitVec.zero_add y
  exact (BitVec.sub_add_cancel x y).symm.trans hcancel

@[simp] theorem cf_flagsSub (x y : BitVec w) :
    (flagsSub x y).cf = decide (x.toNat < y.toNat) := rfl

/-- **The conditions** behind a comparison. -/
@[simp] theorem holds_e (x y : BitVec w) : Cond.e.holds (flagsSub x y) = decide (x = y) :=
  zf_flagsSub x y

@[simp] theorem holds_l (x y : BitVec w) :
    Cond.l.holds (flagsSub x y) = decide (x.toInt < y.toInt) := lt_flagsSub x y

@[simp] theorem holds_ge (x y : BitVec w) :
    Cond.ge.holds (flagsSub x y) = decide (y.toInt ≤ x.toInt) := by
  rw [Cond.holds, lt_flagsSub, ← decide_not]
  exact decide_eq_decide.2 Int.not_lt

@[simp] theorem holds_le (x y : BitVec w) :
    Cond.le.holds (flagsSub x y) = decide (x.toInt ≤ y.toInt) := by
  rw [Cond.holds, lt_flagsSub, zf_flagsSub, ← Bool.decide_or]
  refine decide_eq_decide.2 ⟨?_, fun h ↦ ?_⟩
  · rintro (rfl | h)
    · exact Int.le_refl _
    · exact Int.le_of_lt h
  · rcases Int.lt_or_eq_of_le h with h | h
    · exact .inr h
    · exact .inl (BitVec.eq_of_toInt_eq h)

@[simp] theorem holds_g (x y : BitVec w) :
    Cond.g.holds (flagsSub x y) = decide (y.toInt < x.toInt) := by
  have hle := holds_le x y
  rw [Cond.holds] at hle
  rw [Cond.holds, hle, ← decide_not]
  exact decide_eq_decide.2 Int.not_le

@[simp] theorem holds_ae (x y : BitVec w) :
    Cond.ae.holds (flagsSub x y) = decide (y.toNat ≤ x.toNat) := by
  rw [Cond.holds, cf_flagsSub, ← decide_not]
  exact decide_eq_decide.2 Nat.not_lt

/-! ## Programs -/

variable {L : Type}

/-- The instructions, with jumps to labels. -/
inductive Instr (L : Type)
  | op (o : Op)
  | jmp (l : L)
  | jcc (cond : Cond) (l : L)
  | loop (l : L)
  | call (l : L)
  | ret
  deriving DecidableEq, Repr

/-- A line of a program. -/
inductive Item (L : Type)
  | label (l : L)
  | instr (i : Instr L)

/-- The instructions of a program. -/
def instrs : List (Item L) → List (Instr L)
  | [] => []
  | .label _ :: is => instrs is
  | .instr i :: is => i :: instrs is

/-- How many instructions stand in front of a label. -/
def offset [DecidableEq L] (l : L) : List (Item L) → ℕ
  | [] => 0
  | .label l' :: is => if l' = l then 0 else offset l is
  | .instr _ :: is => offset l is + 1

/-- A program in memory. -/
structure Image (is : List (Item L)) where
  /-- Where instruction number `k` starts. -/
  start : ℕ → Addr
  /-- The instruction at an address, and the address behind it. -/
  fetch : Addr → Option (Instr L × Addr)
  fetch_start : ∀ k i, (instrs is)[k]? = some i → fetch (start k) = some (i, start (k + 1))
  /-- Behind the last one the machine stops. -/
  fetch_end : fetch (start (instrs is).length) = none

/-- A program placed at `base`, with instructions of one byte. -/
def Image.place (is : List (Item L)) (h : (instrs is).length < 2 ^ 64) (base : Addr) :
    Image is where
  start k := base + BitVec.ofNat 64 k
  fetch a := (instrs is)[(a - base).toNat]?.map fun i ↦
    (i, base + BitVec.ofNat 64 ((a - base).toNat + 1))
  fetch_start k i hi := by
    obtain ⟨hk, -⟩ := List.getElem?_eq_some_iff.1 hi
    rw [off_toNat base (hk.trans h), hi, Option.map_some]
  fetch_end := by
    rw [off_toNat base h, List.getElem?_eq_none le_rfl, Option.map_none]

/-- Two instructions in one place would be followed by two instructions in one place, and so on, up
to the end of the program. -/
theorem Image.start_injective {is : List (Item L)} {P : Image is} {i j : ℕ}
    (h : P.start i = P.start j) (hi : i ≤ (instrs is).length) (hj : j ≤ (instrs is).length) :
    i = j := by
  have hshift (d : ℕ) : ∀ i j, i < j → j + d = (instrs is).length → P.start i ≠ P.start j := by
    induction d with
    | zero =>
      intro i j hlt hj h
      have hi := P.fetch_start i _ (List.getElem?_eq_getElem (by omega))
      have hend := P.fetch_end
      rw [show (instrs is).length = j from hj.symm, ← h, hi] at hend
      exact absurd hend (by simp)
    | succ d ih =>
      intro i j hlt hj h
      have hi := P.fetch_start i _ (List.getElem?_eq_getElem (by omega))
      have hnext := P.fetch_start j _ (List.getElem?_eq_getElem (by omega))
      rw [h, hnext, Option.some.injEq, Prod.mk.injEq] at hi
      exact ih (i + 1) (j + 1) (by omega) (by omega) hi.2.symm
  rcases Nat.lt_trichotomy i j with hlt | heq | hlt
  · exact absurd h (hshift _ i j hlt (Nat.add_sub_of_le hj))
  · exact heq
  · exact absurd h.symm (hshift _ j i hlt (Nat.add_sub_of_le hi))

/-- What is mapped. -/
abbrev Mapped := Addr → Bool

/-- The accesses are to memory that is mapped. -/
def Mapped.allows (M : Mapped) (accesses : List (Addr × ℕ)) : Bool :=
  accesses.all fun p ↦ (List.range p.2).all fun k ↦ M (p.1 + BitVec.ofNat 64 k)

theorem Mapped.allows_iff {M : Mapped} {accesses : List (Addr × ℕ)} : M.allows accesses = true ↔
    ∀ p ∈ accesses, ∀ k < p.2, M (p.1 + BitVec.ofNat 64 k) = true := by
  simp only [allows, List.all_eq_true, List.mem_range]

variable [DecidableEq L] {is : List (Item L)}

/-- Where a label is. -/
def Image.addr (P : Image is) (l : L) : Addr := P.start (offset l is)

/-- What an instruction does; `next` is the address behind it. -/
def Instr.exec (P : Image is) (c : Core) (next : Addr) : Instr L → State
  | .op o => ⟨o.exec c, next⟩
  | .jmp l => ⟨c, P.addr l⟩
  | .jcc cond l => ⟨c, if cond.holds c.flags then P.addr l else next⟩
  -- the counter is the whole of `rcx`
  | .loop l => ⟨c.set .rcx (c.gpr .rcx - 1), if c.gpr .rcx - 1 = 0 then next else P.addr l⟩
  | .call l => ⟨c.push next, P.addr l⟩
  | .ret => ⟨c.drop, c.top⟩

/-- What an instruction accesses. -/
def Instr.accesses (c : Core) : Instr L → List (Addr × ℕ)
  | .op o => o.accesses c
  | .jmp _ => []
  | .jcc _ _ => []
  | .loop _ => []
  | .call _ => [(c.gpr .rsp - 8, 8)]
  | .ret => [(c.gpr .rsp, 8)]

/-- One instruction; `none` where there is none, or where it accesses what is not mapped. -/
def step (P : Image is) (M : Mapped) (s : State) : Option State :=
  (P.fetch s.rip).bind fun p ↦
    if M.allows (p.1.accesses s.toCore) then some (p.1.exec P s.toCore p.2) else none

/-- `n` instructions. -/
def steps (P : Image is) (M : Mapped) : ℕ → State → Option State
  | 0, s => some s
  | n + 1, s => (step P M s).bind (steps P M n)

/-- The machine gets from `s` to `s'`. -/
def Reaches (P : Image is) (M : Mapped) (s s' : State) : Prop := ∃ n, steps P M n s = some s'

/-! ## Executing them -/

variable {P : Image is} {M : Mapped} {s s' s'' : State} {c : Core} {k : ℕ}

@[refl] theorem Reaches.refl (s : State) : Reaches P M s s := ⟨0, rfl⟩

theorem steps_add {n p : ℕ} (h : steps P M n s = some s') :
    steps P M (n + p) s = steps P M p s' := by
  induction n generalizing s with
  | zero =>
    obtain rfl := Option.some.inj h
    rw [Nat.zero_add]
  | succ n ih =>
    rw [Nat.add_right_comm, steps]
    rw [steps] at h
    obtain ⟨s₁, h₁, h₂⟩ := Option.bind_eq_some_iff.1 h
    rw [h₁, Option.bind_some, ih h₂]

@[trans] theorem Reaches.trans (h : Reaches P M s s') (h' : Reaches P M s' s'') :
    Reaches P M s s'' := by
  obtain ⟨n, hn⟩ := h
  obtain ⟨p, hp⟩ := h'
  exact ⟨n + p, (steps_add hn).trans hp⟩

/-- What holds at first and is kept by every instruction holds of all that is reached. -/
theorem Reaches.invariant {I : State → Prop} (h : Reaches P M s s') (h₀ : I s)
    (hstep : ∀ t t', I t → step P M t = some t' → I t') : I s' := by
  obtain ⟨n, hn⟩ := h
  induction n generalizing s with
  | zero =>
    obtain rfl := Option.some.inj hn
    exact h₀
  | succ n ih =>
    rw [steps] at hn
    obtain ⟨s₁, h₁, h₂⟩ := Option.bind_eq_some_iff.1 hn
    exact ih (hstep _ _ h₀ h₁) h₂

theorem steps_of_final {n : ℕ} (hs : step P M s = none) (h : steps P M n s = some s') :
    s = s' := by
  rcases n with _ | n
  · exact Option.some.inj h
  · rw [steps, hs, Option.bind_none] at h
    exact absurd h (by simp)

/-- **A program ends in one state**, where it ends. -/
theorem Reaches.final_unique (h : Reaches P M s s') (h' : Reaches P M s s'')
    (hs : step P M s' = none) (hs' : step P M s'' = none) : s' = s'' := by
  obtain ⟨n, hn⟩ := h
  obtain ⟨p, hp⟩ := h'
  rcases Nat.le_total n p with hle | hle
  · obtain ⟨d, rfl⟩ := Nat.exists_eq_add_of_le hle
    exact steps_of_final hs ((steps_add hn).symm.trans hp)
  · obtain ⟨d, rfl⟩ := Nat.exists_eq_add_of_le hle
    exact (steps_of_final hs' ((steps_add hp).symm.trans hn)).symm

theorem step_end : step P M ⟨c, P.start (instrs is).length⟩ = none := by
  rw [step, P.fetch_end, Option.bind_none]

theorem step_start {i : Instr L} (h : (instrs is)[k]? = some i) : step P M ⟨c, P.start k⟩ =
    if M.allows (i.accesses c) then some (i.exec P c (P.start (k + 1))) else none := by
  rw [step, P.fetch_start k i h, Option.bind_some]

/-- What an instruction has done. -/
theorem exec_of_step {i : Instr L} (h : (instrs is)[k]? = some i)
    (hs : step P M ⟨c, P.start k⟩ = some s) : s = i.exec P c (P.start (k + 1)) := by
  rw [step_start h] at hs
  split at hs
  · exact (Option.some.inj hs).symm
  · exact absurd hs (by simp)

theorem Reaches.instr {i : Instr L} (h : (instrs is)[k]? = some i)
    (hM : M.allows (i.accesses c) = true) :
    Reaches P M ⟨c, P.start k⟩ (i.exec P c (P.start (k + 1))) :=
  ⟨1, by rw [steps, step_start h, if_pos hM]; rfl⟩

theorem Reaches.op {o : Op} (h : (instrs is)[k]? = some (.op o))
    (hM : M.allows (o.accesses c) = true) :
    Reaches P M ⟨c, P.start k⟩ ⟨o.exec c, P.start (k + 1)⟩ := .instr h hM

/-- The accesses of a stretch of operations are to memory that is mapped. -/
def Fits (M : Mapped) : Core → List Op → Prop
  | _, [] => True
  | c, o :: ops => M.allows (o.accesses c) = true ∧ Fits M (o.exec c) ops

/-- A stretch of operations. -/
theorem Reaches.ops (ops : List Op) (h : ((instrs is).drop k).take ops.length = ops.map .op)
    (hM : Fits M c ops) :
    Reaches P M ⟨c, P.start k⟩ ⟨run ops c, P.start (k + ops.length)⟩ := by
  induction ops generalizing c k with
  | nil => rfl
  | cons o ops ih =>
    rcases hrest : (instrs is).drop k with _ | ⟨i, rest⟩
    · rw [hrest] at h
      exact absurd h (by simp)
    · rw [hrest, List.length_cons, List.take_succ_cons, List.map_cons, List.cons.injEq] at h
      have hi : (instrs is)[k]? = some (.op o) := by
        rw [← h.1, ← List.head?_drop, hrest, List.head?_cons]
      have hdrop : (instrs is).drop (k + 1) = rest := by
        rw [← List.tail_drop, hrest, List.tail_cons]
      have hlen : k + (o :: ops).length = k + 1 + ops.length := by
        rw [List.length_cons]
        omega
      rw [hlen]
      exact (Reaches.instr hi hM.1).trans (ih (by rw [hdrop, h.2]) hM.2)

theorem Reaches.jmp {l : L} (h : (instrs is)[k]? = some (.jmp l)) :
    Reaches P M ⟨c, P.start k⟩ ⟨c, P.addr l⟩ := .instr h rfl

theorem Reaches.jcc {cond : Cond} {l : L} (h : (instrs is)[k]? = some (.jcc cond l)) :
    Reaches P M ⟨c, P.start k⟩
      ⟨c, if cond.holds c.flags then P.addr l else P.start (k + 1)⟩ := .instr h rfl

/-- A jump that is made. -/
theorem Reaches.jcc_taken {cond : Cond} {l : L} (h : (instrs is)[k]? = some (.jcc cond l))
    (hc : cond.holds c.flags = true) : Reaches P M ⟨c, P.start k⟩ ⟨c, P.addr l⟩ := by
  have hjump := Reaches.jcc (P := P) (M := M) (c := c) h
  rwa [hc, if_pos rfl] at hjump

/-- A jump that is not made. -/
theorem Reaches.jcc_passed {cond : Cond} {l : L} (h : (instrs is)[k]? = some (.jcc cond l))
    (hc : cond.holds c.flags = false) :
    Reaches P M ⟨c, P.start k⟩ ⟨c, P.start (k + 1)⟩ := by
  have hjump := Reaches.jcc (P := P) (M := M) (c := c) h
  rwa [hc, if_neg Bool.false_ne_true] at hjump

theorem Reaches.loop {l : L} (h : (instrs is)[k]? = some (.loop l)) :
    Reaches P M ⟨c, P.start k⟩ ⟨c.set .rcx (c.gpr .rcx - 1),
      if c.gpr .rcx - 1 = 0 then P.start (k + 1) else P.addr l⟩ := .instr h rfl

theorem Reaches.call {l : L} (h : (instrs is)[k]? = some (.call l))
    (hM : M.allows [(c.gpr .rsp - 8, 8)] = true) :
    Reaches P M ⟨c, P.start k⟩ ⟨c.push (P.start (k + 1)), P.addr l⟩ := .instr h hM

theorem Reaches.ret (h : (instrs is)[k]? = some .ret) (hM : M.allows [(c.gpr .rsp, 8)] = true) :
    Reaches P M ⟨c, P.start k⟩ ⟨c.drop, c.top⟩ := .instr h hM

/-! ## What is not mapped -/

variable {x : Addr}

theorem Mapped.apart_of_allows {l : List (Addr × ℕ)} (h : M.allows l = true) (hx : M x = false)
    {p : Addr × ℕ} (hp : p ∈ l) : p.2 ≤ (x - p.1).toNat := by
  by_contra hlt
  have hin := Mapped.allows_iff.1 h p hp (x - p.1).toNat (Nat.lt_of_not_le hlt)
  have hback : p.1 + BitVec.ofNat 64 (x - p.1).toNat = x := by
    rw [BitVec.ofNat_toNat, BitVec.setWidth_eq, BitVec.add_comm, BitVec.sub_add_cancel]
  rw [hback, hx] at hin
  exact absurd hin (by simp)

theorem mem_write_of_unmapped {l : Loc} (v : BitVec w) (h : M.allows (l.accesses c w) = true)
    (hx : M x = false) : (c.write v l).mem x = c.mem x := by
  cases l with
  | reg r => rfl
  | mem e => exact store_of_apart (Mapped.apart_of_allows h hx List.mem_cons_self)

/-- The flags are set first. -/
theorem mem_setFlags_write_of_unmapped {l : Loc} (f : Flags) (v : BitVec w)
    (h : M.allows (l.accesses c w) = true) (hx : M x = false) :
    ((c.setFlags f).write v l).mem x = c.mem x := by
  cases l with
  | reg r => rfl
  | mem e => exact mem_write_of_unmapped (l := .mem e) v h hx

theorem mem_push_of_unmapped (v : Word) (h : M.allows [(c.gpr .rsp - 8, 8)] = true)
    (hx : M x = false) : (c.push v).mem x = c.mem x :=
  store_of_apart (Mapped.apart_of_allows h hx List.mem_cons_self)

theorem Mapped.allows_append {l l' : List (Addr × ℕ)} :
    M.allows (l ++ l') = true ↔ M.allows l = true ∧ M.allows l' = true := by
  rw [allows, List.all_append, Bool.and_eq_true]
  exact Iff.rfl

theorem Op.mem_of_unmapped (o : Op) (h : M.allows (o.accesses c) = true) (hx : M x = false) :
    (o.exec c).mem x = c.mem x := by
  cases o with
  | mov w dst src => exact mem_write_of_unmapped _ (Mapped.allows_append.1 h).1 hx
  | add w dst src => exact mem_setFlags_write_of_unmapped _ _ (Mapped.allows_append.1 h).1 hx
  | sub w dst src => exact mem_setFlags_write_of_unmapped _ _ (Mapped.allows_append.1 h).1 hx
  | cmp w dst src => rfl
  | inc w dst => exact mem_setFlags_write_of_unmapped _ _ h hx
  | dec w dst => exact mem_setFlags_write_of_unmapped _ _ h hx
  | neg w dst => exact mem_setFlags_write_of_unmapped _ _ h hx
  | xchg w dst src => exact mem_write_of_unmapped _ h hx
  | mul src => rfl
  | push src => exact mem_push_of_unmapped _ (Mapped.allows_append.1 h).2 hx
  | pop dst => rfl

theorem Instr.mem_of_unmapped (i : Instr L) (next : Addr) (h : M.allows (i.accesses c) = true)
    (hx : M x = false) : (i.exec P c next).mem x = c.mem x := by
  cases i with
  | op o => exact o.mem_of_unmapped h hx
  | jmp l => rfl
  | jcc cond l => rfl
  | loop l => rfl
  | call l => exact mem_push_of_unmapped next h hx
  | ret => rfl

/-- **What is not mapped is not changed.** -/
theorem Reaches.mem_of_unmapped (h : Reaches P M s s') (hx : M x = false) :
    s'.mem x = s.mem x := by
  refine h.invariant (I := fun t ↦ t.mem x = s.mem x) rfl fun t t' ht hs ↦ ?_
  rw [step, Option.bind_eq_some_iff] at hs
  obtain ⟨p, -, hp⟩ := hs
  split at hp
  · rename_i hM
    obtain rfl := Option.some.inj hp
    exact (p.1.mem_of_unmapped p.2 hM hx).trans ht
  · exact absurd hp (by simp)

end Amd64
