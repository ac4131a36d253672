import NctuUnix.Lib.Amd64
import NctuUnix.Lib.Bubble

/-!
# Two programs that sort ten numbers

`asm/assembly/bubble.asm` and `asm/bubble.asm` sort the ten doublewords at `0x600000`.  The passes
of the first one get shorter; the second one makes nine passes of nine exchanges, which it counts
with `loop`, that is with all of `rcx`, of which it sets only the lowest 16 bits.

## Main results

* `assemblyBubble_sorts` — the first program sorts, whatever the registers hold.
* `bubble_agrees_iff` — the second one does the same, on the same memory, if and only if `rcx` holds
  nothing above its lowest 16 bits.
-/

set_option autoImplicit false

namespace BubbleSort

open Bytes Amd64 Bubble
open X86 (Reg)

/-! ## The array -/

/-- Element `j` of the array. -/
def slot (j : ℕ) : Addr := BitVec.ofNat 64 (0x600000 + 4 * j)

/-- The memory that is mapped: the array. -/
def onArray : Mapped := fun a ↦ decide (0x600000 ≤ a.toNat) && decide (a.toNat < 0x600028)

/-- The ten words. -/
def words (m : Mem) : List (BitVec 32) := (List.range 10).map fun j ↦ load 32 m (slot j)

/-- The array holds the numbers `f`. -/
def Holds (m : Mem) (f : ℕ → ℤ) : Prop := ∀ j < 10, (load 32 m (slot j)).toInt = f j

/-! ## The programs -/

/-- The labels of the first program. -/
inductive Label
  | outloop | inloop | check | exch | exitin | exitout | done
  deriving DecidableEq, Repr

/-- `[0x600000+4*edx]` -/
def current : Ea := ⟨32, .rdx, 4, 0x600000⟩

/-- `[0x600000+4*edx+4]` -/
def following : Ea := ⟨32, .rdx, 4, 0x600000 + 4⟩

/-- `asm/assembly/bubble.asm` -/
def assemblyBubble : List (Item Label) :=
  [.instr (.op (.mov 32 Reg.rcx (.imm 0))),
   .label .outloop,
   .instr (.op (.mov 32 Reg.rdx (.imm 0))),
   .label .inloop,
   .instr (.op (.mov 32 Reg.rax current)),
   .instr (.op (.mov 32 Reg.rbx following)),
   .instr (.op (.cmp 32 Reg.rax Reg.rbx)),
   .instr (.jcc .g .exch),
   .label .check,
   .instr (.op (.inc 32 Reg.rdx)),
   .instr (.op (.mov 32 Reg.rax Reg.rcx)),
   .instr (.op (.neg 32 Reg.rax)),
   .instr (.op (.add 32 Reg.rax (.imm 9))),
   .instr (.op (.cmp 32 Reg.rdx Reg.rax)),
   .instr (.jcc .ge .exitin),
   .instr (.jmp .inloop),
   .label .exch,
   .instr (.op (.mov 32 current Reg.rbx)),
   .instr (.op (.mov 32 following Reg.rax)),
   .instr (.jmp .check),
   .label .exitin,
   .instr (.op (.inc 32 Reg.rcx)),
   .instr (.op (.cmp 32 Reg.rcx (.imm 9))),
   .instr (.jcc .ge .exitout),
   .instr (.jmp .outloop),
   .label .exitout,
   .label .done]

/-- The labels of the second program. -/
inductive Loop
  | oloop | iloop | common
  deriving DecidableEq, Repr

/-- `[ebx]` -/
def here : Ea := ⟨32, .rbx, 1, 0⟩

/-- `[ebx+4]` -/
def behind : Ea := ⟨32, .rbx, 1, 4⟩

/-- `asm/bubble.asm` -/
def bubble : List (Item Loop) :=
  [.instr (.op (.mov 16 Reg.rdx (.imm 9))),
   .label .oloop,
   .instr (.op (.mov 16 Reg.rcx (.imm 9))),
   .instr (.op (.mov 32 Reg.rbx (.imm 0x600000))),
   .label .iloop,
   .instr (.op (.mov 32 Reg.rax here)),
   .instr (.op (.cmp 32 Reg.rax behind)),
   .instr (.jcc .l .common),
   .instr (.op (.xchg 32 .rax behind)),
   .instr (.op (.mov 32 here Reg.rax)),
   .label .common,
   .instr (.op (.add 32 Reg.rbx (.imm 4))),
   .instr (.loop .iloop),
   .instr (.op (.dec 16 Reg.rdx)),
   .instr (.jcc .ne .oloop)]

variable {m m' : Mem} {f : ℕ → ℤ} {i j : ℕ} {c : Core}

/-! ## The array in memory -/

theorem slot_apart (hi : i < 10) (hj : j < 10) (hne : i ≠ j) : Apart (slot i) 4 (slot j) 4 := by
  refine ⟨?_, ?_⟩ <;>
  · simp only [slot, BitVec.toNat_sub, BitVec.toNat_ofNat]
    omega

theorem load_slot_same (v : BitVec 32) : load 32 (store m (slot j) v) (slot j) = v :=
  load_store_same rfl (by decide)

theorem load_slot_of_ne (hi : i < 10) (hj : j < 10) (hne : i ≠ j) (v : BitVec 32) :
    load 32 (store m (slot j) v) (slot i) = load 32 m (slot i) :=
  load_store_of_apart (slot_apart hj hi hne.symm)

theorem onArray_slot (hj : j < 10) : onArray.allows [(slot j, 4)] = true := by
  refine Mapped.allows_iff.2 fun p hp k hk ↦ ?_
  obtain rfl := List.mem_singleton.1 hp
  have haddr : (slot j + BitVec.ofNat 64 k).toNat = 0x600000 + 4 * j + k := by
    dsimp only at hk
    simp only [slot, BitVec.toNat_add, BitVec.toNat_ofNat]
    omega
  dsimp only at hk
  simp only [onArray, haddr, Bool.and_eq_true, decide_eq_true_eq]
  omega

/-- An exchange in memory, in whatever order the elements are written. -/
theorem Holds.exchange (h : Holds m f) (hj : j < 9)
    (hle : (load 32 m (slot (j + 1))).toInt ≤ (load 32 m (slot j)).toInt)
    (hleft : load 32 m' (slot j) = load 32 m (slot (j + 1)))
    (hright : load 32 m' (slot (j + 1)) = load 32 m (slot j))
    (hrest : ∀ k < 10, k ≠ j → k ≠ j + 1 → load 32 m' (slot k) = load 32 m (slot k)) :
    Holds m' (exchange f j) := by
  rw [h j (by omega), h (j + 1) (by omega)] at hle
  intro k hk
  rcases eq_or_ne k (j + 1) with rfl | hk₁
  · rw [hright, exchange_right, max_eq_left hle, h j (by omega)]
  · rcases eq_or_ne k j with rfl | hk₀
    · rw [hleft, exchange_left, min_eq_right hle, h _ (by omega)]
    · rw [hrest k hk hk₀ hk₁, exchange_of_ne hk₀ hk₁, h k hk]

/-- The left element is written first. -/
theorem Holds.exchange_up (h : Holds m f) (hj : j < 9)
    (hle : (load 32 m (slot (j + 1))).toInt ≤ (load 32 m (slot j)).toInt) :
    Holds (store (store m (slot j) (load 32 m (slot (j + 1)))) (slot (j + 1)) (load 32 m (slot j)))
      (Bubble.exchange f j) := by
  refine h.exchange hj hle ?_ (load_slot_same _) fun k hk hk₀ hk₁ ↦ ?_
  · rw [load_slot_of_ne (by omega) (by omega) (by omega), load_slot_same]
  · rw [load_slot_of_ne hk (by omega) hk₁, load_slot_of_ne hk (by omega) hk₀]

/-- The right element is written first. -/
theorem Holds.exchange_down (h : Holds m f) (hj : j < 9)
    (hle : (load 32 m (slot (j + 1))).toInt ≤ (load 32 m (slot j)).toInt) :
    Holds (store (store m (slot (j + 1)) (load 32 m (slot j))) (slot j) (load 32 m (slot (j + 1))))
      (Bubble.exchange f j) := by
  refine h.exchange hj hle (load_slot_same _) ?_ fun k hk hk₀ hk₁ ↦ ?_
  · rw [load_slot_of_ne (by omega) (by omega) (by omega), load_slot_same]
  · rw [load_slot_of_ne hk (by omega) hk₀, load_slot_of_ne hk (by omega) hk₁]

/-- Elements that are in order. -/
theorem Holds.stay (h : Holds m f) (hj : j < 9)
    (hle : (load 32 m (slot j)).toInt ≤ (load 32 m (slot (j + 1))).toInt) :
    Holds m (Bubble.exchange f j) := by
  rw [exchange_of_le (by rwa [← h (j + 1) (by omega), ← h j (by omega)])]
  exact h

theorem ea_current (hj : j < 10) (h : c.get 32 .rdx = BitVec.ofNat 32 j) :
    c.ea current = slot j := by
  have hea : c.ea current = BitVec.ofNat 64 (j * 4 + 0x600000) :=
    c.ea_of_lt (d := 0x600000) h (by omega)
  rw [hea, slot, Nat.mul_comm, Nat.add_comm]

theorem ea_following (hj : j < 9) (h : c.get 32 .rdx = BitVec.ofNat 32 j) :
    c.ea following = slot (j + 1) := by
  have hea : c.ea following = BitVec.ofNat 64 (j * 4 + 0x600004) :=
    c.ea_of_lt (d := 0x600004) h (by omega)
  rw [hea, slot]
  congr 1
  omega

/-! ## The first program -/

/-- The two elements are loaded and compared. -/
def compare : List Op :=
  [.mov 32 Reg.rax current, .mov 32 Reg.rbx following, .cmp 32 Reg.rax Reg.rbx]

theorem compare_reaches (P : Image assemblyBubble) (hj : j < 9)
    (hedx : c.get 32 .rdx = BitVec.ofNat 32 j) :
    Reaches P onArray ⟨c, P.addr .inloop⟩
      ⟨((c.set .rax (load 32 c.mem (slot j))).set .rbx (load 32 c.mem (slot (j + 1)))).setFlags
        (flagsSub (load 32 c.mem (slot j)) (load 32 c.mem (slot (j + 1)))), P.start 5⟩ := by
  have hcur : c.ea current = slot j := ea_current (by omega) hedx
  have hnext (v : BitVec 32) : (c.set .rax v).ea following = slot (j + 1) :=
    ea_following hj ((c.get_set_of_ne (by decide) v).trans hedx)
  have hrun : run compare c = ((c.set .rax (load 32 c.mem (slot j))).set .rbx
      (load 32 c.mem (slot (j + 1)))).setFlags
        (flagsSub (load 32 c.mem (slot j)) (load 32 c.mem (slot (j + 1)))) := by
    rw [compare, run_cons, run_cons, run_cons, run_nil]
    simp [hcur, hnext, Core.get_set]
  rw [← hrun]
  refine Reaches.ops (k := 2) compare rfl ⟨?_, ?_, rfl, trivial⟩
  · simpa [hcur] using onArray_slot (j := j) (by omega)
  · simpa [hnext] using onArray_slot (j := j + 1) (by omega)

/-- The two elements are written back the other way round. -/
def exchanged : List Op := [.mov 32 current Reg.rbx, .mov 32 following Reg.rax]

theorem exchanged_reaches (P : Image assemblyBubble) (hj : j < 9)
    (hedx : c.get 32 .rdx = BitVec.ofNat 32 j) :
    Reaches P onArray ⟨c, P.addr .exch⟩
      ⟨(c.poke (slot j) (c.get 32 .rbx)).poke (slot (j + 1)) (c.get 32 .rax), P.start 15⟩ := by
  have hcur : c.ea current = slot j := ea_current (by omega) hedx
  have hnext (a : Addr) (v : BitVec 32) : (c.poke a v).ea following = slot (j + 1) :=
    ea_following hj hedx
  have hrun : run exchanged c =
      (c.poke (slot j) (c.get 32 .rbx)).poke (slot (j + 1)) (c.get 32 .rax) := by
    rw [exchanged, run_cons, run_cons, run_nil]
    simp [hcur, hnext]
  rw [← hrun]
  refine Reaches.ops (k := 13) exchanged rfl ⟨?_, ?_, trivial⟩
  · simpa [hcur] using onArray_slot (j := j) (by omega)
  · simpa [hnext] using onArray_slot (j := j + 1) (by omega)

/-- The counter `edx` is counted up and compared with `9 - ecx`. -/
def counted : List Op :=
  [.inc 32 Reg.rdx, .mov 32 Reg.rax Reg.rcx, .neg 32 Reg.rax, .add 32 Reg.rax (.imm 9),
    .cmp 32 Reg.rdx Reg.rax]

theorem mem_counted : (run counted c).mem = c.mem := by
  rw [counted]
  rfl

theorem ecx_counted : (run counted c).get 32 .rcx = c.get 32 .rcx := by
  rw [counted]
  rfl

theorem edx_counted : (run counted c).get 32 .rdx = c.get 32 .rdx + 1 := by
  rw [counted, run_cons, run_cons, run_cons, run_cons, run_cons, run_nil]
  simp [Core.get_set]

theorem flags_counted : (run counted c).flags =
    flagsSub (c.get 32 .rdx + 1) (-c.get 32 .rcx + BitVec.ofInt 32 9) := by
  rw [counted, run_cons, run_cons, run_cons, run_cons, run_cons, run_nil]
  simp [Core.get_set]

/-- A machine in round `i` of the first program, with `j` elements done. -/
structure InRound (f : ℕ → ℤ) (i j : ℕ) (c : Core) : Prop where
  holds : Holds c.mem f
  ecx : c.get 32 .rcx = BitVec.ofNat 32 i
  edx : c.get 32 .rdx = BitVec.ofNat 32 j

/-- The elements `j` and `j + 1` are put into order. -/
theorem exchange_reaches (P : Image assemblyBubble) (h : InRound f i j c) (hj : j < 9) :
    ∃ c', Reaches P onArray ⟨c, P.addr .inloop⟩ ⟨c', P.addr .check⟩ ∧
      InRound (exchange f j) i j c' := by
  have hcompare := compare_reaches P hj h.edx
  have hjg : (instrs assemblyBubble)[5]? = some (.jcc .g .exch) := rfl
  by_cases hlt : (load 32 c.mem (slot (j + 1))).toInt < (load 32 c.mem (slot j)).toInt
  · have hjump := hcompare.trans (.jcc_taken hjg (by simpa using hlt))
    refine ⟨_, hjump.trans ((exchanged_reaches P hj ?_).trans (.jmp rfl)), ?_, ?_, ?_⟩
    · simpa [Core.get_set] using h.edx
    · simpa [Core.get_set] using h.holds.exchange_up hj hlt.le
    · simpa [Core.get_set] using h.ecx
    · simpa [Core.get_set] using h.edx
  · have hjump := hcompare.trans (.jcc_passed hjg (by simpa using hlt))
    refine ⟨_, hjump, ?_, ?_, ?_⟩
    · exact h.holds.stay hj (Int.not_lt.1 hlt)
    · simpa [Core.get_set] using h.ecx
    · simpa [Core.get_set] using h.edx

theorem toInt_ofNat_of_lt {n : ℕ} (hn : n < 2 ^ 31) : (BitVec.ofNat 32 n).toInt = n := by
  rw [BitVec.toInt_eq_toNat_of_lt, BitVec.toNat_ofNat, Nat.mod_eq_of_lt (by omega)]
  rw [BitVec.toNat_ofNat]
  omega

/-- One more element is done, and the round goes on or ends. -/
theorem check_reaches (P : Image assemblyBubble) (h : InRound f i j c) (hi : i < 9) (hj : j < 9) :
    ∃ c', Reaches P onArray ⟨c, P.addr .check⟩
        ⟨c', if j + 1 < 9 - i then P.addr .inloop else P.addr .exitin⟩ ∧
      InRound f i (j + 1) c' := by
  have hops : Reaches P onArray ⟨c, P.addr .check⟩ ⟨run counted c, P.start 11⟩ :=
    Reaches.ops (k := 6) counted rfl ⟨rfl, rfl, rfl, rfl, rfl, trivial⟩
  have hround : InRound f i (j + 1) (run counted c) := by
    refine ⟨by rw [mem_counted]; exact h.holds, by rw [ecx_counted, h.ecx], ?_⟩
    rw [edx_counted, h.edx, BitVec.ofNat_add]
    rfl
  have hbound : -BitVec.ofNat 32 i + BitVec.ofInt 32 9 = BitVec.ofNat 32 (9 - i) := by
    apply BitVec.eq_of_toNat_eq
    simp only [BitVec.toNat_add, BitVec.toNat_neg, BitVec.toNat_ofNat,
      show (BitVec.ofInt 32 9).toNat = 9 from rfl]
    omega
  have hge : Cond.ge.holds (run counted c).flags = decide (9 - i ≤ j + 1) := by
    rw [flags_counted, ← edx_counted, hround.edx, h.ecx, hbound, holds_ge,
      toInt_ofNat_of_lt (by omega), toInt_ofNat_of_lt (by omega)]
    exact decide_eq_decide.2 Int.ofNat_le
  have hjge : (instrs assemblyBubble)[11]? = some (.jcc .ge .exitin) := rfl
  refine ⟨run counted c, hops.trans ?_, hround⟩
  by_cases hlt : j + 1 < 9 - i
  · rw [if_pos hlt]
    exact (Reaches.jcc_passed hjge (by rw [hge, decide_eq_false (by omega)])).trans (.jmp rfl)
  · rw [if_neg hlt]
    exact .jcc_taken hjge (by rw [hge, decide_eq_true (by omega)])

/-- **The inner loop** makes a pass. -/
theorem inloop_reaches (P : Image assemblyBubble) (hi : i < 9) (hj : j < 9 - i)
    (h : InRound (pass f j) i j c) :
    ∃ c', Reaches P onArray ⟨c, P.addr .inloop⟩ ⟨c', P.addr .exitin⟩ ∧
      InRound (pass f (9 - i)) i (9 - i) c' := by
  -- on what is left of the pass
  obtain ⟨d, hd⟩ : ∃ d, 9 - i = j + 1 + d := Nat.exists_eq_add_of_le hj
  induction d generalizing j c with
  | zero =>
    obtain ⟨c₁, hreach₁, h₁⟩ := exchange_reaches P h (by omega)
    obtain ⟨c₂, hreach₂, h₂⟩ := check_reaches P h₁ hi (by omega)
    rw [if_neg (by omega)] at hreach₂
    exact ⟨c₂, hreach₁.trans hreach₂, hd ▸ h₂⟩
  | succ d ih =>
    obtain ⟨c₁, hreach₁, h₁⟩ := exchange_reaches P h (by omega)
    obtain ⟨c₂, hreach₂, h₂⟩ := check_reaches P h₁ hi (by omega)
    rw [if_pos (by omega)] at hreach₂
    obtain ⟨c₃, hreach₃, h₃⟩ := ih (j := j + 1) (by omega) h₂ (by omega)
    exact ⟨c₃, hreach₁.trans (hreach₂.trans hreach₃), h₃⟩

/-- How far the passes of the first program go. -/
def shrinking (i : ℕ) : ℕ := 9 - i

/-- The counter `ecx` is counted up and compared with 9. -/
def recounted : List Op := [.inc 32 Reg.rcx, .cmp 32 Reg.rcx (.imm 9)]

theorem ecx_recounted : (run recounted c).get 32 .rcx = c.get 32 .rcx + 1 := by
  rw [recounted, run_cons, run_cons, run_nil]
  simp [Core.get_set]

theorem flags_recounted :
    (run recounted c).flags = flagsSub (c.get 32 .rcx + 1) (BitVec.ofNat 32 9) := by
  rw [← ecx_recounted]
  rfl

/-- One round. -/
theorem round_reaches (P : Image assemblyBubble) (hi : i < 9) (hmem : Holds c.mem f)
    (hecx : c.get 32 .rcx = BitVec.ofNat 32 i) :
    ∃ c', Reaches P onArray ⟨c, P.addr .outloop⟩
        ⟨c', if i + 1 < 9 then P.addr .outloop else P.addr .done⟩ ∧
      Holds c'.mem (pass f (9 - i)) ∧ c'.get 32 .rcx = BitVec.ofNat 32 (i + 1) := by
  have hstart : Reaches P onArray ⟨c, P.addr .outloop⟩
      ⟨c.set .rdx (BitVec.ofInt 32 0), P.addr .inloop⟩ :=
    Reaches.ops (k := 1) [.mov 32 Reg.rdx (.imm 0)] rfl ⟨rfl, trivial⟩
  have hround : InRound (pass f 0) i 0 (c.set .rdx (BitVec.ofInt 32 0)) := by
    refine ⟨hmem, ?_, ?_⟩
    · rw [Core.get_set_of_ne _ (by decide), hecx]
    · rw [Core.get_set _ (by decide), if_pos rfl]
      rfl
  obtain ⟨c', hpass, h'⟩ := inloop_reaches P hi (by omega) hround
  have hops : Reaches P onArray ⟨c', P.addr .exitin⟩ ⟨run recounted c', P.start 18⟩ :=
    Reaches.ops (k := 16) recounted rfl ⟨rfl, rfl, trivial⟩
  have hecx' : c'.get 32 .rcx + 1 = BitVec.ofNat 32 (i + 1) := by
    rw [h'.ecx, BitVec.ofNat_add]
    rfl
  have hge : Cond.ge.holds (run recounted c').flags = decide (9 ≤ i + 1) := by
    rw [flags_recounted, hecx', holds_ge, toInt_ofNat_of_lt (by omega),
      toInt_ofNat_of_lt (by omega)]
    exact decide_eq_decide.2 Int.ofNat_le
  have hjge : (instrs assemblyBubble)[18]? = some (.jcc .ge .exitout) := rfl
  refine ⟨run recounted c', hstart.trans (hpass.trans (hops.trans ?_)), h'.holds,
    ecx_recounted.trans hecx'⟩
  by_cases hlt : i + 1 < 9
  · rw [if_pos hlt]
    exact (Reaches.jcc_passed hjge (by rw [hge, decide_eq_false (by omega)])).trans (.jmp rfl)
  · rw [if_neg hlt]
    exact Reaches.jcc_taken (l := Label.exitout) hjge (by rw [hge, decide_eq_true (by omega)])

/-- **The outer loop** makes the passes. -/
theorem outloop_reaches (P : Image assemblyBubble) (hi : i < 9)
    (hmem : Holds c.mem (passes shrinking f i)) (hecx : c.get 32 .rcx = BitVec.ofNat 32 i) :
    ∃ c', Reaches P onArray ⟨c, P.addr .outloop⟩ ⟨c', P.addr .done⟩ ∧
      Holds c'.mem (passes shrinking f 9) := by
  obtain ⟨d, hd⟩ : ∃ d, 9 = i + 1 + d := Nat.exists_eq_add_of_le hi
  induction d generalizing i c with
  | zero =>
    obtain ⟨c₁, hreach, h₁, -⟩ := round_reaches P hi hmem hecx
    obtain rfl : i = 8 := by omega
    exact ⟨c₁, hreach, h₁⟩
  | succ d ih =>
    obtain ⟨c₁, hreach₁, h₁, hecx₁⟩ := round_reaches P hi hmem hecx
    rw [if_pos (by omega)] at hreach₁
    obtain ⟨c₂, hreach₂, h₂⟩ := ih (by omega) h₁ hecx₁ (by omega)
    exact ⟨c₂, hreach₁.trans hreach₂, h₂⟩

/-- The numbers in the array. -/
def numbers (m : Mem) (j : ℕ) : ℤ := (load 32 m (slot j)).toInt

theorem holds_numbers (m : Mem) : Holds m (numbers m) := fun _ _ ↦ rfl

theorem words_eq (h : Holds m f) : words m = (List.range 10).map (BitVec.ofInt 32 ∘ f) := by
  refine List.map_congr_left fun j hj ↦ ?_
  rw [Function.comp_apply, ← h j (List.mem_range.1 hj), BitVec.ofInt_toInt]

/-- Arrays with the same numbers have the same words. -/
theorem words_congr (h : Holds m f) (h' : Holds m' f) : words m = words m' := by
  rw [words_eq h, words_eq h']

theorem words_perm {g : ℕ → ℤ} (h : Holds m f) (h' : Holds m' g)
    (hperm : ((List.range 10).map f).Perm ((List.range 10).map g)) : (words m).Perm (words m') := by
  rw [words_eq h, words_eq h', ← List.map_map, ← List.map_map]
  exact hperm.map _

theorem shrinking_bound : ∀ i < 9, 9 - i ≤ shrinking i ∧ shrinking i ≤ 9 :=
  fun i _ ↦ ⟨le_rfl, Nat.sub_le 9 i⟩

/-- What the first program does. -/
theorem assemblyBubble_reaches (P : Image assemblyBubble) (c : Core) :
    ∃ c', Reaches P onArray ⟨c, P.start 0⟩ ⟨c', P.addr .done⟩ ∧
      Holds c'.mem (passes shrinking (numbers c.mem) 9) := by
  have hstart : Reaches P onArray ⟨c, P.start 0⟩
      ⟨c.set .rcx (BitVec.ofInt 32 0), P.addr .outloop⟩ :=
    Reaches.ops (k := 0) [.mov 32 Reg.rcx (.imm 0)] rfl ⟨rfl, trivial⟩
  have hecx : (c.set .rcx (BitVec.ofInt 32 0)).get 32 .rcx = BitVec.ofNat 32 0 := by
    rw [Core.get_set _ (by decide), if_pos rfl]
    rfl
  obtain ⟨c', hreach, h'⟩ := outloop_reaches P (by omega) (holds_numbers c.mem) hecx
  exact ⟨c', hstart.trans hreach, h'⟩

/-- The words are in order, as signed numbers. -/
def Sorted (m : Mem) : Prop := (words m).Pairwise fun x y ↦ x.toInt ≤ y.toInt

/-- **The first program sorts**, whatever the registers hold. -/
theorem assemblyBubble_sorts (P : Image assemblyBubble) (c : Core) :
    ∃ c', Reaches P onArray ⟨c, P.start 0⟩ ⟨c', P.addr .done⟩ ∧
      Sorted c'.mem ∧ (words c'.mem).Perm (words c.mem) ∧
      ∀ a, onArray a = false → c'.mem a = c.mem a := by
  obtain ⟨c', hreach, h'⟩ := assemblyBubble_reaches P c
  refine ⟨c', hreach, ?_, ?_, fun a ha ↦ hreach.mem_of_unmapped ha⟩
  · rw [Sorted, words, List.pairwise_map]
    refine List.pairwise_lt_range.imp_of_mem fun {p q} hp hq hlt ↦ ?_
    rw [h' p (List.mem_range.1 hp), h' q (List.mem_range.1 hq)]
    exact passes_sorted shrinking_bound _ hlt.le (Nat.lt_succ_iff.1 (List.mem_range.1 hq))
  · refine words_perm h' (holds_numbers c.mem) (passes_perm _ 9 fun i _ ↦ ?_)
    rw [shrinking]
    omega

/-! ## The second program -/

variable {r : Word} {x : BitVec 16}

/-- A machine in a round of the second program, with `j` elements done; `r` and `x` are counted
down. -/
structure InLoop (f : ℕ → ℤ) (j : ℕ) (r : Word) (x : BitVec 16) (c : Core) : Prop where
  holds : Holds c.mem f
  ebx : c.get 32 .rbx = BitVec.ofNat 32 (0x600000 + 4 * j)
  rcx : c.gpr .rcx = r
  dx : c.get 16 .rdx = x

theorem ea_here (hj : j < 10) (h : c.get 32 .rbx = BitVec.ofNat 32 (0x600000 + 4 * j)) :
    c.ea here = slot j := by
  have hea : c.ea here = BitVec.ofNat 64 ((0x600000 + 4 * j) * 1 + 0) :=
    c.ea_of_lt (d := 0) h (by omega)
  rw [hea, slot, Nat.mul_one, Nat.add_zero]

theorem ea_behind (hj : j < 10) (h : c.get 32 .rbx = BitVec.ofNat 32 (0x600000 + 4 * j)) :
    c.ea behind = slot (j + 1) := by
  have hea : c.ea behind = BitVec.ofNat 64 ((0x600000 + 4 * j) * 1 + 4) :=
    c.ea_of_lt (d := 4) h (by omega)
  rw [hea, slot, Nat.mul_one, Nat.mul_succ, Nat.add_assoc]

/-- The left element is loaded. -/
theorem loaded_reaches (P : Image bubble) (hj : j < 10)
    (hebx : c.get 32 .rbx = BitVec.ofNat 32 (0x600000 + 4 * j)) :
    Reaches P onArray ⟨c, P.addr .iloop⟩
      ⟨c.set .rax (load 32 c.mem (slot j)), P.start 4⟩ := by
  have hhere : c.ea here = slot j := ea_here hj hebx
  have hrun : run [.mov 32 Reg.rax here] c = c.set .rax (load 32 c.mem (slot j)) := by
    rw [run_cons, run_nil]
    simp [hhere]
  rw [← hrun]
  refine Reaches.ops (k := 3) _ rfl ⟨?_, trivial⟩
  simpa [hhere] using onArray_slot (j := j) hj

/-- `xchg` and `mov` write the two elements back the other way round. -/
def crossed : List Op := [.xchg 32 .rax behind, .mov 32 here Reg.rax]

theorem crossed_reaches (P : Image bubble) (h : InLoop f j r x c) (hj : j < 9)
    (heax : c.get 32 .rax = load 32 c.mem (slot j))
    (hle : (load 32 c.mem (slot (j + 1))).toInt ≤ (load 32 c.mem (slot j)).toInt) :
    ∃ c', Reaches P onArray ⟨c, P.start 6⟩ ⟨c', P.addr .common⟩ ∧
      InLoop (exchange f j) j r x c' := by
  have hhere (a : Addr) (v w : BitVec 32) : ((c.poke a v).set .rax w).ea here = slot j :=
    ea_here (by omega) ((Core.get_set_of_ne _ (by decide) w).trans h.ebx)
  have hbehind : c.ea behind = slot (j + 1) := ea_behind (by omega) h.ebx
  have hrun : run crossed c = ((c.poke (slot (j + 1)) (load 32 c.mem (slot j))).set .rax
      (load 32 c.mem (slot (j + 1)))).poke (slot j) (load 32 c.mem (slot (j + 1))) := by
    rw [crossed, run_cons, run_cons, run_nil]
    simp [hhere, hbehind, heax, Core.get_set]
  refine ⟨run crossed c, Reaches.ops (k := 6) crossed rfl ⟨?_, ?_, trivial⟩, ?_⟩
  · simpa [hbehind] using onArray_slot (j := j + 1) (by omega)
  · simpa [hhere, hbehind] using onArray_slot (j := j) (by omega)
  · rw [hrun]
    exact ⟨h.holds.exchange_down hj hle, h.ebx, h.rcx, h.dx⟩

/-- The next element's turn, or the end of the round. -/
theorem common_reaches (P : Image bubble) (h : InLoop f j r x c) :
    ∃ c', Reaches P onArray ⟨c, P.addr .common⟩
        ⟨c', if r - 1 = 0 then P.start 10 else P.addr .iloop⟩ ∧
      InLoop f (j + 1) (r - 1) x c' := by
  have hops : Reaches P onArray ⟨c, P.addr .common⟩
      ⟨run [.add 32 Reg.rbx (.imm 4)] c, P.start 9⟩ :=
    Reaches.ops (k := 8) _ rfl ⟨rfl, trivial⟩
  have hloop := Reaches.loop (P := P) (M := onArray) (c := run [.add 32 Reg.rbx (.imm 4)] c)
    (rfl : (instrs bubble)[9]? = some (.loop .iloop))
  have hrcx : (run [.add 32 Reg.rbx (.imm 4)] c).gpr .rcx = r := by
    rw [run_cons, run_nil, ← h.rcx]
    rfl
  have hebx : (run [.add 32 Reg.rbx (.imm 4)] c).get 32 .rbx = c.get 32 .rbx + 4 := by
    rw [run_cons, run_nil]
    simp [Core.get_set]
  rw [hrcx] at hloop
  refine ⟨_, hops.trans hloop, h.holds, ?_, ?_, ?_⟩
  · rw [Core.get_set_of_ne _ (by decide), hebx, h.ebx, Nat.mul_succ, ← Nat.add_assoc,
      BitVec.ofNat_add (0x600000 + 4 * j) 4]
    rfl
  · rw [Core.gpr_set, if_pos rfl, merge_64]
  · rw [Core.get_set_of_ne _ (by decide), ← h.dx]
    rfl

/-- The right element is compared with `eax`. -/
theorem compared_reaches (P : Image bubble) (hj : j < 9)
    (hebx : c.get 32 .rbx = BitVec.ofNat 32 (0x600000 + 4 * j)) :
    Reaches P onArray ⟨c, P.start 4⟩
      ⟨c.setFlags (flagsSub (c.get 32 .rax) (load 32 c.mem (slot (j + 1)))),
        if (c.get 32 .rax).toInt < (load 32 c.mem (slot (j + 1))).toInt then P.addr .common
        else P.start 6⟩ := by
  have hbehind : c.ea behind = slot (j + 1) := ea_behind (by omega) hebx
  have hrun : run [.cmp 32 Reg.rax behind] c =
      c.setFlags (flagsSub (c.get 32 .rax) (load 32 c.mem (slot (j + 1)))) := by
    rw [run_cons, run_nil]
    simp [hbehind]
  have hjump := Reaches.jcc (P := P) (M := onArray)
    (c := c.setFlags (flagsSub (c.get 32 .rax) (load 32 c.mem (slot (j + 1)))))
    (rfl : (instrs bubble)[5]? = some (.jcc .l .common))
  simp only [Core.flags_setFlags, holds_l, decide_eq_true_eq] at hjump
  rw [← hrun] at hjump ⊢
  refine (Reaches.ops (k := 4) [.cmp 32 Reg.rax behind] rfl ⟨?_, trivial⟩).trans hjump
  simpa [hbehind] using onArray_slot (j := j + 1) (by omega)

theorem InLoop.set_rax (h : InLoop f j r x c) (v : BitVec 32) : InLoop f j r x (c.set .rax v) :=
  ⟨h.holds, (Core.get_set_of_ne _ (by decide) v).trans h.ebx, h.rcx,
    (Core.get_set_of_ne _ (by decide) v).trans h.dx⟩

theorem InLoop.setFlags (h : InLoop f j r x c) (fl : X86.Flags) : InLoop f j r x (c.setFlags fl) :=
  ⟨h.holds, h.ebx, h.rcx, h.dx⟩

theorem InLoop.stay (h : InLoop f j r x c) (hj : j < 9)
    (hle : (load 32 c.mem (slot j)).toInt ≤ (load 32 c.mem (slot (j + 1))).toInt) :
    InLoop (exchange f j) j r x c := ⟨h.holds.stay hj hle, h.ebx, h.rcx, h.dx⟩

/-- The elements `j` and `j + 1` are put into order. -/
theorem element_reaches (P : Image bubble) (h : InLoop f j r x c) (hj : j < 9) :
    ∃ c', Reaches P onArray ⟨c, P.addr .iloop⟩
        ⟨c', if r - 1 = 0 then P.start 10 else P.addr .iloop⟩ ∧
      InLoop (exchange f j) (j + 1) (r - 1) x c' := by
  have hloaded := loaded_reaches P (by omega) h.ebx
  have hin := h.set_rax (load 32 c.mem (slot j))
  have heax : (c.set .rax (load 32 c.mem (slot j))).get 32 .rax = load 32 c.mem (slot j) :=
    (Core.get_set _ (by decide) ..).trans (if_pos rfl)
  have hcompared := compared_reaches P hj hin.ebx
  rw [heax, Core.mem_set] at hcompared
  by_cases hlt : (load 32 c.mem (slot j)).toInt < (load 32 c.mem (slot (j + 1))).toInt
  · rw [if_pos hlt] at hcompared
    have hin' : InLoop (exchange f j) j r x _ := (hin.setFlags
      (flagsSub (load 32 c.mem (slot j)) (load 32 c.mem (slot (j + 1))))).stay hj hlt.le
    obtain ⟨c', hcommon, h'⟩ := common_reaches P hin'
    exact ⟨c', hloaded.trans (hcompared.trans hcommon), h'⟩
  · rw [if_neg hlt] at hcompared
    obtain ⟨c₁, hcrossed, h₁⟩ := crossed_reaches P (hin.setFlags
      (flagsSub (load 32 c.mem (slot j)) (load 32 c.mem (slot (j + 1))))) hj heax
        (Int.not_lt.1 hlt)
    obtain ⟨c', hcommon, h'⟩ := common_reaches P h₁
    exact ⟨c', hloaded.trans (hcompared.trans (hcrossed.trans hcommon)), h'⟩

/-- **The inner loop** goes on as long as `rcx` does. -/
theorem iloop_reaches (P : Image bubble) (h : InLoop f 0 r x c) (hj : j ≤ 9) (hr : j < r.toNat) :
    ∃ c', Reaches P onArray ⟨c, P.addr .iloop⟩ ⟨c', P.addr .iloop⟩ ∧
      InLoop (pass f j) j (r - BitVec.ofNat 64 j) x c' := by
  induction j with
  | zero => exact ⟨c, .refl _, by simpa [Bubble.pass] using h⟩
  | succ j ih =>
    obtain ⟨c₁, hreach₁, h₁⟩ := ih (by omega) (by omega)
    obtain ⟨c₂, hreach₂, h₂⟩ := element_reaches P h₁ hj
    have hcount : r - BitVec.ofNat 64 j - 1 = r - BitVec.ofNat 64 (j + 1) := by bv_omega
    have hne : r - BitVec.ofNat 64 (j + 1) ≠ 0 := by bv_omega
    rw [hcount] at hreach₂ h₂
    rw [if_neg hne] at hreach₂
    exact ⟨c₂, hreach₁.trans hreach₂, h₂⟩

/-- The number that `loop` counts down, as `mov cx, 9` leaves it. -/
theorem merge_nine (old : Word) :
    (merge old (BitVec.ofInt 16 9)).toNat = (old >>> 16).toNat * 2 ^ 16 + 9 := by
  rw [merge, if_pos (by decide), BitVec.toNat_or, BitVec.toNat_shiftLeft,
    show ((BitVec.ofInt 16 9).setWidth 64).toNat = 9 from rfl, Nat.mod_eq_of_lt,
    ← Nat.shiftLeft_add_eq_or_of_lt (by decide), Nat.shiftLeft_eq]
  rw [Nat.shiftLeft_eq, BitVec.toNat_ushiftRight, Nat.shiftRight_eq_div_pow]
  omega

/-- A round starts. -/
theorem oloop_reaches (P : Image bubble) (hmem : Holds c.mem f) :
    ∃ c', Reaches P onArray ⟨c, P.addr .oloop⟩ ⟨c', P.addr .iloop⟩ ∧
      InLoop f 0 (merge (c.gpr .rcx) (BitVec.ofInt 16 9)) (c.get 16 .rdx) c' := by
  refine ⟨_, Reaches.ops (k := 1) [.mov 16 Reg.rcx (.imm 9), .mov 32 Reg.rbx (.imm 0x600000)] rfl
    ⟨rfl, rfl, trivial⟩, ?_⟩
  rw [run_cons, run_cons, run_nil]
  refine ⟨hmem, ?_, ?_, ?_⟩
  · simp [Core.get_set]
  · simp
  · simp [Core.get_set_of_ne]

/-- The rounds are counted. -/
theorem recounted_reaches (P : Image bubble) (hdx : c.get 16 .rdx = x) :
    Reaches P onArray ⟨c, P.start 10⟩ ⟨run [.dec 16 Reg.rdx] c,
      if x = 1 then P.start 12 else P.addr .oloop⟩ := by
  have hops : Reaches P onArray ⟨c, P.start 10⟩ ⟨run [.dec 16 Reg.rdx] c, P.start 11⟩ :=
    Reaches.ops (k := 10) _ rfl ⟨rfl, trivial⟩
  have hzf : (run [.dec 16 Reg.rdx] c).flags.zf = decide (x = 1) := by
    rw [← hdx]
    exact zf_flagsSub _ 1
  have hjne : (instrs bubble)[11]? = some (.jcc .ne .oloop) := rfl
  refine hops.trans ?_
  by_cases hone : x = 1
  · rw [if_pos hone]
    exact .jcc_passed hjne (by rw [Cond.holds, hzf, decide_eq_true hone]; rfl)
  · rw [if_neg hone]
    exact .jcc_taken hjne (by rw [Cond.holds, hzf, decide_eq_false hone]; rfl)

/-- One round, where `rcx` holds nothing above its lowest bits. -/
theorem oloop_round (P : Image bubble) (hmem : Holds c.mem f) (hrcx : c.gpr .rcx >>> 16 = 0) :
    ∃ c', Reaches P onArray ⟨c, P.addr .oloop⟩
        ⟨c', if c.get 16 .rdx = 1 then P.start 12 else P.addr .oloop⟩ ∧
      Holds c'.mem (pass f 9) ∧ c'.gpr .rcx >>> 16 = 0 ∧ c'.get 16 .rdx = c.get 16 .rdx - 1 := by
  obtain ⟨c₁, hreach₁, h₁⟩ := oloop_reaches P hmem
  have hnine : merge (c.gpr .rcx) (BitVec.ofInt 16 9) = 9 := by
    apply BitVec.eq_of_toNat_eq
    rw [merge_nine, hrcx]
    rfl
  rw [hnine] at h₁
  obtain ⟨c₂, hreach₂, h₂⟩ := iloop_reaches P h₁ (by omega : 8 ≤ 9) (by decide)
  obtain ⟨c₃, hreach₃, h₃⟩ := element_reaches P h₂ (by omega)
  rw [if_pos (by decide)] at hreach₃
  refine ⟨_, hreach₁.trans (hreach₂.trans (hreach₃.trans (recounted_reaches P h₃.dx))), h₃.holds,
    ?_, ?_⟩
  · show c₃.gpr .rcx >>> 16 = 0
    rw [h₃.rcx]
    decide
  · rw [run_cons, run_nil, ← h₃.dx]
    exact (Core.get_set _ (by decide) ..).trans (if_pos rfl)

/-- How far the passes of the second program go. -/
def constant (_ : ℕ) : ℕ := 9

/-- **The outer loop** makes nine passes. -/
theorem oloop_rounds (P : Image bubble) (hi : i < 9) (hmem : Holds c.mem (passes constant f i))
    (hrcx : c.gpr .rcx >>> 16 = 0) (hdx : c.get 16 .rdx = BitVec.ofNat 16 (9 - i)) :
    ∃ c', Reaches P onArray ⟨c, P.addr .oloop⟩ ⟨c', P.start 12⟩ ∧
      Holds c'.mem (passes constant f 9) := by
  obtain ⟨d, hd⟩ : ∃ d, 9 = i + 1 + d := Nat.exists_eq_add_of_le hi
  induction d generalizing i c with
  | zero =>
    obtain ⟨c₁, hreach, h₁, -⟩ := oloop_round P hmem hrcx
    obtain rfl : i = 8 := by omega
    have hone : c.get 16 .rdx = 1 := hdx
    rw [if_pos hone] at hreach
    exact ⟨c₁, hreach, h₁⟩
  | succ d ih =>
    obtain ⟨c₁, hreach₁, h₁, hrcx₁, hdx₁⟩ := oloop_round P hmem hrcx
    have hne : BitVec.ofNat 16 (9 - i) ≠ 1 := by
      rw [ne_eq, ← BitVec.toNat_inj, BitVec.toNat_ofNat]
      show ¬ _ = 1
      omega
    have hdx' : BitVec.ofNat 16 (9 - i) - 1 = BitVec.ofNat 16 (9 - (i + 1)) := by
      apply BitVec.eq_of_toNat_eq
      bv_omega
    rw [hdx, if_neg hne] at hreach₁
    rw [hdx, hdx'] at hdx₁
    obtain ⟨c₂, hreach₂, h₂⟩ := ih (by omega) h₁ hrcx₁ hdx₁ (by omega)
    exact ⟨c₂, hreach₁.trans hreach₂, h₂⟩

/-- What the second program does, where `rcx` holds nothing above its lowest bits. -/
theorem bubble_reaches (P : Image bubble) (hrcx : c.gpr .rcx >>> 16 = 0) :
    ∃ c', Reaches P onArray ⟨c, P.start 0⟩ ⟨c', P.start 12⟩ ∧
      Holds c'.mem (passes constant (numbers c.mem) 9) := by
  have hstart : Reaches P onArray ⟨c, P.start 0⟩
      ⟨c.set .rdx (BitVec.ofInt 16 9), P.addr .oloop⟩ :=
    Reaches.ops (k := 0) [.mov 16 Reg.rdx (.imm 9)] rfl ⟨rfl, trivial⟩
  have hdx : (c.set .rdx (BitVec.ofInt 16 9)).get 16 .rdx = BitVec.ofNat 16 (9 - 0) :=
    (Core.get_set _ (by decide) ..).trans (if_pos rfl)
  obtain ⟨c', hreach, h'⟩ := oloop_rounds P (c := c.set .rdx (BitVec.ofInt 16 9)) (i := 0)
    (by omega) (holds_numbers c.mem) hrcx hdx
  exact ⟨c', hstart.trans hreach, h'⟩

/-- Otherwise it goes on behind the array. -/
theorem bubble_leaves (P : Image bubble) (hrcx : c.gpr .rcx >>> 16 ≠ 0) :
    ∃ c', Reaches P onArray ⟨c, P.start 0⟩ ⟨c', P.start 4⟩ ∧
      step P onArray ⟨c', P.start 4⟩ = none := by
  have hstart : Reaches P onArray ⟨c, P.start 0⟩
      ⟨c.set .rdx (BitVec.ofInt 16 9), P.addr .oloop⟩ :=
    Reaches.ops (k := 0) [.mov 16 Reg.rdx (.imm 9)] rfl ⟨rfl, trivial⟩
  obtain ⟨c₁, hreach₁, h₁⟩ := oloop_reaches P (holds_numbers c.mem)
    (c := c.set .rdx (BitVec.ofInt 16 9))
  have hmany : 9 < (merge (c.gpr .rcx) (BitVec.ofInt 16 9)).toNat := by
    have hpos : (c.gpr .rcx >>> 16).toNat ≠ 0 := fun h ↦ hrcx (BitVec.eq_of_toNat_eq h)
    rw [merge_nine]
    omega
  obtain ⟨c₂, hreach₂, h₂⟩ := iloop_reaches P h₁ le_rfl hmany
  have hebx : (c₂.set .rax (load 32 c₂.mem (slot 9))).get 32 .rbx =
      BitVec.ofNat 32 (0x600000 + 4 * 9) := (Core.get_set_of_ne _ (by decide) _).trans h₂.ebx
  refine ⟨_, hstart.trans (hreach₁.trans (hreach₂.trans (loaded_reaches P (by omega) h₂.ebx))), ?_⟩
  have haccess : Instr.accesses (c₂.set .rax (load 32 c₂.mem (slot 9)))
      (.op (.cmp 32 Reg.rax behind) : Instr Loop) = [(slot 10, 4)] := by
    rw [← ea_behind (by omega) hebx]
    rfl
  rw [step_start (rfl : (instrs bubble)[4]? = some (.op (.cmp 32 Reg.rax behind))), haccess]
  exact if_neg (by decide)

/-- Where it comes to its end with only the array mapped, `rcx` held nothing above its lowest
bits. -/
theorem upper_eq_zero {P : Image bubble} {c' : Core} (h : Reaches P onArray ⟨c, P.start 0⟩
    ⟨c', P.start (instrs bubble).length⟩) : c.gpr .rcx >>> 16 = 0 := by
  by_contra hrcx
  obtain ⟨c₁, hleave, hfault⟩ := bubble_leaves P hrcx
  have hsame := h.final_unique hleave step_end hfault
  have hend := P.fetch_end
  rw [show P.start (instrs bubble).length = P.start 4 from congrArg State.rip hsame,
    P.fetch_start 4 (.op (.cmp 32 Reg.rax behind)) rfl] at hend
  exact absurd hend (by simp)

/-- The second program, started in `c`, comes to its end with only the array mapped (so it touches
nothing else), and does there what the first one does, whatever the registers hold then. -/
def Agrees (P : Image bubble) (c : Core) : Prop :=
  ∃ c', Reaches P onArray ⟨c, P.start 0⟩ ⟨c', P.start (instrs bubble).length⟩ ∧
    (∀ a, onArray a = false → c'.mem a = c.mem a) ∧
    ∀ (Q : Image assemblyBubble) (d : Core), d.mem = c.mem →
      ∃ d', Reaches Q onArray ⟨d, Q.start 0⟩ ⟨d', Q.addr .done⟩ ∧ words c'.mem = words d'.mem

/-- **The second program agrees with the first one** if and only if `rcx` holds nothing above its
lowest 16 bits. -/
theorem bubble_agrees_iff (P : Image bubble) (c : Core) :
    Agrees P c ↔ c.gpr .rcx >>> 16 = 0 := by
  refine ⟨fun ⟨_, hreach, _⟩ ↦ upper_eq_zero hreach, fun hrcx ↦ ?_⟩
  obtain ⟨c', hreach, h'⟩ := bubble_reaches P hrcx
  refine ⟨c', hreach, fun a ha ↦ hreach.mem_of_unmapped ha, fun Q d hd ↦ ?_⟩
  obtain ⟨d', hreach', h''⟩ := assemblyBubble_reaches Q d
  rw [hd, passes_eq shrinking_bound (fun i hi ↦ ⟨Nat.sub_le 9 i, le_rfl⟩) _ 9 le_rfl] at h''
  exact ⟨d', hreach', words_congr h' h''⟩

/-- A machine with an array of zeros, and `0x10000` in `rcx`. -/
def highCounter : Core :=
  ⟨fun r ↦ if r = .rcx then 0x10000 else 0, ⟨false, false, false, false⟩, fun _ ↦ 0⟩

/-- **A counter that is too high.**  With `0x10000` in `rcx` and ten zeros in the array the second
program does not come to its end without touching something else, and so does not agree with the
first one. -/
theorem bubble_disagrees :
    (highCounter.gpr .rcx = 0x10000 ∧ ∀ a, highCounter.mem a = 0) ∧
    (¬ ∃ c', Reaches (.place bubble (by decide) 0x400000) onArray
      ⟨highCounter, Image.start (.place bubble (by decide) 0x400000) 0⟩
      ⟨c', Image.start (.place bubble (by decide) 0x400000) (instrs bubble).length⟩) ∧
    ¬ Agrees (.place bubble (by decide) 0x400000) highCounter := by
  have hhigh : ¬ highCounter.gpr .rcx >>> 16 = 0 := by decide
  refine ⟨⟨rfl, fun _ ↦ rfl⟩, ?_, ?_⟩
  · rintro ⟨c', hreach⟩
    exact hhigh (upper_eq_zero hreach)
  · rintro ⟨c', hreach, -⟩
    exact hhigh (upper_eq_zero hreach)

end BubbleSort
