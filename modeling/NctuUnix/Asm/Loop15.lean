import NctuUnix.Lib.Amd64

/-!
# Fifteen letters

`asm/assembly/loop15.asm` goes through fifteen letters from the last one to the first and puts them
down in lower case.  There is a `loop` behind each of two bodies, and the first one falls through to
the second: when the first letter, which comes last, is a capital, the counter is zero there, and
the program goes on with all of the memory.

## Main results

* `body_reaches` — one letter.
* `end_lower` — wherever the program ends, the byte at `0x600000` is none of a capital.
* `converts_iff` — the program does its work if and only if the first letter is in lower case.
-/

set_option autoImplicit false

namespace Loop15

open Bytes Amd64
open X86 (Reg)

/-! ## The program -/

/-- The labels. -/
inductive Label
  | L1 | L2 | done
  deriving DecidableEq, Repr

/-- `[0x600000+ecx-1]` -/
def source : Ea := ⟨32, .rcx, 1, 0x600000 - 1⟩

/-- `[0x600010+ecx-1]` -/
def target : Ea := ⟨32, .rcx, 1, 0x600010 - 1⟩

/-- `asm/assembly/loop15.asm` -/
def loop15 : List (Item Label) :=
  [.instr (.op (.mov 32 Reg.rcx (.imm 15))),
   .label .L1,
   .instr (.op (.mov 8 Reg.rax source)),
   -- `'a'`
   .instr (.op (.cmp 8 Reg.rax (.imm 0x61))),
   .instr (.jcc .ae .L2),
   .instr (.op (.add 8 Reg.rax (.imm 0x20))),
   .instr (.op (.mov 8 target Reg.rax)),
   .instr (.loop .L1),
   .label .L2,
   .instr (.op (.mov 8 target Reg.rax)),
   .instr (.loop .L1),
   .label .done]

/-! ## What it is for -/

/-- A capital. -/
def isUpper (b : Byte) : Bool := decide (0x41 ≤ b.toNat) && decide (b.toNat ≤ 0x5a)

/-- A letter in lower case. -/
def isLower (b : Byte) : Bool := decide (0x61 ≤ b.toNat) && decide (b.toNat ≤ 0x7a)

/-- The letter in lower case. -/
def lower (b : Byte) : Byte := if isUpper b then b + 0x20 else b

/-- Letter `j` of the string. -/
def str1 (j : ℕ) : Addr := BitVec.ofNat 64 (0x600000 + j)

/-- Its place in the result. -/
def str2 (j : ℕ) : Addr := BitVec.ofNat 64 (0x600010 + j)

/-- An address outside of the fifteen bytes of the result. -/
def Outside (x : Addr) : Prop := ∀ j < 15, x ≠ str2 j

/-- The program comes to its end, with the fifteen letters in lower case behind the string and
nothing else changed. -/
def Converts (P : Image loop15) (M : Mapped) (c : Core) : Prop :=
  ∃ c', Reaches P M ⟨c, P.start 0⟩ ⟨c', P.addr .done⟩ ∧
    (∀ j < 15, c'.mem (str2 j) = lower (c.mem (str1 j))) ∧
    ∀ x, Outside x → c'.mem x = c.mem x

variable {P : Image loop15} {M : Mapped} {c d : Core} {j k : ℕ}

/-! ## Letters -/

theorem le_of_isLower {b : Byte} (h : isLower b = true) : 0x61 ≤ b.toNat := by
  rw [isLower, Bool.and_eq_true, decide_eq_true_eq, decide_eq_true_eq] at h
  exact h.1

theorem not_le_of_isUpper {b : Byte} (h : isUpper b = true) : ¬ 0x61 ≤ b.toNat := by
  rw [isUpper, Bool.and_eq_true, decide_eq_true_eq, decide_eq_true_eq] at h
  omega

theorem lower_of_isUpper {b : Byte} (h : isUpper b = true) : lower b = b + 0x20 := if_pos h

theorem lower_of_isLower {b : Byte} (h : isLower b = true) : lower b = b :=
  if_neg fun hupper ↦ not_le_of_isUpper hupper (le_of_isLower h)

/-! ## One letter -/

theorem str1_outside (hj : j < 16) : Outside (str1 j) := by
  intro i hi h
  have hnat := congrArg BitVec.toNat h
  simp only [str1, str2, BitVec.toNat_ofNat] at hnat
  omega

theorem str2_injective {i : ℕ} (hi : i < 16) (hj : j < 16) (h : str2 i = str2 j) : i = j := by
  have hnat := congrArg BitVec.toNat h
  simp only [str2, BitVec.toNat_ofNat] at hnat
  omega

theorem ecx_of_rcx (h : d.gpr .rcx = BitVec.ofNat 64 k) : d.get 32 .rcx =
    BitVec.ofNat 32 k := by
  rw [Core.get, h]
  exact BitVec.setWidth_ofNat_of_le (by decide) k

theorem ea_source (h : d.gpr .rcx = BitVec.ofNat 64 (k + 1)) (hk : k < 15) :
    d.ea source = str1 k := by
  have hea : d.ea source = BitVec.ofNat 64 ((k + 1) * 1 + 0x5fffff) :=
    d.ea_of_lt (d := 0x5fffff) (ecx_of_rcx h) (by omega)
  rw [hea, str1]
  congr 1
  omega

theorem ea_target (h : d.gpr .rcx = BitVec.ofNat 64 (k + 1)) (hk : k < 15) :
    d.ea target = str2 k := by
  have hea : d.ea target = BitVec.ofNat 64 ((k + 1) * 1 + 0x60000f) :=
    d.ea_of_lt (d := 0x60000f) (ecx_of_rcx h) (by omega)
  rw [hea, str2]
  congr 1
  omega

/-- Up to `k` there is still something to be done. -/
structure Converted (c : Core) (k : ℕ) (d : Core) : Prop where
  rcx : d.gpr .rcx = BitVec.ofNat 64 k
  letters : ∀ j < 15, k ≤ j → d.mem (str2 j) = lower (c.mem (str1 j))
  mem : ∀ x, Outside x → d.mem x = c.mem x

/-- What is mapped has to include the string and the result. -/
def Mapped15 (M : Mapped) : Prop := ∀ j < 15, M (str1 j) = true ∧ M (str2 j) = true

theorem allows_byte {x : Addr} (h : M x = true) : M.allows [(x, 1)] = true := by
  refine Mapped.allows_iff.2 fun p hp k hk ↦ ?_
  obtain rfl := List.mem_singleton.1 hp
  obtain rfl : k = 0 := by simpa using hk
  simpa using h

/-- A letter is loaded and compared with `'a'`. -/
theorem loaded_reaches (P : Image loop15) (hM : Mapped15 M) (hk : k < 15)
    (hrcx : d.gpr .rcx = BitVec.ofNat 64 (k + 1)) :
    Reaches P M ⟨d, P.addr .L1⟩ ⟨(d.set .rax (d.mem (str1 k))).setFlags
      (flagsSub (d.mem (str1 k)) 0x61#8),
        if 0x61 ≤ (d.mem (str1 k)).toNat then P.addr .L2 else P.start 4⟩ := by
  have hea := ea_source hrcx hk
  have hmov : Reaches P M ⟨d, P.start 1⟩ ⟨d.set .rax (d.mem (str1 k)), P.start 2⟩ := by
    have h := Reaches.op (P := P) (M := M) (c := d)
      (rfl : (instrs loop15)[1]? = some (.op (.mov 8 Reg.rax source)))
      (by simpa [hea] using allows_byte (hM k hk).1)
    simpa [hea, load_byte] using h
  have hcmp : Reaches P M ⟨d.set .rax (d.mem (str1 k)), P.start 2⟩
      ⟨(d.set .rax (d.mem (str1 k))).setFlags (flagsSub (d.mem (str1 k)) 0x61#8), P.start 3⟩ := by
    have h := Reaches.op (P := P) (M := M) (c := d.set .rax (d.mem (str1 k)))
      (rfl : (instrs loop15)[2]? = some (.op (.cmp 8 Reg.rax (.imm 0x61)))) rfl
    simpa [Core.get_set] using h
  have hjae := Reaches.jcc (P := P) (M := M)
    (c := (d.set .rax (d.mem (str1 k))).setFlags (flagsSub (d.mem (str1 k)) 0x61#8))
    (rfl : (instrs loop15)[3]? = some (.jcc .ae .L2))
  simp only [Core.flags_setFlags, holds_ae, decide_eq_true_eq] at hjae
  exact hmov.trans (hcmp.trans hjae)

/-- The end of each body: the letter is put down, and the counter goes down. -/
theorem put_reaches (P : Image loop15) (hM : Mapped15 M) (hk : k < 15) {i : ℕ} {v : Byte}
    (hrcx : d.gpr .rcx = BitVec.ofNat 64 (k + 1)) (hal : d.get 8 .rax = v)
    (hmov : (instrs loop15)[i]? = some (.op (.mov 8 target Reg.rax)))
    (hloop : (instrs loop15)[i + 1]? = some (.loop .L1)) :
    Reaches P M ⟨d, P.start i⟩ ⟨(d.poke (str2 k) v).set .rcx (BitVec.ofNat 64 k),
      if k = 0 then P.start (i + 2) else P.addr .L1⟩ := by
  have hea := ea_target hrcx hk
  have hfirst : Reaches P M ⟨d, P.start i⟩ ⟨d.poke (str2 k) v, P.start (i + 1)⟩ := by
    have h := Reaches.op (P := P) (M := M) (c := d) hmov
      (by simpa [hea] using allows_byte (hM k hk).2)
    simpa [hea, hal] using h
  have hcount : (d.poke (str2 k) v).gpr .rcx - 1 = BitVec.ofNat 64 k := by
    rw [Core.gpr_poke, hrcx]
    bv_omega
  have hzero : BitVec.ofNat 64 k = 0 ↔ k = 0 := by
    rw [← BitVec.toNat_inj, BitVec.toNat_ofNat, Nat.mod_eq_of_lt (by omega)]
    rfl
  have hsecond := Reaches.loop (P := P) (M := M) (c := d.poke (str2 k) v) hloop
  rw [hcount] at hsecond
  simp only [hzero] at hsecond
  exact hfirst.trans hsecond

/-- A letter that has been put down in lower case. -/
theorem Converted.put (h : Converted c (k + 1) d) (hk : k < 15) {d' : Core}
    (hmem : d'.mem = d.mem) :
    Converted c k ((d'.poke (str2 k) (lower (c.mem (str1 k)))).set .rcx (BitVec.ofNat 64 k)) := by
  have hput (x : Addr) : ((d'.poke (str2 k) (lower (c.mem (str1 k)))).set .rcx
      (BitVec.ofNat 64 k)).mem x = if x = str2 k then lower (c.mem (str1 k)) else d.mem x := by
    rw [Core.mem_set, Core.mem_poke, store_byte, hmem]
  refine ⟨by simp, fun j hj hkj ↦ ?_, fun x hx ↦ ?_⟩
  · rw [hput]
    split
    · rename_i heq
      rw [str2_injective (by omega) (by omega) heq]
    · rename_i hne
      have hne' : j ≠ k := fun h ↦ hne (h ▸ rfl)
      exact h.letters j hj (by omega)
  · rw [hput, if_neg (hx k hk)]
    exact h.mem x hx

/-- **One letter**, unless it is a capital and the last one. -/
theorem body_reaches (P : Image loop15) (hM : Mapped15 M) (h : Converted c (k + 1) d)
    (hk : k < 15) (hletter : isUpper (c.mem (str1 k)) = true ∨ isLower (c.mem (str1 k)) = true)
    (hfirst : k = 0 → isLower (c.mem (str1 k)) = true) :
    ∃ d', Reaches P M ⟨d, P.addr .L1⟩ ⟨d', if k = 0 then P.addr .done else P.addr .L1⟩ ∧
      Converted c k d' := by
  have hloaded := loaded_reaches P hM hk h.rcx
  rw [h.mem _ (str1_outside (by omega))] at hloaded
  by_cases hlower : isLower (c.mem (str1 k)) = true
  · have hput := put_reaches P hM hk (i := 7) (v := lower (c.mem (str1 k)))
      (d := (d.set .rax (c.mem (str1 k))).setFlags (flagsSub (c.mem (str1 k)) 0x61#8))
      h.rcx (by simp [Core.get_set, lower_of_isLower hlower]) rfl rfl
    rw [if_pos (le_of_isLower hlower)] at hloaded
    exact ⟨_, hloaded.trans hput, h.put hk rfl⟩
  · have hupper := hletter.resolve_right hlower
    have hk0 : k ≠ 0 := fun h0 ↦ hlower (hfirst h0)
    have hadd := Reaches.op (P := P) (M := M) (k := 4)
      (c := (d.set .rax (c.mem (str1 k))).setFlags (flagsSub (c.mem (str1 k)) 0x61#8))
      (rfl : (instrs loop15)[4]? = some (.op (.add 8 Reg.rax (.imm 0x20)))) rfl
    have hput := put_reaches P hM hk (i := 5) (v := lower (c.mem (str1 k)))
      (d := Op.exec ((d.set .rax (c.mem (str1 k))).setFlags
        (flagsSub (c.mem (str1 k)) 0x61#8)) (.add 8 Reg.rax (.imm 0x20)))
      h.rcx (by simp [Core.get_set, lower_of_isUpper hupper]) rfl rfl
    rw [if_neg (not_le_of_isUpper hupper)] at hloaded
    rw [if_neg hk0] at hput ⊢
    exact ⟨_, hloaded.trans (hadd.trans hput), h.put hk rfl⟩

/-- The rest of the letters. -/
theorem letters_reach (P : Image loop15) (hM : Mapped15 M) (hk : k < 15)
    (hletters : ∀ j < 15, isUpper (c.mem (str1 j)) = true ∨ isLower (c.mem (str1 j)) = true)
    (hfirst : isLower (c.mem (str1 0)) = true) (h : Converted c (k + 1) d) :
    ∃ c', Reaches P M ⟨d, P.addr .L1⟩ ⟨c', P.addr .done⟩ ∧ Converted c 0 c' := by
  induction k generalizing d with
  | zero =>
    obtain ⟨d', hreach, h'⟩ := body_reaches P hM h hk (hletters 0 hk) fun _ ↦ hfirst
    exact ⟨d', hreach, h'⟩
  | succ k ih =>
    obtain ⟨d₁, hreach₁, h₁⟩ := body_reaches P hM h hk (hletters _ hk) fun h0 ↦ by omega
    obtain ⟨d₂, hreach₂, h₂⟩ := ih (by omega) h₁
    exact ⟨d₂, hreach₁.trans hreach₂, h₂⟩

/-! ## The end -/

/-- What holds in front of instruction number `k`. -/
def AtInstr (k : ℕ) (d : Core) : Prop :=
  match k with
  | 2 => d.get 8 .rax = d.mem (d.ea source)
  | 3 => d.get 8 .rax = d.mem (d.ea source) ∧ d.flags = flagsSub (d.get 8 .rax) 0x61#8
  -- a capital comes here only when the counter has run out
  | 7 => d.gpr .rcx = 0 ∨ d.get 8 .rax = d.mem (d.ea source) ∧ 0x61 ≤ (d.get 8 .rax).toNat
  | 8 => d.gpr .rcx = 0 ∨ 0x61 ≤ (d.mem (d.ea source)).toNat
  | 9 => 0x61 ≤ (d.mem (str1 0)).toNat
  | _ => True

/-- A machine in front of some instruction, where it holds what has to. -/
def Invariant (P : Image loop15) (s : State) : Prop :=
  ∃ k ≤ 9, s.rip = P.start k ∧ AtInstr k s.toCore

theorem ea_source_set (d : Core) (v : Byte) : (d.set .rax v).ea source = d.ea source := by
  rw [Core.ea, Core.ea, source, Core.get_set_of_ne _ (by decide)]

theorem ea_source_poke (d : Core) (x : Addr) (v : Byte) : (d.poke x v).ea source = d.ea source := by
  rw [Core.ea, Core.ea, Core.get_poke]

theorem atInstr_loaded : AtInstr 2 (d.set .rax (load 8 d.mem (d.ea source))) := by
  show (d.set .rax (load 8 d.mem (d.ea source))).get 8 .rax =
    d.mem ((d.set .rax (load 8 d.mem (d.ea source))).ea source)
  rw [ea_source_set, Core.get_set _ (by decide), if_pos rfl, load_byte]

/-- Wherever `al` is put, the byte that was loaded is none of a capital. -/
theorem atInstr_put (h : AtInstr 7 d) : AtInstr 8 (d.poke (d.ea target) (d.get 8 .rax)) := by
  rcases h with h0 | ⟨hal, hle⟩
  · exact .inl h0
  · refine .inr ?_
    rw [ea_source_poke, Core.mem_poke, store_byte, ← hal, ite_self]
    exact hle

theorem atInstr_counted (h : AtInstr 8 d) (h0 : d.gpr .rcx - 1 = 0) :
    AtInstr 9 (d.set .rcx (d.gpr .rcx - 1)) := by
  have hone : d.gpr .rcx = BitVec.ofNat 64 (0 + 1) := by bv_omega
  rcases h with hzero | hle
  · rw [hzero] at hone
    exact absurd hone (by decide)
  · rwa [ea_source hone (by omega)] at hle

theorem atInstr_exhausted (h0 : d.gpr .rcx - 1 = 0) : AtInstr 7 (d.set .rcx (d.gpr .rcx - 1)) :=
  .inl (by rw [Core.gpr_set, if_pos rfl, merge_64, h0])

/-- What holds in front of an instruction holds in front of the next one. -/
theorem invariant_step {s : State} (hk : k ≤ 9) (h : AtInstr k d)
    (hs : step P M ⟨d, P.start k⟩ = some s) : Invariant P s := by
  rcases k with _ | _ | _ | _ | _ | _ | _ | _ | _ | _ | k
  · obtain rfl := exec_of_step rfl hs
    exact ⟨1, by omega, rfl, trivial⟩
  · obtain rfl := exec_of_step rfl hs
    exact ⟨2, by omega, rfl, atInstr_loaded⟩
  · obtain rfl := exec_of_step rfl hs
    exact ⟨3, by omega, rfl, h, rfl⟩
  · obtain rfl := exec_of_step rfl hs
    have hjump : Cond.ae.holds d.flags = decide (0x61 ≤ (d.get 8 .rax).toNat) := by
      rw [h.2, holds_ae]
      rfl
    by_cases hle : 0x61 ≤ (d.get 8 .rax).toNat
    · exact ⟨7, by omega, if_pos (hjump.trans (decide_eq_true hle)), .inr ⟨h.1, hle⟩⟩
    · refine ⟨4, by omega, if_neg ?_, trivial⟩
      rw [hjump, decide_eq_false hle]
      exact Bool.false_ne_true
  · obtain rfl := exec_of_step rfl hs
    exact ⟨5, by omega, rfl, trivial⟩
  · obtain rfl := exec_of_step rfl hs
    exact ⟨6, by omega, rfl, trivial⟩
  · obtain rfl := exec_of_step rfl hs
    by_cases h0 : d.gpr .rcx - 1 = 0
    · exact ⟨7, by omega, if_pos h0, atInstr_exhausted h0⟩
    · exact ⟨1, by omega, if_neg h0, trivial⟩
  · obtain rfl := exec_of_step rfl hs
    exact ⟨8, by omega, rfl, atInstr_put h⟩
  · obtain rfl := exec_of_step rfl hs
    by_cases h0 : d.gpr .rcx - 1 = 0
    · exact ⟨9, by omega, if_pos h0, atInstr_counted h h0⟩
    · exact ⟨1, by omega, if_neg h0, trivial⟩
  · exact absurd (hs.symm.trans step_end) (by simp)
  · omega

/-- **Wherever the program ends**, the byte at `0x600000` is none of a capital. -/
theorem end_lower {c' : Core} (h : Reaches P M ⟨c, P.start 0⟩ ⟨c', P.addr .done⟩) :
    0x61 ≤ (c'.mem (str1 0)).toNat := by
  obtain ⟨k, hk, hrip, hinv⟩ :=
    h.invariant (I := Invariant P) ⟨0, by omega, rfl, trivial⟩ fun t t' ht hs ↦ by
      obtain ⟨k, hk, hrip, hinv⟩ := ht
      obtain ⟨d, rip⟩ := t
      obtain rfl : rip = P.start k := hrip
      exact invariant_step hk hinv hs
  obtain rfl : 9 = k := P.start_injective hrip le_rfl hk
  exact hinv

/-- **The program converts fifteen letters** if and only if the first one is in lower case. -/
theorem converts_iff (P : Image loop15) (M : Mapped) (c : Core) (hM : Mapped15 M)
    (hletters : ∀ j < 15, isUpper (c.mem (str1 j)) = true ∨ isLower (c.mem (str1 j)) = true) :
    Converts P M c ↔ isLower (c.mem (str1 0)) = true := by
  refine ⟨fun ⟨c', hreach, _, hmem⟩ ↦ ?_, fun hfirst ↦ ?_⟩
  · have hle := end_lower hreach
    rw [hmem _ (str1_outside (by omega))] at hle
    exact (hletters 0 (by omega)).resolve_left fun hupper ↦ not_le_of_isUpper hupper hle
  · have hstart : Reaches P M ⟨c, P.start 0⟩ ⟨c.set .rcx (BitVec.ofInt 32 15), P.addr .L1⟩ :=
      Reaches.op (k := 0) (o := .mov 32 Reg.rcx (.imm 15)) rfl rfl
    obtain ⟨c', hreach, h'⟩ := letters_reach P hM (k := 14) (by omega) hletters hfirst
      (d := c.set .rcx (BitVec.ofInt 32 15)) ⟨rfl, fun j hj hle ↦ by omega, fun _ _ ↦ rfl⟩
    exact ⟨c', hstart.trans hreach, fun j hj ↦ h'.letters j hj (Nat.zero_le j), h'.mem⟩

/-- A machine with `b` for the first letter, and otherwise `B`. -/
def startingWith (b : Byte) : Core :=
  ⟨fun _ ↦ 0, ⟨false, false, false, false⟩, fun x ↦ if x = str1 0 then b else 0x42⟩

theorem startingWith_letters {b : Byte} (h : isUpper b = true ∨ isLower b = true) (j : ℕ) :
    isUpper ((startingWith b).mem (str1 j)) = true ∨
      isLower ((startingWith b).mem (str1 j)) = true := by
  have hmem : (startingWith b).mem (str1 j) = if str1 j = str1 0 then b else 0x42 := rfl
  rw [hmem]
  by_cases hj : str1 j = str1 0
  · rwa [if_pos hj]
  · rw [if_neg hj]
    exact .inl (by decide)

theorem converts_iff_aB :
    Converts (.place loop15 (by decide) 0x400000) (fun _ ↦ true) (startingWith 0x61) :=
  (converts_iff _ _ _ (fun _ _ ↦ ⟨rfl, rfl⟩)
    fun j _ ↦ startingWith_letters (.inr (by decide)) j).2 (by decide)

/-- **A capital in front.**  With `ABBBBBBBBBBBBBB` the program does not come to its end with the
first byte unchanged. -/
theorem converts_fails :
    ((List.range 15).map (fun j ↦ (startingWith 0x41).mem (str1 j)) =
        0x41 :: List.replicate 14 0x42 ∧ Mapped15 fun _ ↦ true) ∧
    (∀ c', Reaches (.place loop15 (by decide) 0x400000) (fun _ ↦ true)
        ⟨startingWith 0x41, Image.start (.place loop15 (by decide) 0x400000) 0⟩
        ⟨c', Image.addr (.place loop15 (by decide) 0x400000) .done⟩ →
      c'.mem (str1 0) ≠ 0x41) ∧
    ¬ Converts (.place loop15 (by decide) 0x400000) (fun _ ↦ true) (startingWith 0x41) := by
  refine ⟨⟨by decide, fun _ _ ↦ ⟨rfl, rfl⟩⟩, fun c' hreach heq ↦ ?_, ?_⟩
  · have hle := end_lower hreach
    rw [heq] at hle
    exact absurd hle (by decide)
  · rintro ⟨c', hreach, -, hmem⟩
    have hle := end_lower hreach
    rw [hmem _ (str1_outside (by omega))] at hle
    exact absurd hle (by decide)

end Loop15
