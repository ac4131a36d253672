import Mathlib.Data.List.Induction
import NctuUnix.Hw4.Wait
import NctuUnix.Lib.Run

/-!
# The tracer that takes the traps out

The tracer of `no_more_traps` lets its tracee run from one `int3` to the next and puts an
instruction byte in the place of each, which it reads from a file as two hexadecimal digits.  The
file is read with `fgetc`, and what is no digit is taken as it comes, so the value that is put into
the word at the trap can have more than eight bits.

## Main results

* `fptr_run` — there are two characters for each trap that is taken out.
* `patches_iff` — in a run every trap is replaced by the next byte of the file, and nothing else is
  changed, if and only if each time the word at the trap can be read and the bits of the value above
  the lowest eight are there already.
-/

set_option autoImplicit false

namespace NoMoreTraps

open Bytes Trap Transition

/-! ## The file -/

/-- `fgetc`, with what is left of the file; the result is an `int`. -/
def fgetc : List Byte → BitVec 32 × List Byte
  | [] => (-1, [])
  | b :: rest => (b.setWidth 32, rest)

/-- `to_hex(c)`; the cast to `long` extends the sign. -/
def toHex (c : BitVec 32) : Word :=
  let num := c.signExtend 64
  if num < 58 && num > 47 then num - 48
  else if num < 103 && num > 96 then num - 87
  else num

/-- `hex` -/
def nextHex (fptr : List Byte) : Word :=
  toHex (fgetc fptr).1 <<< 4 ||| toHex (fgetc (fgetc fptr).2).1

/-- What is left of the file then. -/
def afterHex (fptr : List Byte) : List Byte := (fgetc (fgetc fptr).2).2

/-! ## The tracer -/

/-- What the tracer keeps. -/
structure Tracer where
  /-- What has not been read of the file. -/
  fptr : List Byte
  INT_cont : ℕ
  deriving DecidableEq, Repr

variable {ρ ε : Type} [ProgramCounter ρ]

/-- The eight bytes at `a` are mapped. -/
def wordMapped (mapped : ε → Addr → Bool) (e : ε) (a : Addr) : Bool :=
  (List.range 8).all fun k ↦ mapped e (a + BitVec.ofNat 64 k)

/-- `PTRACE_PEEKTEXT`; the result is `-1` when the request fails, and nobody looks. -/
def peekText (mapped : ε → Addr → Bool) (c : Cpu ρ ε) (a : Addr) : Word :=
  if wordMapped mapped c.env a then loadWord c.mem a else BitVec.allOnes 64

/-- `PTRACE_POKETEXT`; `none`: the tracer quits. -/
def pokeText (mapped : ε → Addr → Bool) (c : Cpu ρ ε) (a : Addr) (w : Word) : Option (Cpu ρ ε) :=
  if wordMapped mapped c.env a then some { c with mem := storeWord c.mem a w } else none

/-- The body of the loop for a tracee that has stopped; `none`: the tracer quits. -/
def onStop (mapped : ε → Addr → Bool) (s : Tracer) (c : Cpu ρ ε) : Option (Tracer × Cpu ρ ε) :=
  let regs := setPc c.regs (pc c.regs - 1)
  let code := peekText mapped c (pc regs)
  if byteOf code 0 = int3 then
    (pokeText mapped c (pc regs) (code &&& 0xffffffffffffff00 ||| nextHex s.fptr)).map fun c' ↦
      (⟨afterHex s.fptr, s.INT_cont + 1⟩, { c' with regs := regs })
  else some (s, c)

/-- The body of the loop, for what `waitpid` reports. -/
def onEvent (mapped : ε → Addr → Bool) (s : Tracer) (ev : Event ρ ε) :
    Option (Tracer × Option (Cpu ρ ε)) :=
  if !Sdb.WIFSTOPPED (Sdb.status ev) then some (s, none)
  else
    match ev.survivor with
    | none => some (s, none)
    | some c => (onStop mapped s c).map fun r ↦ (r.1, some r.2)

/-- The loop. -/
def run (mapped : ε → Addr → Bool) (text : List Byte) (evs : List (Event ρ ε)) : Option Tracer :=
  evs.foldlM (fun s ev ↦ (onEvent mapped s ev).map Prod.fst) ⟨text, 0⟩

/-! ## What it is there for -/

/-- The tracee has stopped behind a trap. -/
def AtTrap (mapped : ε → Addr → Bool) (c : Cpu ρ ε) : Prop :=
  mapped c.env (pc c.regs - 1) = true ∧ c.mem (pc c.regs - 1) = int3

instance (mapped : ε → Addr → Bool) (c : Cpu ρ ε) : Decidable (AtTrap mapped c) :=
  instDecidableAnd

/-- The value of a hexadecimal digit; capitals are none. -/
def digit? (b : Byte) : Option Byte :=
  if 0x30 ≤ b ∧ b ≤ 0x39 then some (b - 0x30)
  else if 0x61 ≤ b ∧ b ≤ 0x66 then some (b - 0x57)
  else none

/-- The byte that two characters encode. -/
def encoded? : List Byte → Option Byte
  | b₁ :: b₂ :: _ => (digit? b₁).bind fun d₁ ↦ (digit? b₂).map fun d₂ ↦ d₁ <<< 4 ||| d₂
  | _ => none

/-- How many traps have been met. -/
def traps (mapped : ε → Addr → Bool) (evs : List (Event ρ ε)) : ℕ :=
  evs.countP fun ev ↦ ev.survivor.any fun c ↦ decide (AtTrap mapped c)

/-- Nothing but the byte at the trap is changed, `rip` is set back to it, and the byte is the one
that is encoded at the beginning of `text`, if there is one. -/
structure Patched (text : List Byte) (c c' : Cpu ρ ε) : Prop where
  mem : ∀ a, a ≠ pc c.regs - 1 → c'.mem a = c.mem a
  rip : pc c'.regs = pc c.regs - 1
  byte : ∀ b ∈ encoded? text, c'.mem (pc c.regs - 1) = b

/-- Every stop behind a trap patches it, the `k`-th one with the `k`-th byte of the file. -/
def Patches (mapped : ε → Addr → Bool) (text : List Byte) (evs : List (Event ρ ε)) : Prop :=
  EachTime (fun before ev ↦ ∀ c, ev.survivor = some c → AtTrap mapped c →
    ∃ s s' c', run mapped text before = some s ∧ onEvent mapped s ev = some (s', some c') ∧
      Patched (text.drop (2 * traps mapped before)) c c') evs

/-- The word at the trap can be read, and the bits of the value above the lowest eight are set
already. -/
structure Fits (mapped : ε → Addr → Bool) (fptr : List Byte) (c : Cpu ρ ε) : Prop where
  readable : wordMapped mapped c.env (pc c.regs - 1) = true
  bits : ∀ k, 1 ≤ k → k < 8 → c.mem (pc c.regs - 1 + BitVec.ofNat 64 k) |||
    byteOf (nextHex fptr) k = c.mem (pc c.regs - 1 + BitVec.ofNat 64 k)

variable {mapped : ε → Addr → Bool} {s s' : Tracer} {c c' : Cpu ρ ε} {text : List Byte}
  {ev : Event ρ ε} {evs : List (Event ρ ε)}

/-! ## The characters -/

theorem afterHex_eq (fptr : List Byte) : afterHex fptr = fptr.drop 2 := by
  rcases fptr with _ | ⟨b₁, _ | ⟨b₂, rest⟩⟩ <;> rfl

/-- A digit has four bits, which `hex` makes room for. -/
theorem toHex_digit (b : Byte) : (digit? b).all (fun d : Byte ↦ toHex (b.setWidth 32) =
    d.setWidth 64 ∧ d.setWidth 64 <<< 4 = (d <<< 4).setWidth 64) = true := by
  revert b
  decide +kernel

/-- Two digits give the byte they encode. -/
theorem nextHex_of_encoded {fptr : List Byte} {b : Byte} (h : encoded? fptr = some b) :
    nextHex fptr = b.setWidth 64 := by
  rcases fptr with _ | ⟨b₁, _ | ⟨b₂, rest⟩⟩
  · exact absurd h (by simp [encoded?])
  · exact absurd h (by simp [encoded?])
  · obtain ⟨d₁, h₁, hmap⟩ := Option.bind_eq_some_iff.1 h
    obtain ⟨d₂, h₂, rfl⟩ := Option.map_eq_some_iff.1 hmap
    have hd₁ := toHex_digit b₁
    have hd₂ := toHex_digit b₂
    rw [h₁, Option.all_some, decide_eq_true_eq] at hd₁
    rw [h₂, Option.all_some, decide_eq_true_eq] at hd₂
    rw [nextHex, fgetc, fgetc, hd₁.1, hd₂.1, hd₁.2, BitVec.setWidth_or]

/-! ## The word at the trap -/

/-- The bits of the value above the lowest eight are added to those of the bytes behind the trap. -/
theorem byteOf_merge (w v : Word) {k : ℕ} (hk : 1 ≤ k) (hk8 : k < 8) :
    byteOf (w &&& 0xffffffffffffff00 ||| v) k = byteOf w k ||| byteOf v k := by
  have hmask : byteOf 0xffffffffffffff00 k = BitVec.allOnes 8 := by
    interval_cases k <;> decide
  rw [byteOf, BitVec.extractLsb'_or, BitVec.extractLsb'_and]
  change byteOf w k &&& byteOf 0xffffffffffffff00 k ||| byteOf v k = _
  rw [hmask, BitVec.and_allOnes]

/-- The byte at the trap is the lowest one of the value. -/
theorem byteOf_merge_zero (w v : Word) :
    byteOf (w &&& 0xffffffffffffff00 ||| v) 0 = byteOf v 0 := by
  have hmask : byteOf 0xffffffffffffff00 0 = 0 := by decide
  rw [byteOf, BitVec.extractLsb'_or, BitVec.extractLsb'_and]
  change byteOf w 0 &&& byteOf 0xffffffffffffff00 0 ||| byteOf v 0 = _
  rw [hmask]
  simp

theorem byteOf_setWidth (b : Byte) : byteOf (b.setWidth 64) 0 = b := by
  revert b
  decide +kernel

/-- What the patch leaves alone. -/
theorem merge_local_iff {m : Mem} {a : Addr} {v : Word} :
    (∀ x, x ≠ a → storeWord m a (loadWord m a &&& 0xffffffffffffff00 ||| v) x = m x) ↔
      ∀ k, 1 ≤ k → k < 8 →
        m (a + BitVec.ofNat 64 k) ||| byteOf v k = m (a + BitVec.ofNat 64 k) := by
  rw [storeWord_local_iff]
  refine forall₃_congr fun k hk hk8 ↦ ?_
  rw [byteOf_merge _ _ hk hk8, byteOf_loadWord m a hk8, eq_comm]

/-! ## One stop -/

theorem byteOf_peekText (h : wordMapped mapped c.env (pc c.regs - 1) = true) :
    byteOf (peekText mapped c (pc c.regs - 1)) 0 = c.mem (pc c.regs - 1) := by
  rw [peekText, if_pos h, byteOf_loadWord _ _ (by decide), BitVec.ofNat_eq_ofNat, BitVec.add_zero]

/-- A trap that can be read is taken out. -/
theorem onStop_of_readable (h : wordMapped mapped c.env (pc c.regs - 1) = true)
    (htrap : c.mem (pc c.regs - 1) = int3) : onStop mapped s c =
      some (⟨s.fptr.drop 2, s.INT_cont + 1⟩, { c with
        regs := setPc c.regs (pc c.regs - 1)
        mem := storeWord c.mem (pc c.regs - 1)
          (loadWord c.mem (pc c.regs - 1) &&& 0xffffffffffffff00 ||| nextHex s.fptr) }) := by
  have hbyte := byteOf_peekText h
  rw [onStop]
  simp only [pc_setPc]
  rw [if_pos (hbyte.trans htrap), pokeText, if_pos h, peekText, if_pos h, afterHex_eq]
  rfl

/-- Elsewhere the tracee goes on as it is. -/
theorem onStop_of_not (h : ¬ (wordMapped mapped c.env (pc c.regs - 1) = true ∧
    c.mem (pc c.regs - 1) = int3)) : onStop mapped s c = some (s, c) := by
  rw [onStop]
  simp only [pc_setPc]
  refine if_neg fun hbyte ↦ ?_
  by_cases hmap : wordMapped mapped c.env (pc c.regs - 1) = true
  · exact h ⟨hmap, (byteOf_peekText hmap).symm.trans hbyte⟩
  · rw [peekText, if_neg hmap] at hbyte
    exact absurd hbyte (by decide)

/-- The tracer never quits. -/
theorem onEvent_isSome (mapped : ε → Addr → Bool) (s : Tracer) (ev : Event ρ ε) :
    (onEvent mapped s ev).isSome = true := by
  rw [onEvent]
  split
  · rfl
  · split
    · rfl
    · rename_i c _
      by_cases h : wordMapped mapped c.env (pc c.regs - 1) = true ∧ c.mem (pc c.regs - 1) = int3
      · rw [onStop_of_readable h.1 h.2]
        rfl
      · rw [onStop_of_not h]
        rfl

/-- A tracee that has stopped is looked at. -/
theorem onEvent_of_survivor (h : ev.survivor = some c) :
    onEvent mapped s ev = (onStop mapped s c).map fun r ↦ (r.1, some r.2) := by
  have hstopped : Sdb.WIFSTOPPED (Sdb.status ev) = true := by
    rcases ev with ⟨sig, c'⟩ | code | ⟨sig, core⟩
    · exact (Sdb.status_stopped sig c').2.1
    · exact absurd h (by simp [Event.survivor])
    · exact absurd h (by simp [Event.survivor])
  rw [onEvent, hstopped]
  simp only [Bool.not_true, Bool.false_eq_true, if_false, h]

/-- No stop, no trap. -/
theorem onEvent_of_none (h : ev.survivor = none) : onEvent mapped s ev = some (s, none) := by
  rw [onEvent]
  simp only [h, ite_self]

theorem AtTrap.mapped_of_word (h : wordMapped mapped c.env (pc c.regs - 1) = true) :
    mapped c.env (pc c.regs - 1) = true := by
  have hall := List.all_eq_true.1 h 0 (by decide)
  rwa [BitVec.ofNat_eq_ofNat, BitVec.add_zero] at hall

/-- **One stop.**  The trap is patched if and only if the value fits. -/
theorem patched_iff (htrap : AtTrap mapped c) :
    (∃ s' c', onStop mapped s c = some (s', c') ∧ Patched s.fptr c c') ↔ Fits mapped s.fptr c := by
  by_cases h : wordMapped mapped c.env (pc c.regs - 1) = true
  · rw [onStop_of_readable h htrap.2]
    refine ⟨?_, fun hfits ↦ ⟨_, _, rfl, ?_, pc_setPc .., ?_⟩⟩
    · rintro ⟨s', c', heq, hp⟩
      obtain ⟨-, rfl⟩ := Prod.mk.inj (Option.some.inj heq)
      exact ⟨h, merge_local_iff.1 hp.mem⟩
    · exact merge_local_iff.2 hfits.bits
    · intro b hb
      dsimp only
      rw [storeWord_self, byteOf_merge_zero, nextHex_of_encoded hb, byteOf_setWidth]
  · rw [onStop_of_not fun hn ↦ h hn.1]
    refine iff_of_false ?_ fun hfits ↦ h hfits.readable
    rintro ⟨s', c', heq, hp⟩
    obtain ⟨-, rfl⟩ := Prod.mk.inj (Option.some.inj heq)
    have hrip := hp.rip
    bv_omega

/-! ## Runs -/

theorem run_concat (evs : List (Event ρ ε)) (ev : Event ρ ε) : run mapped text (evs ++ [ev]) =
    (run mapped text evs).bind fun s ↦ (onEvent mapped s ev).map Prod.fst := by
  rw [run, List.foldlM_append]
  refine congrArg (run mapped text evs).bind (funext fun s ↦ ?_)
  rw [List.foldlM_cons]
  rcases onEvent mapped s ev with _ | r <;> rfl

/-- There are two characters for each trap that has been taken out. -/
theorem fptr_run (mapped : ε → Addr → Bool) (text : List Byte) (evs : List (Event ρ ε)) :
    ∃ s, run mapped text evs = some s ∧ s.fptr = text.drop (2 * s.INT_cont) := by
  induction evs using List.reverseRecOn with
  | nil => exact ⟨⟨text, 0⟩, rfl, rfl⟩
  | append_singleton evs ev ih =>
    obtain ⟨s, hs, hfptr⟩ := ih
    rw [run_concat, hs, Option.bind_some]
    rcases hsurv : ev.survivor with _ | c
    · rw [onEvent_of_none hsurv]
      exact ⟨s, rfl, hfptr⟩
    · rw [onEvent_of_survivor hsurv]
      by_cases h : wordMapped mapped c.env (pc c.regs - 1) = true ∧ c.mem (pc c.regs - 1) = int3
      · rw [onStop_of_readable h.1 h.2]
        refine ⟨_, rfl, ?_⟩
        show s.fptr.drop 2 = text.drop (2 * (s.INT_cont + 1))
        rw [hfptr, List.drop_drop]
        rfl
      · rw [onStop_of_not h]
        exact ⟨s, rfl, hfptr⟩

/-- At every stop behind a trap the value fits that is read there. -/
def Fitting (mapped : ε → Addr → Bool) (text : List Byte) (evs : List (Event ρ ε)) : Prop :=
  EachTime (fun before ev ↦ ∀ c, ev.survivor = some c → AtTrap mapped c →
    Fits mapped (text.drop (2 * traps mapped before)) c) evs

theorem traps_concat (evs : List (Event ρ ε)) (ev : Event ρ ε) : traps mapped (evs ++ [ev]) =
    traps mapped evs + if ev.survivor.any (fun c ↦ decide (AtTrap mapped c)) then 1 else 0 := by
  rw [traps, List.countP_append, List.countP_singleton]
  rfl

/-- As long as the values fit, no trap is left out. -/
theorem Fitting.intCont (h : Fitting mapped text evs) :
    ∃ s, run mapped text evs = some s ∧ s.INT_cont = traps mapped evs := by
  induction evs using List.reverseRecOn with
  | nil => exact ⟨⟨text, 0⟩, rfl, rfl⟩
  | append_singleton evs ev ih =>
    obtain ⟨hevs, hev⟩ := eachTime_concat.1 h
    obtain ⟨s, hs, hcont⟩ := ih hevs
    rw [run_concat, hs, Option.bind_some, traps_concat, ← hcont]
    rcases hsurv : ev.survivor with _ | c
    · rw [onEvent_of_none hsurv]
      exact ⟨s, rfl, rfl⟩
    · rw [onEvent_of_survivor hsurv, Option.any_some]
      by_cases htrap : AtTrap mapped c
      · rw [onStop_of_readable (hev c hsurv htrap).readable htrap.2, if_pos (decide_eq_true htrap)]
        exact ⟨_, rfl, rfl⟩
      · rw [onStop_of_not fun hn ↦ htrap ⟨AtTrap.mapped_of_word hn.1, hn.2⟩,
          if_neg (by simpa using htrap)]
        exact ⟨s, rfl, rfl⟩

/-- **The traps are taken out** in a run, each with the next byte of the file and without any other
change, if and only if at each of them the word can be read and the value that is read from the file
brings no bit above the lowest eight that is not there already. -/
theorem patches_iff (mapped : ε → Addr → Bool) (text : List Byte) (evs : List (Event ρ ε)) :
    Patches mapped text evs ↔ Fitting mapped text evs := by
  induction evs using List.reverseRecOn with
  | nil => exact iff_of_true eachTime_nil eachTime_nil
  | append_singleton evs ev ih =>
    rw [Patches, Fitting, eachTime_concat, eachTime_concat, ← Patches, ← Fitting, ih]
    refine and_congr_right fun hevs ↦ forall₃_congr fun c hsurv htrap ↦ ?_
    obtain ⟨s, hs, hcont⟩ := hevs.intCont
    obtain ⟨s₁, hs₁, hfptr⟩ := fptr_run mapped text evs
    obtain rfl := Option.some.inj (hs.symm.trans hs₁)
    rw [← hcont, ← hfptr, ← patched_iff htrap]
    refine ⟨?_, ?_⟩
    · rintro ⟨s₂, s', c', hs₂, hev, hp⟩
      obtain rfl := Option.some.inj (hs.symm.trans hs₂)
      rw [onEvent_of_survivor hsurv, Option.map_eq_some_iff] at hev
      obtain ⟨r, hr, heq⟩ := hev
      obtain ⟨rfl, hc⟩ := Prod.mk.inj heq
      obtain rfl := Option.some.inj hc
      exact ⟨_, _, hr, hp⟩
    · rintro ⟨s', c', hstop, hp⟩
      exact ⟨s, s', c', hs, by rw [onEvent_of_survivor hsurv, hstop]; rfl, hp⟩

/-! ## A file with capitals -/

/-- Registers without the other ones. -/
structure Rip where
  rip : Addr

instance : ProgramCounter Rip where
  pc := Rip.rip
  setPc _ a := ⟨a⟩
  pc_setPc _ _ := rfl
  setPc_setPc _ _ _ := rfl
  setPc_pc _ := rfl

/-- A tracee that has stopped behind the trap at `0x400000`. -/
def stoppedOnce : Cpu Rip Unit where
  regs := ⟨0x400001⟩
  mem := fun a ↦ if a = 0x400000 then int3 else 0
  env := ()
  ticks := 0

/-- **A file with capitals.**  `AB` is not the byte `0xab`, and brings a bit for the byte behind the
trap: at the first stop the trap becomes `0x52`, and the zero behind it `0x04`. -/
theorem patches_fails :
    ((stoppedOnce.regs.rip = 0x400001 ∧ stoppedOnce.mem 0x400000 = int3 ∧
        stoppedOnce.mem 0x400001 = 0) ∧
      (onStop (fun _ _ ↦ true) ⟨[0x41, 0x42], 0⟩ stoppedOnce).map (fun r ↦
        (r.2.mem 0x400000, r.2.mem 0x400001)) = some (0x52, 0x04)) ∧
    ¬ Patches (fun _ _ ↦ true) [0x41, 0x42] [.stopped sigtrap stoppedOnce] := by
  refine ⟨⟨by decide, by decide +kernel⟩, fun h ↦ ?_⟩
  have htrap : AtTrap (fun _ _ ↦ true) stoppedOnce := ⟨rfl, by decide⟩
  obtain ⟨s, s', c', hs, hev, hp⟩ := h [] _ [] rfl stoppedOnce rfl htrap
  obtain rfl := Option.some.inj hs
  rw [onEvent_of_survivor rfl, Option.map_eq_some_iff] at hev
  obtain ⟨r, hr, heq⟩ := hev
  obtain rfl := Option.some.inj (Prod.mk.inj heq).2
  have hfits := (patched_iff htrap).1 ⟨r.1, r.2, hr, hp⟩
  exact absurd (hfits.bits 1 le_rfl (by decide)) (by decide)

end NoMoreTraps
