import NctuUnix.Hw4.Stray

/-!
# The process behind the traps

`original` is the tracee with its text put back to what the program image says: the process the
user of the debugger believes to be looking at.  The real one is this process with traps planted at
the addresses in `Patched`, which is the relation the simulation of `NctuUnix.Lib.Trap` is about;
and the process that a `cont` or a `si` lets loose is the same one with a few more traps, at the
addresses in `Armed`.

## Main results

* `TextOk.planted_rearmed` — the process that is let loose is `original` with traps at `Armed`.
* `original_eq` — how a process is recognised as one with traps in its text.
-/

set_option autoImplicit false

namespace Sdb

open Bytes Trap

variable {ε : Type} {h : Host ε} {s s' : Sdb ε} {c c₀ : Tracee ε} {img : Mem} {e : Elf}

/-- The process with its text put back to the image. -/
def original (img : Mem) (e : Elf) (c : Tracee ε) : Tracee ε :=
  { c with mem := fun a ↦ if intext e a then img a else c.mem a }

theorem original_mem_text (c : Tracee ε) {a : Addr} (ha : InText e a) :
    (original img e c).mem a = img a :=
  if_pos ha

theorem original_mem_off (c : Tracee ε) {a : Addr} (ha : ¬ InText e a) :
    (original img e c).mem a = c.mem a :=
  if_neg ha

/-- A process that differs from `c₀` in the text at most, where `c₀` has the image. -/
theorem original_eq (hr : c.regs = c₀.regs) (he : c.env = c₀.env) (ht : c.ticks = c₀.ticks)
    (himg : ∀ a, InText e a → c₀.mem a = img a) (hm : ∀ a, ¬ InText e a → c.mem a = c₀.mem a) :
    original img e c = c₀ := by
  obtain ⟨regs, mem, env, ticks⟩ := c
  obtain ⟨regs₀, mem₀, env₀, ticks₀⟩ := c₀
  simp only at hr he ht himg hm
  subst hr he ht
  have hmem : (fun a ↦ if intext e a then img a else mem a) = mem₀ := by
    funext a
    by_cases ha : InText e a
    · rw [himg a ha]
      exact if_pos ha
    · rw [← hm a ha]
      exact if_neg ha
  rw [original, hmem]

/-- Two processes that differ in the text at most have the same original. -/
theorem original_congr {c' : Tracee ε} (hr : c'.regs = c.regs) (he : c'.env = c.env)
    (ht : c'.ticks = c.ticks) (hm : ∀ a, ¬ InText e a → c'.mem a = c.mem a) :
    original img e c' = original img e c :=
  original_eq hr he ht (fun _ ha ↦ original_mem_text c ha)
    fun a ha ↦ (hm a ha).trans (original_mem_off c ha).symm

/-! ## Where the traps are -/

/-- The addresses of the text that hold something else than the image. -/
def Patched (img : Mem) (e : Elf) (c : Tracee ε) (a : Addr) : Prop := InText e a ∧ c.mem a ≠ img a

/-- Where there is a trap when the tracee is let loose: at the listed addresses above the current
instruction, and where one stands already. -/
def Armed (img : Mem) (s : Sdb ε) (c : Tracee ε) (a : Addr) : Prop :=
  (∃ b ∈ s.bpList, b.addr = a ∧ c.regs.rip < a) ∨ Patched img s.elf c a

instance (a : Addr) : Decidable (Armed img s c a) :=
  inferInstanceAs (Decidable ((∃ b ∈ s.bpList, b.addr = a ∧ c.regs.rip < a) ∨
    (intext s.elf a = true ∧ c.mem a ≠ img a)))

theorem Armed.inText (hw : WF s) {a : Addr} (ha : Armed img s c a) : InText s.elf a := by
  rcases ha with ⟨b, hb, rfl, -⟩ | ⟨ha, -⟩
  · exact hw.inText b hb
  · exact ha

/-- **The process that is let loose** is the original with traps at the armed addresses. -/
theorem TextOk.planted_rearmed (ht : TextOk img s) (hc : s.tracee = some c) :
    Planted (Armed img s c) (rearmed s.bpList c) (original img s.elf c) where
  regs := rfl
  env := rfl
  ticks := rfl
  trap a ha := by
    rcases ha with ⟨b, hb, rfl, hr⟩ | ⟨ha, hne⟩
    · exact armAbove_of_mem hb hr
    · rcases armAbove_apply s.bpList c.regs.rip a c.mem with hv | hv
      · exact hv
      · rcases ht.bytes c hc a ha with hi | hi
        · exact absurd hi hne
        · exact hv.trans hi
  mem a ha := by
    have hkeep : (rearmed s.bpList c).mem a = c.mem a :=
      armAbove_of_not fun hb ↦ ha (.inl hb)
    rw [hkeep]
    by_cases htext : InText s.elf a
    · rw [original_mem_text c htext]
      by_contra hne
      exact ha (.inr ⟨htext, hne⟩)
    · rw [original_mem_off c htext]

end Sdb
