import NctuUnix.Hw4.Spec

/-!
# A small host

A host with one program on it, to run the debugger on: an ELF file with a single segment and a
`.text` section, and a processor that knows `nop`, `jmp rel8`, a few moves into registers and three
system calls.  The program is the parameter; what a process finds around it is its own process id.
The lemmas say which bytes an instruction of this processor can notice, for every program.
-/

set_option autoImplicit false

namespace Sdb
namespace Tiny

open Bytes Trap

/-! ## The file -/

/-- Where the file is mapped. -/
def base : Addr := 0x400000

/-- Where `.text` starts in the file: behind the file header and one program header. -/
def textOffset : Nat := 120

def textAddr : Addr := base + BitVec.ofNat 64 textOffset

/-- The `n` little-endian bytes of a number. -/
def le : Nat → Nat → List Byte
  | 0, _ => []
  | n + 1, v => BitVec.ofNat 8 v :: le n (v / 256)

/-- `"\\0.text\\0.shstrtab\\0"` -/
def strTab : List Byte :=
  [0x00, 0x2e, 0x74, 0x65, 0x78, 0x74, 0x00, 0x2e, 0x73, 0x68, 0x73, 0x74, 0x72, 0x74, 0x61, 0x62,
    0x00]

/-- A section header. -/
def shdr (name type flags addr offset size : Nat) : List Byte :=
  le 4 name ++ le 4 type ++ le 8 flags ++ le 8 addr ++ le 8 offset ++ le 8 size ++ le 8 0 ++ le 8 1
    ++ le 8 0

/-- The ELF file of a program. -/
def elfFile (text : List Byte) : List Byte :=
  let strOffset := textOffset + text.length
  let shOffset := strOffset + strTab.length
  [0x7f, 0x45, 0x4c, 0x46, 2, 1, 1, 0] ++ le 8 0
    ++ le 2 2 ++ le 2 62 ++ le 4 1 ++ le 8 textAddr.toNat ++ le 8 64 ++ le 8 shOffset ++ le 4 0
    ++ le 2 64 ++ le 2 56 ++ le 2 1 ++ le 2 64 ++ le 2 3 ++ le 2 2
    ++ le 4 1 ++ le 4 5 ++ le 8 0 ++ le 8 base.toNat ++ le 8 base.toNat ++ le 8 strOffset
    ++ le 8 strOffset ++ le 8 4096
    ++ text ++ strTab
    ++ shdr 0 0 0 0 0 0
    ++ shdr 1 1 6 textAddr.toNat textOffset text.length
    ++ shdr 7 3 0 0 strOffset strTab.length

/-! ## The processor -/

/-- A register with its low byte replaced. -/
def lowByte (w : Word) (b : Byte) : Word := w &&& 0xffffffffffffff00 ||| b.setWidth 64

/-- `syscall`: `exit`, `getpid`, and `kill` of the process itself with `SIGKILL`; no other call
exists.  `rcx` and `r11` are lost. -/
def syscall (r : Regs) (pid : Nat) : Effect Regs Nat :=
  let r' := { r with rip := r.rip + 2, rcx := r.rip + 2, r11 := r.eflags }
  if r.rax = 60 then .exited (r.rdi.setWidth 8)
  else if r.rax = 39 then .next { r' with rax := BitVec.ofNat 64 pid } (fun _ ↦ none) pid
  else if r.rax = 62 ∧ r.rdi = BitVec.ofNat 64 pid ∧ r.rsi = 9 then .killed ⟨9, by decide⟩ false
  else .next { r' with rax := -38 } (fun _ ↦ none) pid

/-- The instruction at `rip`: `nop`, `jmp rel8`, `mov al, imm8`, `mov sil, imm8`, `mov eax, imm32`,
`mov edi, eax` or `syscall`; everything else is an illegal instruction. -/
def exec (r : Regs) (pid : Nat) (m : Mem) : Effect Regs Nat :=
  let go (r : Regs) : Effect Regs Nat := .next r (fun _ ↦ none) pid
  if m r.rip = 0x90 then go { r with rip := r.rip + 1 }
  else if m r.rip = 0xeb then
    go { r with rip := r.rip + 2 + (m (r.rip + 1)).signExtend 64 }
  else if m r.rip = 0xb0 then
    go { r with rip := r.rip + 2, rax := lowByte r.rax (m (r.rip + 1)) }
  else if m r.rip = 0x40 ∧ m (r.rip + 1) = 0xb6 then
    go { r with rip := r.rip + 3, rsi := lowByte r.rsi (m (r.rip + 2)) }
  else if m r.rip = 0xb8 then
    go { r with rip := r.rip + 5, rax := (m (r.rip + 4) ++ m (r.rip + 3) ++ m (r.rip + 2)
      ++ m (r.rip + 1)).setWidth 64 }
  else if m r.rip = 0x89 ∧ m (r.rip + 1) = 0xc7 then
    go { r with rip := r.rip + 2, rdi := (r.rax.setWidth 32).setWidth 64 }
  else if m r.rip = 0x0f ∧ m (r.rip + 1) = 0x05 then syscall r pid
  else .stop ⟨4, by decide⟩ r (fun _ ↦ none) pid

/-- The registers a process starts with. -/
def entryRegs : Regs :=
  ⟨0, 0, 0, 0, 0, 0, 0, 0, 0, 0, 0, 0, 0, 0, 0, 0x7ffd00000000, textAddr, 0x200⟩

/-- The image of the process with that id. -/
def image (text : List Byte) (pid : Nat := 2) : Tracee Nat where
  regs := entryRegs
  mem a := (elfFile text).getD (a - base).toNat 0
  env := pid
  ticks := 0

/-- A number as `objdump` writes it. -/
def hex (w : Nat) : String := "0x" ++ String.ofList (Nat.toDigits 16 w)

/-- The decoded instructions at an offset of a buffer. -/
def insns (data : List Byte) : Nat → Nat → Addr → List Insn
  | 0, _, _ => []
  | n + 1, off, addr =>
    match data.drop off with
    | 0x90 :: _ => ⟨addr, [0x90], "nop", ""⟩ :: insns data n (off + 1) (addr + 1)
    | 0xeb :: d :: _ =>
      ⟨addr, [0xeb, d], "jmp", hex (addr + 2 + d.signExtend 64).toNat⟩
        :: insns data n (off + 2) (addr + 2)
    | 0xb0 :: b :: _ =>
      ⟨addr, [0xb0, b], "mov", "al, " ++ hex b.toNat⟩ :: insns data n (off + 2) (addr + 2)
    | 0x40 :: 0xb6 :: b :: _ =>
      ⟨addr, [0x40, 0xb6, b], "mov", "sil, " ++ hex b.toNat⟩ :: insns data n (off + 3) (addr + 3)
    | 0xb8 :: b₀ :: b₁ :: b₂ :: b₃ :: _ =>
      ⟨addr, [0xb8, b₀, b₁, b₂, b₃], "mov", "eax, " ++ hex (b₃ ++ b₂ ++ b₁ ++ b₀).toNat⟩
        :: insns data n (off + 5) (addr + 5)
    | 0x89 :: 0xc7 :: _ =>
      ⟨addr, [0x89, 0xc7], "mov", "edi, eax"⟩ :: insns data n (off + 2) (addr + 2)
    | 0x0f :: 0x05 :: _ =>
      ⟨addr, [0x0f, 0x05], "syscall", ""⟩ :: insns data n (off + 2) (addr + 2)
    | _ => []

/-- The host that has the program `text` under the name `a.out`. -/
def host (text : List Byte) : Host Nat where
  exec := exec
  mapped _ a := (a - base).toNat < 4096
  fork n := some ⟨n + 2, by omega⟩
  execvp path n := if path = "a.out" then some (image text (n + 2)) else none
  files path := if path = "a.out" then some (elfFile text) else none
  maps _ := some []
  malloc n := n < 2 ^ 40
  heap _ := 0
  stack _ := 0
  csOpen := true
  csDisasm data off len addr n := insns (data.take (off.toNat + len)) n off.toNat addr

/-! ## What an instruction can notice -/

variable {text : List Byte} {P : Addr → Prop} {c : Tracee Nat}

/-- How many bytes after the first one it looks at. -/
def reach (b : Byte) : Nat :=
  if b = 0xeb ∨ b = 0xb0 ∨ b = 0x89 ∨ b = 0x0f then 1
  else if b = 0x40 then 2
  else if b = 0xb8 then 4
  else 0

/-- It looks at no other bytes. -/
theorem ignores (hno : ∀ i, i ≤ reach (c.mem c.regs.rip) → ¬ P (c.regs.rip + BitVec.ofNat 64 i)) :
    (host text).Ignores P c := by
  intro m hm
  have h₀ : m c.regs.rip = c.mem c.regs.rip := hm _ (by simpa using hno 0 (Nat.zero_le _))
  have h₁ : 1 ≤ reach (c.mem c.regs.rip) → m (c.regs.rip + 1) = c.mem (c.regs.rip + 1) :=
    fun hr ↦ hm _ (hno 1 hr)
  have h₂ : 2 ≤ reach (c.mem c.regs.rip) → m (c.regs.rip + 2) = c.mem (c.regs.rip + 2) :=
    fun hr ↦ hm _ (hno 2 hr)
  have h₃ : 3 ≤ reach (c.mem c.regs.rip) → m (c.regs.rip + 3) = c.mem (c.regs.rip + 3) :=
    fun hr ↦ hm _ (hno 3 hr)
  have h₄ : 4 ≤ reach (c.mem c.regs.rip) → m (c.regs.rip + 4) = c.mem (c.regs.rip + 4) :=
    fun hr ↦ hm _ (hno 4 hr)
  simp only [host, exec, h₀]
  by_cases heb : c.mem c.regs.rip = 0xeb
  · rw [h₁ (by simp [reach, heb])]
    simp [heb]
  by_cases hb0 : c.mem c.regs.rip = 0xb0
  · rw [h₁ (by simp [reach, hb0])]
    simp [hb0]
  by_cases h40 : c.mem c.regs.rip = 0x40
  · rw [h₁ (by simp [reach, h40]), h₂ (by simp [reach, h40])]
    simp [h40]
  by_cases hb8 : c.mem c.regs.rip = 0xb8
  · rw [h₁ (by simp [reach, hb8]), h₂ (by simp [reach, hb8]), h₃ (by simp [reach, hb8]),
      h₄ (by simp [reach, hb8])]
  by_cases h89 : c.mem c.regs.rip = 0x89
  · rw [h₁ (by simp [reach, h89])]
    simp [h89]
  by_cases h0f : c.mem c.regs.rip = 0x0f
  · rw [h₁ (by simp [reach, h0f])]
    simp [h0f]
  · simp only [heb, hb0, h40, hb8, h89, h0f, false_and, if_false]

/-- An effect without a write. -/
def Reads : Effect Regs Nat → Prop
  | .next _ w _ => ∀ a, w a = none
  | .stop _ _ w _ => ∀ a, w a = none
  | .exited _ => True
  | .killed _ _ => True

theorem ite_reads {p : Prop} [Decidable p] {e e' : Effect Regs Nat} (he : Reads e)
    (he' : Reads e') : Reads (if p then e else e') := by
  split
  · exact he
  · exact he'

/-- It writes nothing. -/
theorem exec_reads (r : Regs) (pid : Nat) (m : Mem) : Reads (exec r pid m) := by
  have hcall : Reads (syscall r pid) := by
    rw [syscall]
    split_ifs
    · trivial
    · exact fun _ ↦ rfl
    · trivial
    · exact fun _ ↦ rfl
  have hgo : ∀ r' : Regs, Reads (.next r' (fun _ ↦ none) pid) := fun _ _ ↦ rfl
  rw [exec]
  refine ite_reads (hgo _) (ite_reads (hgo _) (ite_reads (hgo _) (ite_reads (hgo _) ?_)))
  exact ite_reads (hgo _) (ite_reads (hgo _) (ite_reads hcall fun _ ↦ rfl))

theorem keeps : (host text).Keeps P c := by
  intro _
  have hr : Reads ((host text).exec c.regs c.env c.mem) := exec_reads _ _ _
  rcases he : (host text).exec c.regs c.env c.mem with
    ⟨r, w, e⟩ | ⟨sig, r, w, e⟩ | code | ⟨sig, core⟩
  all_goals rw [he] at hr
  · exact fun a _ ↦ hr a
  · exact fun a _ ↦ hr a
  · trivial
  · trivial

end Tiny
end Sdb
