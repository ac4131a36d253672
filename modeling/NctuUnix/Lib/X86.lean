import NctuUnix.Lib.Bytes

/-!
# A fragment of the x86-64 instruction set

The instructions on quadwords that hand-written assembly around system calls consists of.  The code
is kept apart from the data: `Code.fetch` gives the instruction at an address and the address of the
one behind it, so that nothing is said about how long an encoding is, and a routine may be placed
anywhere (`Code.Loaded`).  Every address is mapped.

What the operating system does in a `syscall` is a parameter, the `Kernel`.  It works on the `Core`,
the state without the instruction pointer, and gives all registers back but `rax`, `rcx` and `r11`.

`Reaches.ops` executes a stretch of operations, `Reaches.call`, `Reaches.ret` and `Reaches.jne` the
control transfers between them; proofs about routines are chains of these.
-/

set_option autoImplicit false

namespace X86

open Bytes

/-! ## States -/

/-- The general registers. -/
inductive Reg
  | rax | rbx | rcx | rdx | rsi | rdi | rbp | rsp | r8 | r9 | r10 | r11 | r12 | r13 | r14 | r15
  deriving DecidableEq, Repr

/-- The flags that conditions depend on. -/
structure Flags where
  zf : Bool
  sf : Bool
  cf : Bool
  ov : Bool
  deriving DecidableEq, Repr

/-- A process between two instructions, but for the address of the next one; `env` is what the
kernel keeps for it. -/
structure Core (ε : Type) where
  gpr : Reg → Word
  flags : Flags
  mem : Mem
  env : ε

/-- A process between two instructions. -/
structure State (ε : Type) extends Core ε where
  rip : Addr

/-- The operating system: what a `syscall` does. -/
structure Kernel (ε : Type) where
  syscall : Core ε → Core ε
  /-- The other registers are given back. -/
  kept : ∀ c r, r ≠ .rax → r ≠ .rcx → r ≠ .r11 → (syscall c).gpr r = c.gpr r

variable {ε L : Type}

/-! ## Operations -/

/-- A register, or the quadword at `[base + disp]`. -/
inductive Loc
  | reg (r : Reg)
  | mem (base : Reg) (disp : Word)
  deriving DecidableEq, Repr

/-- What an operation reads. -/
inductive Src
  | loc (l : Loc)
  | imm (w : Word)
  deriving DecidableEq, Repr

instance : Coe Reg Loc := ⟨.reg⟩

instance : Coe Reg Src := ⟨fun r ↦ .loc (.reg r)⟩

instance : Coe Loc Src := ⟨.loc⟩

/-- The operations: instructions that the next one follows. -/
inductive Op
  | mov (dst : Loc) (src : Src)
  | lea (dst : Reg) (base : Reg) (disp : Word)
  | push (src : Src)
  | pop (dst : Loc)
  | add (dst : Loc) (src : Src)
  | sub (dst : Loc) (src : Src)
  | cmp (dst : Loc) (src : Src)
  | inc (dst : Loc)
  | neg (dst : Loc)
  | syscall
  deriving DecidableEq, Repr

namespace Core

variable (c : Core ε)

/-- `c` with `v` in register `r`. -/
def set (r : Reg) (v : Word) : Core ε :=
  { c with gpr := fun r' ↦ if r' = r then v else c.gpr r' }

@[simp] theorem gpr_set (r r' : Reg) (v : Word) :
    (c.set r v).gpr r' = if r' = r then v else c.gpr r' := rfl

@[simp] theorem mem_set (r : Reg) (v : Word) : (c.set r v).mem = c.mem := rfl

@[simp] theorem env_set (r : Reg) (v : Word) : (c.set r v).env = c.env := rfl

@[simp] theorem flags_set (r : Reg) (v : Word) : (c.set r v).flags = c.flags := rfl

/-- `c` with the quadword `v` at `a`. -/
def poke (a : Addr) (v : Word) : Core ε := { c with mem := storeWord c.mem a v }

@[simp] theorem gpr_poke (a : Addr) (v : Word) : (c.poke a v).gpr = c.gpr := rfl

@[simp] theorem mem_poke (a : Addr) (v : Word) : (c.poke a v).mem = storeWord c.mem a v := rfl

@[simp] theorem env_poke (a : Addr) (v : Word) : (c.poke a v).env = c.env := rfl

@[simp] theorem flags_poke (a : Addr) (v : Word) : (c.poke a v).flags = c.flags := rfl

/-- `c` with other flags. -/
def setFlags (f : Flags) : Core ε := { c with flags := f }

@[simp] theorem gpr_setFlags (f : Flags) : (c.setFlags f).gpr = c.gpr := rfl

@[simp] theorem mem_setFlags (f : Flags) : (c.setFlags f).mem = c.mem := rfl

@[simp] theorem env_setFlags (f : Flags) : (c.setFlags f).env = c.env := rfl

@[simp] theorem flags_setFlags (f : Flags) : (c.setFlags f).flags = f := rfl

/-- What is read from a location. -/
def read : Loc → Word
  | .reg r => c.gpr r
  | .mem base disp => loadWord c.mem (c.gpr base + disp)

/-- What an operation gets to see. -/
def value : Src → Word
  | .loc l => c.read l
  | .imm w => w

/-- `c` after a location has been written. -/
def write (v : Word) : Loc → Core ε
  | .reg r => c.set r v
  | .mem base disp => c.poke (c.gpr base + disp) v

/-- A quadword put on the stack. -/
def push (v : Word) : Core ε := (c.set .rsp (c.gpr .rsp - 8)).poke (c.gpr .rsp - 8) v

theorem gpr_push_of_ne {r : Reg} (h : r ≠ .rsp) (v : Word) : (c.push v).gpr r = c.gpr r := by
  rw [push, gpr_poke, gpr_set, if_neg h]

theorem rsp_push (v : Word) : (c.push v).gpr .rsp = c.gpr .rsp - 8 := by
  rw [push, gpr_poke, gpr_set, if_pos rfl]

theorem mem_push (v : Word) : (c.push v).mem = storeWord c.mem (c.gpr .rsp - 8) v := by
  rw [push, mem_poke, mem_set]

theorem env_push (v : Word) : (c.push v).env = c.env := by rw [push, env_poke, env_set]

/-- The quadword on top of the stack. -/
def top : Word := loadWord c.mem (c.gpr .rsp)

theorem top_push (v : Word) : (c.push v).top = v := by
  rw [top, rsp_push, mem_push, loadWord_storeWord_same]

/-- The stack without it. -/
def drop : Core ε := c.set .rsp (c.gpr .rsp + 8)

end Core

/-- The flags a result has, for the operations that set them all. -/
def Flags.ofResult (r : Word) (cf ov : Bool) : Flags := ⟨r = 0, r.msb, cf, ov⟩

/-- The flags of `a + b`. -/
def Flags.ofAdd (a b : Word) : Flags :=
  .ofResult (a + b) (BitVec.uaddOverflow a b) (BitVec.saddOverflow a b)

/-- The flags of `a - b`. -/
def Flags.ofSub (a b : Word) : Flags :=
  .ofResult (a - b) (BitVec.usubOverflow a b) (BitVec.ssubOverflow a b)

/-- What an operation does. -/
def Op.exec (K : Kernel ε) (c : Core ε) : Op → Core ε
  | .mov dst src => c.write (c.value src) dst
  | .lea dst base disp => c.set dst (c.gpr base + disp)
  | .push src => c.push (c.value src)
  | .pop dst => c.drop.write c.top dst
  | .add dst src =>
    (c.setFlags (.ofAdd (c.read dst) (c.value src))).write (c.read dst + c.value src) dst
  | .sub dst src =>
    (c.setFlags (.ofSub (c.read dst) (c.value src))).write (c.read dst - c.value src) dst
  | .cmp dst src => c.setFlags (.ofSub (c.read dst) (c.value src))
  | .inc dst =>
    -- `inc` leaves the carry alone
    (c.setFlags { Flags.ofAdd (c.read dst) 1 with cf := c.flags.cf }).write (c.read dst + 1) dst
  | .neg dst => (c.setFlags (.ofSub 0 (c.read dst))).write (-c.read dst) dst
  | .syscall => K.syscall c

-- symbolic execution: operations on locations, down to registers and memory
attribute [simp] Op.exec Core.value Core.read Core.write Core.push Core.top Core.drop

/-- What a stretch of operations does. -/
def run (K : Kernel ε) (ops : List Op) (c : Core ε) : Core ε := ops.foldl (Op.exec K) c

@[simp] theorem run_nil (K : Kernel ε) (c : Core ε) : run K [] c = c := rfl

@[simp] theorem run_cons (K : Kernel ε) (op : Op) (ops : List Op) (c : Core ε) :
    run K (op :: ops) c = run K ops (op.exec K c) := rfl

/-! ## Instructions -/

/-- The conditions of the jumps. -/
inductive Cond
  | ne
  | ge
  deriving DecidableEq, Repr

/-- Whether a condition holds. -/
def Cond.holds (f : Flags) : Cond → Bool
  | .ne => !f.zf
  | .ge => f.sf == f.ov

/-- The instructions, with jumps to labels. -/
inductive Instr (L : Type)
  | op (o : Op)
  | call (l : L)
  | ret
  | jmp (l : L)
  | jcc (cond : Cond) (l : L)
  deriving DecidableEq, Repr

/-- A code segment. -/
structure Code (L : Type) where
  /-- The instruction at an address, and the address behind it. -/
  fetch : Addr → Option (Instr L × Addr)
  addr : L → Addr

/-- What an instruction does; `next` is the address behind it. -/
def Instr.exec (C : Code L) (K : Kernel ε) (c : Core ε) (next : Addr) : Instr L → State ε
  | .op o => ⟨o.exec K c, next⟩
  | .call l => ⟨c.push next, C.addr l⟩
  | .ret => ⟨c.drop, c.top⟩
  | .jmp l => ⟨c, C.addr l⟩
  | .jcc cond l => ⟨c, if cond.holds c.flags then C.addr l else next⟩

/-- One instruction; `none` where there is no code. -/
def step (C : Code L) (K : Kernel ε) (s : State ε) : Option (State ε) :=
  (C.fetch s.rip).map fun p ↦ p.1.exec C K s.toCore p.2

/-- `n` instructions. -/
def steps (C : Code L) (K : Kernel ε) : Nat → State ε → Option (State ε)
  | 0, s => some s
  | n + 1, s => (step C K s).bind (steps C K n)

/-- The process gets from `s` to `s'`. -/
def Reaches (C : Code L) (K : Kernel ε) (s s' : State ε) : Prop := ∃ n, steps C K n s = some s'

/-! ## Where the code is -/

/-- A line of a program. -/
inductive Item (L : Type)
  | label (l : L)
  | instr (i : Instr L)

/-- The program `is` stands at `a`. -/
def Code.Loaded (C : Code L) : Addr → List (Item L) → Prop
  | _, [] => True
  | a, .label l :: is => C.addr l = a ∧ C.Loaded a is
  | a, .instr i :: is => ∃ a', C.fetch a = some (i, a') ∧ C.Loaded a' is

instance decidableLoaded [DecidableEq L] (C : Code L) :
    (a : Addr) → (is : List (Item L)) → Decidable (C.Loaded a is)
  | _, [] => .isTrue trivial
  | a, .label _ :: is =>
    have := decidableLoaded C a is
    instDecidableAnd
  | a, .instr i :: is =>
    match h : C.fetch a with
    | none => .isFalse fun ⟨_, hf, _⟩ ↦ by simp [h] at hf
    | some (i', a') =>
      have := decidableLoaded C a' is
      decidable_of_iff (i' = i ∧ C.Loaded a' is)
        ⟨fun ⟨hi, hl⟩ ↦ ⟨a', by rw [h, hi], hl⟩, fun ⟨a₁, hf, hl⟩ ↦ by
          rw [h, Option.some.injEq, Prod.mk.injEq] at hf
          exact ⟨hf.1, hf.2 ▸ hl⟩⟩

/-- How many instructions stand in front of a label. -/
def offset [DecidableEq L] (l : L) : List (Item L) → Nat
  | [] => 0
  | .label l' :: is => if l' = l then 0 else offset l is
  | .instr _ :: is => offset l is + 1

/-- A program placed at `base`, with instructions of one byte. -/
def Code.ofItems [DecidableEq L] (is : List (Item L)) (base : Addr) : Code L where
  fetch a :=
    let instrs := is.filterMap fun | .instr i => some i | .label _ => none
    instrs[(a - base).toNat]?.map fun i ↦ (i, a + 1)
  addr l := base + BitVec.ofNat 64 (offset l is)

/-- A stretch of operations, as lines of a program. -/
def ops (l : List Op) : List (Item L) := l.map fun o ↦ .instr (.op o)

/-! ## Placing it -/

/-- The labels of a program. -/
def labels : List (Item L) → List L
  | [] => []
  | .label l :: is => l :: labels is
  | .instr _ :: is => labels is

/-- The instructions of a program. -/
def instrs : List (Item L) → List (Instr L)
  | [] => []
  | .label _ :: is => instrs is
  | .instr i :: is => i :: instrs is

theorem labels_append (is is' : List (Item L)) : labels (is ++ is') = labels is ++ labels is' := by
  induction is with
  | nil => rfl
  | cons i is ih =>
    cases i with
    | label l => rw [List.cons_append, labels, ih, labels, List.cons_append]
    | instr i => rw [List.cons_append, labels, ih, labels]

theorem instrs_append (is is' : List (Item L)) : instrs (is ++ is') = instrs is ++ instrs is' := by
  induction is with
  | nil => rfl
  | cons i is ih =>
    cases i with
    | label l => rw [List.cons_append, instrs, ih, instrs]
    | instr i => rw [List.cons_append, instrs, ih, instrs, List.cons_append]

theorem filterMap_eq_instrs {f : Item L → Option (Instr L)} (hi : ∀ i, f (.instr i) = some i)
    (hl : ∀ l, f (.label l) = none) (is : List (Item L)) : is.filterMap f = instrs is := by
  induction is with
  | nil => rfl
  | cons i is ih =>
    cases i with
    | label l => rw [List.filterMap_cons_none (hl l), ih, instrs]
    | instr i => rw [List.filterMap_cons_some (hi i), ih, instrs]

theorem offset_of_nodup [DecidableEq L] {l : L} {post : List (Item L)} (pre : List (Item L))
    (h : (labels (pre ++ .label l :: post)).Nodup) :
    offset l (pre ++ .label l :: post) = (instrs pre).length := by
  induction pre with
  | nil => exact if_pos rfl
  | cons i pre ih =>
    cases i with
    | label l' =>
      rw [List.cons_append, labels, List.nodup_cons, labels_append] at h
      have hne : l' ≠ l := fun heq ↦ h.1 (heq ▸ List.mem_append_right _ List.mem_cons_self)
      rw [List.cons_append, offset, if_neg hne, ih (labels_append pre _ ▸ h.2)]
      rfl
    | instr i =>
      rw [List.cons_append, offset, ih h]
      rfl

theorem Code.fetch_ofItems [DecidableEq L] (is : List (Item L)) (base a : Addr) :
    (ofItems is base).fetch a = (instrs is)[(a - base).toNat]?.map fun i ↦ (i, a + 1) := by
  rw [ofItems]
  dsimp only
  rw [filterMap_eq_instrs (fun _ ↦ rfl) fun _ ↦ rfl]

/-- A part of a program that is placed somewhere stands behind the part in front of it. -/
theorem Code.loaded_ofItems [DecidableEq L] (base : Addr) (is : List (Item L)) :
    ∀ pre post : List (Item L), (labels (pre ++ is ++ post)).Nodup →
      (instrs (pre ++ is ++ post)).length < 2 ^ 64 →
      (Code.ofItems (pre ++ is ++ post) base).Loaded
        (base + BitVec.ofNat 64 (instrs pre).length) is := by
  induction is with
  | nil => exact fun _ _ _ _ ↦ trivial
  | cons i is ih =>
    intro pre post hlabels hlen
    have hsplit : pre ++ i :: is ++ post = pre ++ [i] ++ is ++ post := by simp
    have hcons : pre ++ i :: is ++ post = pre ++ i :: (is ++ post) := by simp
    have hrest := ih (pre ++ [i]) post (hsplit ▸ hlabels) (hsplit ▸ hlen)
    rw [← hsplit, instrs_append] at hrest
    cases i with
    | label l =>
      refine ⟨?_, by simpa [instrs] using hrest⟩
      rw [hcons] at hlabels ⊢
      show base + BitVec.ofNat 64 (offset l (pre ++ .label l :: (is ++ post))) = _
      rw [offset_of_nodup pre hlabels]
    | instr i =>
      have hnext : base + BitVec.ofNat 64 (instrs pre).length + 1 =
          base + BitVec.ofNat 64 (instrs pre ++ instrs [.instr i]).length := by
        rw [List.length_append, BitVec.add_assoc, BitVec.ofNat_add]
        rfl
      refine ⟨_, ?_, hnext ▸ hrest⟩
      rw [hcons, instrs_append, instrs, List.length_append] at hlen
      have hsub : (base + BitVec.ofNat 64 (instrs pre).length - base).toNat
          = (instrs pre).length := by
        rw [BitVec.add_comm, BitVec.add_sub_cancel, BitVec.toNat_ofNat, Nat.mod_eq_of_lt (by omega)]
      rw [fetch_ofItems, hsub, hcons, instrs_append, instrs, List.getElem?_append_right le_rfl,
        Nat.sub_self]
      rfl

/-- **Placed programs.**  The parts of a program that is placed somewhere are loaded, if no label is
there twice. -/
theorem Code.loaded_of_infix [DecidableEq L] (base : Addr) {is program : List (Item L)}
    (h : is <:+: program) (hlabels : (labels program).Nodup)
    (hlen : (instrs program).length < 2 ^ 64) : ∃ a, (Code.ofItems program base).Loaded a is := by
  obtain ⟨pre, post, rfl⟩ := h
  exact ⟨_, loaded_ofItems base is pre post hlabels hlen⟩

/-! ## Executing it -/

variable {C : Code L} {K : Kernel ε} {s s' s'' : State ε} {c : Core ε} {a : Addr}
  {is : List (Item L)}

/-- What stands behind a label. -/
theorem Code.Loaded.at_label {l : L} {is' : List (Item L)} (is : List (Item L))
    (h : C.Loaded a (is ++ .label l :: is')) : C.Loaded (C.addr l) is' := by
  induction is generalizing a with
  | nil =>
    obtain ⟨rfl, h'⟩ := h
    exact h'
  | cons i is ih =>
    cases i with
    | label _ => exact ih h.2
    | instr _ =>
      obtain ⟨_, -, h'⟩ := h
      exact ih h'

@[refl] theorem Reaches.refl (s : State ε) : Reaches C K s s := ⟨0, rfl⟩

theorem steps_add {m n : Nat} (h : steps C K m s = some s') :
    steps C K (m + n) s = steps C K n s' := by
  induction m generalizing s with
  | zero =>
    obtain rfl := Option.some.inj h
    rw [Nat.zero_add]
  | succ m ih =>
    rw [Nat.add_right_comm, steps]
    rw [steps] at h
    obtain ⟨s₁, h₁, h₂⟩ := Option.bind_eq_some_iff.1 h
    rw [h₁, Option.bind_some, ih h₂]

@[trans] theorem Reaches.trans (h : Reaches C K s s') (h' : Reaches C K s' s'') :
    Reaches C K s s'' := by
  obtain ⟨m, hm⟩ := h
  obtain ⟨n, hn⟩ := h'
  exact ⟨m + n, (steps_add hm).trans hn⟩

theorem Reaches.step (h : X86.step C K s = some s') : Reaches C K s s' :=
  ⟨1, by rw [steps, h]; rfl⟩

theorem Reaches.instr {i : Instr L} {a' : Addr} (hf : C.fetch a = some (i, a')) :
    Reaches C K ⟨c, a⟩ (i.exec C K c a') :=
  .step (by rw [X86.step, hf]; rfl)

/-- A stretch of operations. -/
theorem Reaches.ops {l : List Op} (h : C.Loaded a (X86.ops l ++ is)) :
    ∃ a', C.Loaded a' is ∧ ∀ c, Reaches C K ⟨c, a⟩ ⟨run K l c, a'⟩ := by
  induction l generalizing a with
  | nil => exact ⟨a, h, fun c ↦ .refl _⟩
  | cons o l ih =>
    obtain ⟨a₁, hf, h₁⟩ := h
    obtain ⟨a', h', hr⟩ := ih h₁
    exact ⟨a', h', fun c ↦ (Reaches.instr hf).trans (hr _)⟩

theorem Reaches.call {l : L} (h : C.Loaded a (.instr (.call l) :: is)) :
    ∃ a', C.Loaded a' is ∧ ∀ c, Reaches C K ⟨c, a⟩ ⟨c.push a', C.addr l⟩ := by
  obtain ⟨a', hf, h'⟩ := h
  exact ⟨a', h', fun c ↦ .instr hf⟩

theorem Reaches.ret (h : C.Loaded a (.instr .ret :: is)) (c : Core ε) :
    Reaches C K ⟨c, a⟩ ⟨c.drop, c.top⟩ := by
  obtain ⟨a', hf, -⟩ := h
  exact .instr hf

theorem Reaches.jmp {l : L} (h : C.Loaded a (.instr (.jmp l) :: is)) :
    ∃ a', C.Loaded a' is ∧ ∀ c, Reaches C K ⟨c, a⟩ ⟨c, C.addr l⟩ := by
  obtain ⟨a', hf, h'⟩ := h
  exact ⟨a', h', fun c ↦ .instr hf⟩

theorem Reaches.jcc {cond : Cond} {l : L} (h : C.Loaded a (.instr (.jcc cond l) :: is)) :
    ∃ a', C.Loaded a' is ∧
      ∀ c, Reaches C K ⟨c, a⟩ ⟨c, if cond.holds c.flags then C.addr l else a'⟩ := by
  obtain ⟨a', hf, h'⟩ := h
  exact ⟨a', h', fun c ↦ .instr hf⟩

/-! ## Arriving somewhere for the first time -/

/-- From `s` on, `s'` is the first state at address `a`. -/
inductive Arrives (C : Code L) (K : Kernel ε) (a : Addr) : State ε → State ε → Prop
  | here {s : State ε} (h : s.rip = a) : Arrives C K a s s
  | step {s s₁ s' : State ε} (hne : s.rip ≠ a) (hs : X86.step C K s = some s₁)
      (h : Arrives C K a s₁ s') : Arrives C K a s s'

/-- There is one such state at most. -/
theorem Arrives.unique (h : Arrives C K a s s') (h' : Arrives C K a s s'') : s' = s'' := by
  induction h with
  | here ha =>
    rcases h' with - | ⟨hne, -, -⟩
    · rfl
    · exact absurd ha hne
  | step hne hs _ ih =>
    rcases h' with ha | ⟨-, hs', h₁⟩
    · exact absurd ha hne
    · obtain rfl := Option.some.inj (hs.symm.trans hs')
      exact ih h₁

theorem Arrives.reaches (h : Arrives C K a s s') : Reaches C K s s' := by
  induction h with
  | here _ => exact .refl _
  | step _ hs _ ih => exact (Reaches.step hs).trans ih

/-- A stretch of operations does not arrive where another instruction stands. -/
theorem Arrives.ops {b : Addr} {l : List Op} {i : Instr L} {b' : Addr}
    (hb : C.fetch a = some (i, b')) (hi : ∀ o ∈ l, i ≠ .op o)
    (h : C.Loaded b (X86.ops l ++ is)) : ∃ a', C.Loaded a' is ∧
      ∀ c s', Arrives C K a ⟨run K l c, a'⟩ s' → Arrives C K a ⟨c, b⟩ s' := by
  induction l generalizing b with
  | nil => exact ⟨b, h, fun c s' h' ↦ h'⟩
  | cons o l ih =>
    obtain ⟨a₁, hf, h₁⟩ := h
    obtain ⟨a', h', hr⟩ := ih (fun o' ho ↦ hi o' (List.mem_cons_of_mem o ho)) h₁
    refine ⟨a', h', fun c s' harr ↦ ?_⟩
    have hne : b ≠ a := by
      rintro rfl
      rw [hb, Option.some.injEq, Prod.mk.injEq] at hf
      exact hi o List.mem_cons_self hf.1
    exact .step hne (by rw [X86.step, hf]; rfl) (hr _ s' harr)

/-- A call of the routine at `a` arrives there. -/
theorem Arrives.call {b : Addr} {l : L} {i : Instr L} {b' : Addr}
    (hb : C.fetch (C.addr l) = some (i, b')) (hi : i ≠ .call l)
    (h : C.Loaded b (.instr (.call l) :: is)) :
    ∃ a', C.Loaded a' is ∧
      ∀ c, Arrives C K (C.addr l) (⟨c, b⟩ : State ε) ⟨c.push a', C.addr l⟩ := by
  obtain ⟨a', hf, h'⟩ := h
  refine ⟨a', h', fun c ↦ ?_⟩
  have hne : b ≠ C.addr l := by
    rintro rfl
    rw [hb, Option.some.injEq, Prod.mk.injEq] at hf
    exact hi hf.1
  exact .step hne (by rw [X86.step, hf]; rfl) (.here rfl)

/-! ## Returning from a routine -/

/-- The process gets from `s` to `s'`, and no state before `s'` is in `P`. -/
inductive Avoids (C : Code L) (K : Kernel ε) (P : State ε → Prop) : State ε → State ε → Prop
  | refl (s : State ε) : Avoids C K P s s
  | step {s s₁ s' : State ε} (hne : ¬ P s) (hs : X86.step C K s = some s₁)
      (h : Avoids C K P s₁ s') : Avoids C K P s s'

variable {P : State ε → Prop}

theorem Avoids.trans (h : Avoids C K P s s') (h' : Avoids C K P s' s'') :
    Avoids C K P s s'' := by
  induction h with
  | refl _ => exact h'
  | step hne hs _ ih => exact .step hne hs (ih h')

/-- There is one first state in `P` at most. -/
theorem Avoids.unique (h : Avoids C K P s s') (hp : P s') (h' : Avoids C K P s s'')
    (hp' : P s'') : s' = s'' := by
  induction h with
  | refl _ =>
    rcases h' with _ | ⟨hno, -, -⟩
    · rfl
    · exact absurd hp hno
  | step hne hs _ ih =>
    rcases h' with _ | ⟨-, hs', h₁⟩
    · exact absurd hp' hne
    · obtain rfl := Option.some.inj (hs.symm.trans hs')
      exact ih hp h₁

theorem Avoids.instr {i : Instr L} {a' : Addr} (hne : ¬ P ⟨c, a⟩)
    (hf : C.fetch a = some (i, a')) : Avoids C K P ⟨c, a⟩ (i.exec C K c a') :=
  .step hne (by rw [X86.step, hf]; rfl) (.refl _)

/-- The process is about to execute the `ret` at `l`, with stack pointer `b`. -/
def AtRet (C : Code L) (l : L) (b : Addr) (s : State ε) : Prop :=
  s.rip = C.addr l ∧ s.gpr .rsp = b

variable {l : L} {b : Addr}

/-- Where another instruction stands there is no such `ret`. -/
theorem not_atRet_of_fetch (hl : C.Loaded (C.addr l) [.instr .ret]) {i : Instr L} {a' : Addr}
    (hf : C.fetch a = some (i, a')) (hi : i ≠ .ret) : ¬ AtRet C l b (⟨c, a⟩ : State ε) := by
  rintro ⟨rfl, -⟩
  obtain ⟨_, hret, -⟩ := hl
  rw [hret, Option.some.injEq, Prod.mk.injEq] at hf
  exact hi hf.1.symm

/-- A stretch of operations. -/
theorem Avoids.ops (hl : C.Loaded (C.addr l) [.instr .ret]) {o : List Op}
    (h : C.Loaded a (X86.ops o ++ is)) :
    ∃ a', C.Loaded a' is ∧ ∀ c, Avoids C K (AtRet C l b) ⟨c, a⟩ ⟨run K o c, a'⟩ := by
  induction o generalizing a with
  | nil => exact ⟨a, h, fun c ↦ .refl _⟩
  | cons o os ih =>
    obtain ⟨a₁, hf, h₁⟩ := h
    obtain ⟨a', h', hr⟩ := ih h₁
    exact ⟨a', h', fun c ↦ (Avoids.instr (not_atRet_of_fetch hl hf (by simp)) hf).trans (hr _)⟩

theorem Avoids.call (hl : C.Loaded (C.addr l) [.instr .ret]) {l' : L}
    (h : C.Loaded a (.instr (.call l') :: is)) : ∃ a', C.Loaded a' is ∧
      ∀ c, Avoids C K (AtRet C l b) (⟨c, a⟩ : State ε) ⟨c.push a', C.addr l'⟩ := by
  obtain ⟨a', hf, h'⟩ := h
  exact ⟨a', h', fun c ↦ .instr (not_atRet_of_fetch hl hf (by simp)) hf⟩

theorem Avoids.jmp (hl : C.Loaded (C.addr l) [.instr .ret]) {l' : L}
    (h : C.Loaded a (.instr (.jmp l') :: is)) : ∃ a', C.Loaded a' is ∧
      ∀ c, Avoids C K (AtRet C l b) (⟨c, a⟩ : State ε) ⟨c, C.addr l'⟩ := by
  obtain ⟨a', hf, h'⟩ := h
  exact ⟨a', h', fun c ↦ .instr (not_atRet_of_fetch hl hf (by simp)) hf⟩

theorem Avoids.jcc (hl : C.Loaded (C.addr l) [.instr .ret]) {cond : Cond} {l' : L}
    (h : C.Loaded a (.instr (.jcc cond l') :: is)) : ∃ a', C.Loaded a' is ∧
      ∀ c, Avoids C K (AtRet C l b) (⟨c, a⟩ : State ε)
        ⟨c, if cond.holds c.flags then C.addr l' else a'⟩ := by
  obtain ⟨a', hf, h'⟩ := h
  exact ⟨a', h', fun c ↦ .instr (not_atRet_of_fetch hl hf (by simp)) hf⟩

/-- The `ret` of a routine that is called in between: the stack is another one. -/
theorem Avoids.ret (h : C.Loaded a (.instr .ret :: is)) (hne : c.gpr .rsp ≠ b) :
    Avoids C K (AtRet C l b) ⟨c, a⟩ ⟨c.drop, c.top⟩ := by
  obtain ⟨a', hf, -⟩ := h
  exact .instr (fun hp ↦ hne hp.2) hf

/-- The routine entered in `s` returns, by the `ret` at `l` with stack pointer `b`, in `s'`. -/
def Returns (C : Code L) (K : Kernel ε) (l : L) (b : Addr) (s s' : State ε) : Prop :=
  ∃ t, Avoids C K (AtRet C l b) s t ∧ AtRet C l b t ∧ X86.step C K t = some s'

theorem Returns.unique (h : Returns C K l b s s') (h' : Returns C K l b s s'') : s' = s'' := by
  obtain ⟨t, ht, hp, hs⟩ := h
  obtain ⟨t', ht', hp', hs'⟩ := h'
  obtain rfl := ht.unique hp ht' hp'
  exact Option.some.inj (hs.symm.trans hs')

theorem Avoids.returns (hl : C.Loaded (C.addr l) [.instr .ret])
    (h : Avoids C K (AtRet C l b) s ⟨c, C.addr l⟩) (hsp : c.gpr .rsp = b) :
    Returns C K l b s ⟨c.drop, c.top⟩ := by
  obtain ⟨a', hf, -⟩ := hl
  exact ⟨_, h, ⟨rfl, hsp⟩, by rw [X86.step, hf]; rfl⟩

end X86
