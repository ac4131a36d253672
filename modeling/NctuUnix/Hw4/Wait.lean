import NctuUnix.Lib.Trap

/-!
# Wait statuses

`waitpid` hands the debugger an `int` and the debugger takes it apart with the macros of
`sys/wait.h`.  `Event.status` is the encoding the kernel uses, the macros are transcribed below it,
and the lemmas say what each macro answers on each kind of status.
-/

set_option autoImplicit false

namespace Sdb

open Trap

/-- The status `waitpid` stores for an event of the traced process. -/
def status {ρ ε : Type} : Event ρ ε → Nat
  | .exited code => code.toNat <<< 8
  | .killed sig core => sig.val ||| (if core then 0x80 else 0)
  | .stopped sig _ => (sig.val <<< 8) ||| 0x7f

/-! ## The macros -/

def WTERMSIG (st : Nat) : Nat := st &&& 0x7f

def WEXITSTATUS (st : Nat) : Nat := (st &&& 0xff00) >>> 8

def WSTOPSIG (st : Nat) : Nat := WEXITSTATUS st

def WIFEXITED (st : Nat) : Bool := WTERMSIG st == 0

/-- `((signed char) ((st & 0x7f) + 1) >> 1) > 0` -/
def WIFSIGNALED (st : Nat) : Bool :=
  0 < ((BitVec.ofNat 8 ((st &&& 0x7f) + 1)).sshiftRight 1).toInt

def WIFSTOPPED (st : Nat) : Bool := (st &&& 0xff) == 0x7f

/-! ## What they answer -/

section

variable {ρ ε : Type}

theorem status_exited (code : BitVec 8) :
    WIFEXITED (status (.exited code : Event ρ ε)) = true ∧
      WIFSIGNALED (status (.exited code : Event ρ ε)) = false ∧
      WIFSTOPPED (status (.exited code : Event ρ ε)) = false := by
  rw [status]
  revert code
  decide

/-- There are few enough signals to look at the statuses one by one. -/
theorem macros_of_signal : ∀ n : Fin 65, 1 ≤ n.val →
    (∀ core : Bool, WIFEXITED (n.val ||| (if core then 0x80 else 0)) = false ∧
      WIFSTOPPED (n.val ||| (if core then 0x80 else 0)) = false) ∧
    WIFEXITED ((n.val <<< 8) ||| 0x7f) = false ∧ WIFSTOPPED ((n.val <<< 8) ||| 0x7f) = true ∧
      WSTOPSIG ((n.val <<< 8) ||| 0x7f) = n.val := by
  decide

theorem status_killed (sig : Signal) (core : Bool) :
    WIFEXITED (status (.killed sig core : Event ρ ε)) = false ∧
      WIFSTOPPED (status (.killed sig core : Event ρ ε)) = false :=
  (macros_of_signal ⟨sig.val, by have := sig.2; omega⟩ sig.2.1).1 core

theorem status_stopped (sig : Signal) (c : Cpu ρ ε) :
    WIFEXITED (status (.stopped sig c)) = false ∧ WIFSTOPPED (status (.stopped sig c)) = true ∧
      WSTOPSIG (status (.stopped sig c)) = sig.val :=
  (macros_of_signal ⟨sig.val, by have := sig.2; omega⟩ sig.2.1).2

end

end Sdb
