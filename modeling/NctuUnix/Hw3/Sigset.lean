import Mathlib.Data.Int.ConditionallyCompleteOrder
import NctuUnix.Lib.BitSet
import NctuUnix.Lib.Bytes

/-!
# Signal sets

The operations on `sigset_t` of `libmini.c`.  A set is one quadword in memory, bit `i - 1` for
signal `i`; `sigemptyset` and `sigfillset` write it byte by byte.  The functions get the address of
the set, which may be `NULL`, and any number for the signal.

## Main results

* `Call.exec_signals` — a call does to the set at an address what `Call.apply` does to a set of
  numbers.
* `sigset_refines` — the same for sequences of calls, with the results of the functions.
-/

set_option autoImplicit false

namespace Mini

open Bytes

/-- What the functions of the library change: the memory, and `errno`. -/
structure Libc where
  mem : Mem
  errno : Word

/-- `EINVAL` -/
def einval : Word := 22

/-- `NSIG` -/
def nsig : Int := 64 + 1

/-- `sigmask(sig)`, for `sig` from 1 to 64. -/
def sigmask (sig : Int) : Word := 1#64 <<< (sig - 1).toNat

/-- `void *memset(void *dest, int val, size_t len)`; the length is signed. -/
def memsetLoop (dest : Addr) (val : Byte) : Nat → Mem → Mem
  | 0, m => m
  | len + 1, m => memsetLoop (dest + 1) val len (Function.update m dest val)

@[inherit_doc memsetLoop]
def memset (dest : Addr) (val : BitVec 32) (len : Int) (m : Mem) : Mem :=
  memsetLoop dest (val.setWidth 8) len.toNat m

/-- `set_errno(EINVAL); return -1;` -/
def invalid (s : Libc) : Int × Libc := (-1, { s with errno := einval })

/-- `int sigemptyset(sigset_t *set)` -/
def sigemptyset (set : Addr) (s : Libc) : Int × Libc :=
  if set = 0 then invalid s else (0, { s with mem := memset set 0 8 s.mem })

/-- `int sigfillset(sigset_t *set)` -/
def sigfillset (set : Addr) (s : Libc) : Int × Libc :=
  if set = 0 then invalid s else (0, { s with mem := memset set 0xff 8 s.mem })

/-- `int sigaddset(sigset_t *set, int signo)` -/
def sigaddset (set : Addr) (signo : Int) (s : Libc) : Int × Libc :=
  if set = 0 ∨ signo ≤ 0 ∨ signo ≥ nsig then invalid s
  else (0, { s with mem := storeWord s.mem set (loadWord s.mem set ||| sigmask signo) })

/-- `int sigdelset(sigset_t *set, int signo)` -/
def sigdelset (set : Addr) (signo : Int) (s : Libc) : Int × Libc :=
  if set = 0 ∨ signo ≤ 0 ∨ signo ≥ nsig then invalid s
  else (0, { s with mem := storeWord s.mem set (loadWord s.mem set &&& ~~~sigmask signo) })

/-- `int sigismember(const sigset_t *set, int signo)` -/
def sigismember (set : Addr) (signo : Int) (s : Libc) : Int × Libc :=
  if set = 0 ∨ signo ≤ 0 ∨ signo ≥ nsig then invalid s
  else (if loadWord s.mem set &&& sigmask signo ≠ 0 then 1 else 0, s)

/-! ## Filling memory -/

variable {m : Mem} {a p : Addr} {b : Byte} {n : Nat}

theorem memsetLoop_of_apart {x : Addr} (h : n ≤ (x - a).toNat) : memsetLoop a b n m x = m x := by
  induction n generalizing a m with
  | zero => rfl
  | succ n ih =>
    have hne : x ≠ a := by
      rintro rfl
      simp at h
    rw [memsetLoop, ih (by bv_omega), Function.update_of_ne hne]

theorem memsetLoop_add {k : Nat} (hk : k < n) (hn : n < 2 ^ 64) :
    memsetLoop a b n m (a + BitVec.ofNat 64 k) = b := by
  induction n generalizing a m k with
  | zero => exact absurd hk (Nat.not_lt_zero k)
  | succ n ih =>
    rw [memsetLoop]
    rcases k with _ | k
    · rw [memsetLoop_of_apart (by bv_omega)]
      simp
    · rw [show a + BitVec.ofNat 64 (k + 1) = a + 1 + BitVec.ofNat 64 k by bv_omega]
      exact ih (by omega) (by omega)

/-- A word filled byte by byte. -/
theorem memset_eq_storeWord {w : Word} {val : BitVec 32}
    (hw : ∀ k, k < 8 → byteOf w k = val.setWidth 8) : memset a val 8 m = storeWord m a w := by
  funext x
  rcases mem_word_or_apart a x with ⟨k, hk, rfl⟩ | hx
  · rw [storeWord_add m a w hk, hw k hk]
    exact memsetLoop_add hk (by omega)
  · rw [storeWord_of_apart hx]
    exact memsetLoop_of_apart hx

/-! ## Sets of numbers -/

/-- The set of signals that a quadword stands for. -/
def members (w : Word) : Set Int := {i | 1 ≤ i ∧ (i - 1).toNat ∈ BitSet.ones w}

/-- The set at `p`. -/
def Libc.signals (s : Libc) (p : Addr) : Set Int := members (loadWord s.mem p)

theorem members_zero : members 0 = ∅ := by
  rw [members, BitSet.ones_zero]
  simp

theorem members_allOnes : members (BitVec.allOnes 64) = Set.Icc 1 64 := by
  ext i
  rw [members, BitSet.ones_allOnes]
  simp only [Set.mem_Iio, Set.mem_ofPred_eq, Set.mem_Icc]
  omega

variable {w : Word} {signo : Int}

theorem ones_sigmask (h : signo ∈ Set.Icc 1 64) :
    BitSet.ones (sigmask signo) = {(signo - 1).toNat} :=
  BitSet.ones_shiftLeft (by rw [Set.mem_Icc] at h; omega)

theorem members_or_sigmask (h : signo ∈ Set.Icc 1 64) :
    members (w ||| sigmask signo) = insert signo (members w) := by
  ext i
  simp only [members, BitSet.ones_or, ones_sigmask h, Set.mem_union, Set.mem_singleton_iff,
    Set.mem_ofPred_eq, Set.mem_insert_iff]
  rw [Set.mem_Icc] at h
  constructor
  · rintro ⟨h1, hi | hi⟩
    · exact .inr ⟨h1, hi⟩
    · exact .inl (by omega)
  · rintro (rfl | ⟨h1, hi⟩)
    · exact ⟨h.1, .inr rfl⟩
    · exact ⟨h1, .inl hi⟩

theorem members_and_not_sigmask (h : signo ∈ Set.Icc 1 64) :
    members (w &&& ~~~sigmask signo) = members w \ {signo} := by
  ext i
  simp only [members, BitSet.ones_and_not, ones_sigmask h, Set.mem_sdiff, Set.mem_singleton_iff,
    Set.mem_ofPred_eq]
  rw [Set.mem_Icc] at h
  constructor
  · rintro ⟨h1, hi, hne⟩
    exact ⟨⟨h1, hi⟩, fun he ↦ hne (he ▸ rfl)⟩
  · rintro ⟨⟨h1, hi⟩, hne⟩
    exact ⟨h1, hi, fun he ↦ hne (by omega)⟩

theorem and_sigmask_ne_zero (h : signo ∈ Set.Icc 1 64) :
    w &&& sigmask signo ≠ 0 ↔ signo ∈ members w := by
  rw [Set.mem_Icc] at h
  rw [sigmask, BitSet.and_shiftLeft_ne_zero (by omega)]
  exact ⟨fun hi ↦ ⟨h.1, hi⟩, fun hi ↦ hi.2⟩

/-! ## Calls -/

/-- A call of a function that changes a set. -/
inductive Call
  | sigemptyset (set : Addr)
  | sigfillset (set : Addr)
  | sigaddset (set : Addr) (signo : Int)
  | sigdelset (set : Addr) (signo : Int)
  deriving DecidableEq, Repr

namespace Call

/-- The set it is about. -/
def set : Call → Addr
  | .sigemptyset set | .sigfillset set | .sigaddset set _ | .sigdelset set _ => set

/-- The arguments are acceptable. -/
def Valid : Call → Prop
  | .sigemptyset set | .sigfillset set => set ≠ 0
  | .sigaddset set signo | .sigdelset set signo => set ≠ 0 ∧ signo ∈ Set.Icc 1 64

/-- The result and what the call changes. -/
def exec : Call → Libc → Int × Libc
  | .sigemptyset set => Mini.sigemptyset set
  | .sigfillset set => Mini.sigfillset set
  | .sigaddset set signo => Mini.sigaddset set signo
  | .sigdelset set signo => Mini.sigdelset set signo

/-- What the call is for. -/
def apply : Call → Set Int → Set Int
  | .sigemptyset _ => fun _ ↦ ∅
  | .sigfillset _ => fun _ ↦ Set.Icc 1 64
  | .sigaddset _ signo => insert signo
  | .sigdelset _ signo => (· \ {signo})

open Classical in
/-- What the call does to the set at `p`: nothing if it is not acceptable, or about another set. -/
noncomputable def applyAt (p : Addr) (c : Call) (S : Set Int) : Set Int :=
  if c.set = p ∧ c.Valid then c.apply S else S

end Call

variable {c : Call} {s : Libc}

/-- What the functions check. -/
theorem invalid_iff {set : Addr} :
    set = 0 ∨ signo ≤ 0 ∨ signo ≥ nsig ↔ ¬ (set ≠ 0 ∧ signo ∈ Set.Icc 1 64) := by
  rw [Set.mem_Icc, nsig, not_and_or, not_not]
  exact or_congr_right (by omega)

/-- A call that is not acceptable fails, and changes nothing but `errno`. -/
theorem Call.exec_invalid (h : ¬ c.Valid) : c.exec s = (-1, { s with errno := einval }) := by
  rcases c with set | set | ⟨set, signo⟩ | ⟨set, signo⟩
  · exact if_pos (not_not.1 h)
  · exact if_pos (not_not.1 h)
  · exact if_pos (invalid_iff.2 h)
  · exact if_pos (invalid_iff.2 h)

/-- An acceptable call writes one word. -/
theorem Call.exec_valid (h : c.Valid) :
    ∃ w, c.exec s = (0, { s with mem := storeWord s.mem c.set w }) ∧
      members w = c.apply (s.signals c.set) := by
  have hok : ∀ {set : Addr} {signo : Int}, set ≠ 0 ∧ signo ∈ Set.Icc 1 64 →
      ¬ (set = 0 ∨ signo ≤ 0 ∨ signo ≥ nsig) := fun hv hi ↦ invalid_iff.1 hi hv
  rcases c with set | set | ⟨set, signo⟩ | ⟨set, signo⟩
  · refine ⟨0, ?_, members_zero⟩
    rw [exec, Mini.sigemptyset, if_neg h, memset_eq_storeWord (w := 0) (by decide)]
    rfl
  · refine ⟨BitVec.allOnes 64, ?_, members_allOnes⟩
    rw [exec, Mini.sigfillset, if_neg h, memset_eq_storeWord (w := BitVec.allOnes 64) (by decide)]
    rfl
  · exact ⟨_, if_neg (hok h), members_or_sigmask h.2⟩
  · exact ⟨_, if_neg (hok h), members_and_not_sigmask h.2⟩

/-- A call is about the set at `p`, about no set, or about one that is apart from it. -/
def Call.Separate (p : Addr) (c : Call) : Prop := c.set = p ∨ c.set = 0 ∨ Apart c.set 8 p 8

/-- **One call** does to the set at `p` what it is for. -/
theorem Call.exec_signals (hsep : c.Separate p) :
    (c.exec s).2.signals p = c.applyAt p (s.signals p) := by
  by_cases hv : c.Valid
  · obtain ⟨w, he, hw⟩ := exec_valid (s := s) hv
    rw [he, applyAt, Libc.signals]
    by_cases hp : c.set = p
    · rw [if_pos ⟨hp, hv⟩, ← hp]
      show members (loadWord (storeWord s.mem c.set w) c.set) = _
      rw [loadWord_storeWord_same, hw]
    · have hz : c.set ≠ 0 := by
        rcases c with set | set | ⟨set, signo⟩ | ⟨set, signo⟩
        · exact hv
        · exact hv
        · exact hv.1
        · exact hv.1
      rw [if_neg fun h ↦ hp h.1]
      obtain ⟨h₁, h₂⟩ := (hsep.resolve_left hp).resolve_left hz
      show members (loadWord (storeWord s.mem c.set w) p) = _
      rw [loadWord_storeWord_apart h₁ h₂]
      rfl
  · rw [exec_invalid hv, applyAt, if_neg fun h ↦ hv h.2]
    rfl

/-- A sequence of calls. -/
def execAll (calls : List Call) (s : Libc) : Libc := calls.foldl (fun s c ↦ (c.exec s).2) s

theorem execAll_signals {calls : List Call} (hsep : ∀ c ∈ calls, c.Separate p) :
    (execAll calls s).signals p = calls.foldl (fun S c ↦ c.applyAt p S) (s.signals p) := by
  induction calls generalizing s with
  | nil => rfl
  | cons c calls ih =>
    rw [execAll, List.foldl_cons, List.foldl_cons, ← Call.exec_signals (hsep c List.mem_cons_self)]
    exact ih fun c' hc ↦ hsep c' (List.mem_cons_of_mem c hc)

/-- **`sigset_t` is a set of signals.**  After any sequence of calls the word at `p` stands for the
set that the operations on sets give; `sigismember` tells its members from the other numbers from 1
to 64; and calls with a `NULL` set or a number that is out of range return -1, with `errno` `EINVAL`
and nothing else changed. -/
theorem sigset_refines (p : Addr) (calls : List Call) (hsep : ∀ c ∈ calls, c.Separate p)
    (s : Libc) :
    (execAll calls s).signals p = calls.foldl (fun S c ↦ c.applyAt p S) (s.signals p) ∧
      (∀ (c : Call) (t : Libc), (c.Valid → (c.exec t).1 = 0 ∧ (c.exec t).2.errno = t.errno) ∧
        (¬ c.Valid → c.exec t = (-1, { t with errno := einval }))) ∧
      ∀ (set : Addr) (signo : Int) (t : Libc),
        (set ≠ 0 ∧ signo ∈ Set.Icc 1 64 →
          (signo ∈ t.signals set → sigismember set signo t = (1, t)) ∧
          (signo ∉ t.signals set → sigismember set signo t = (0, t))) ∧
        (¬ (set ≠ 0 ∧ signo ∈ Set.Icc 1 64) →
          sigismember set signo t = (-1, { t with errno := einval })) := by
  refine ⟨execAll_signals hsep, fun c t ↦ ⟨fun hv ↦ ?_, Call.exec_invalid⟩, fun set signo t ↦ ?_⟩
  · obtain ⟨w, he, -⟩ := Call.exec_valid (s := t) hv
    rw [he]
    exact ⟨rfl, rfl⟩
  · refine ⟨fun hok ↦ ?_, fun hno ↦ if_pos (invalid_iff.2 hno)⟩
    · have hcall : sigismember set signo t
          = (if loadWord t.mem set &&& sigmask signo ≠ 0 then 1 else 0, t) :=
        if_neg fun hi ↦ invalid_iff.1 hi hok
      rw [hcall]
      constructor
      · intro hin
        rw [if_pos ((and_sigmask_ne_zero hok.2).2 hin)]
      · intro hout
        rw [if_neg fun h ↦ hout ((and_sigmask_ne_zero hok.2).1 h)]

/-- `SIGHUP` is added to what an uninitialised set holds, `SIGKILL` taken out, and then a number
that is too large and a `NULL` set are tried. -/
theorem sigset_refines_calls : ∃ s : Libc, 1 ∈ (execAll [.sigaddset 8 1, .sigdelset 8 9,
    .sigaddset 8 65, .sigfillset 0] s).signals 8 ∧
      (execAll [.sigaddset 8 1, .sigdelset 8 9, .sigaddset 8 65, .sigfillset 0] s).errno
        = einval := by
  refine ⟨⟨fun _ ↦ 0xa5, 0⟩, ?_, rfl⟩
  rw [(sigset_refines 8 [.sigaddset 8 1, .sigdelset 8 9, .sigaddset 8 65, .sigfillset 0]
    (by simp [Call.Separate, Call.set]) ⟨fun _ ↦ 0xa5, 0⟩).1]
  simp [Call.applyAt, Call.set, Call.Valid, Call.apply]

end Mini
