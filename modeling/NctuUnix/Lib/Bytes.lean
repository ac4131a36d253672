import Mathlib.Logic.Function.Basic
import Mathlib.Tactic.IntervalCases
import Mathlib.Tactic.Push

/-!
# Words in a byte-addressed memory

A memory gives a byte to every 64-bit address.  `loadWord` and `storeWord` are the little-endian
accesses to eight consecutive bytes; addresses wrap around at `2 ^ 64`, so an access has no bounds
to check.  A word is looked at through its bytes (`byteOf`), and `byteOf_loadWord`, `storeWord_add`
and `storeWord_of_apart` are what proofs use instead of the two definitions.
-/

set_option autoImplicit false

namespace Bytes

abbrev Addr := BitVec 64
abbrev Byte := BitVec 8
abbrev Word := BitVec 64

/-- The contents of an address space. -/
abbrev Mem := Addr → Byte

/-! ## The bytes of a word -/

/-- Byte `k` of a word, counted from the least significant one. -/
def byteOf (w : Word) (k : Nat) : Byte := w.extractLsb' (8 * k) 8

theorem byteOf_getLsbD (w : Word) (k i : Nat) (hi : i < 8) :
    (byteOf w k).getLsbD i = w.getLsbD (8 * k + i) := by
  simp [byteOf, hi]

/-- A word is known once its eight bytes are. -/
theorem word_ext {w v : Word} (h : ∀ k, k < 8 → byteOf w k = byteOf v k) : w = v := by
  apply BitVec.eq_of_getLsbD_eq
  intro i hi
  have hb := congrArg (·.getLsbD (i % 8)) (h (i / 8) (by omega))
  simpa [byteOf, Nat.mod_lt, Nat.div_add_mod] using hb

/-! ## Loads and stores -/

/-- The little-endian word at `a`. -/
def loadWord (m : Mem) (a : Addr) : Word :=
  (m a).setWidth 64 ||| (m (a + 1)).setWidth 64 <<< 8 ||| (m (a + 2)).setWidth 64 <<< 16
    ||| (m (a + 3)).setWidth 64 <<< 24 ||| (m (a + 4)).setWidth 64 <<< 32
    ||| (m (a + 5)).setWidth 64 <<< 40 ||| (m (a + 6)).setWidth 64 <<< 48
    ||| (m (a + 7)).setWidth 64 <<< 56

/-- The memory after the word `w` has been written at `a`. -/
def storeWord (m : Mem) (a : Addr) (w : Word) : Mem :=
  fun x ↦ if (x - a).toNat < 8 then byteOf w (x - a).toNat else m x

theorem byteOf_loadWord (m : Mem) (a : Addr) {k : Nat} (hk : k < 8) :
    byteOf (loadWord m a) k = m (a + BitVec.ofNat 64 k) := by
  apply BitVec.eq_of_getLsbD_eq
  intro i hi
  interval_cases k <;>
    simp only [byteOf, loadWord, BitVec.getLsbD_extractLsb', BitVec.getLsbD_or,
      BitVec.getLsbD_shiftLeft, BitVec.getLsbD_setWidth] <;>
    interval_cases i <;> simp

/-- A load reads eight bytes and no others. -/
theorem loadWord_congr {m m' : Mem} {a : Addr}
    (h : ∀ k, k < 8 → m (a + BitVec.ofNat 64 k) = m' (a + BitVec.ofNat 64 k)) :
    loadWord m a = loadWord m' a :=
  word_ext fun k hk ↦ by rw [byteOf_loadWord m a hk, byteOf_loadWord m' a hk, h k hk]

/-- The distance from `a` to `a + k`, as the store measures it. -/
theorem add_sub_toNat (a : Addr) {k : Nat} (hk : k < 8) :
    (a + BitVec.ofNat 64 k - a).toNat = k := by
  rw [show a + BitVec.ofNat 64 k - a = BitVec.ofNat 64 k by grind, BitVec.toNat_ofNat]
  omega

/-- Inside the eight bytes a store leaves the bytes of the word. -/
theorem storeWord_add (m : Mem) (a : Addr) (w : Word) {k : Nat} (hk : k < 8) :
    storeWord m a w (a + BitVec.ofNat 64 k) = byteOf w k := by
  rw [storeWord, add_sub_toNat a hk, if_pos hk]

@[simp] theorem storeWord_self (m : Mem) (a : Addr) (w : Word) :
    storeWord m a w a = byteOf w 0 := by
  simpa using storeWord_add m a w (k := 0) (by omega)

/-- Outside them it leaves the memory alone. -/
theorem storeWord_of_apart {m : Mem} {a x : Addr} {w : Word} (h : 8 ≤ (x - a).toNat) :
    storeWord m a w x = m x := by
  rw [storeWord, if_neg (by omega)]

/-- An address is one of the eight bytes of the word at `a`, or apart from them. -/
theorem mem_word_or_apart (a x : Addr) :
    (∃ k, k < 8 ∧ x = a + BitVec.ofNat 64 k) ∨ 8 ≤ (x - a).toNat := by
  by_cases h : (x - a).toNat < 8
  · refine .inl ⟨(x - a).toNat, h, ?_⟩
    rw [BitVec.ofNat_toNat, BitVec.setWidth_eq]
    grind
  · exact .inr (by omega)

/-- Nothing but the byte at `a` changes exactly when the other seven are there already. -/
theorem storeWord_local_iff {m : Mem} {a : Addr} {w : Word} :
    (∀ x, x ≠ a → storeWord m a w x = m x) ↔
      ∀ k, 1 ≤ k → k < 8 → m (a + BitVec.ofNat 64 k) = byteOf w k := by
  constructor
  · intro hm k hk hk8
    have hne : a + BitVec.ofNat 64 k ≠ a := fun he ↦ by
      have hsub := add_sub_toNat a hk8
      rw [he, BitVec.sub_self] at hsub
      simp at hsub
      omega
    rw [← hm _ hne, storeWord_add m a w hk8]
  · intro hw x hx
    rcases mem_word_or_apart a x with ⟨k, hk, rfl⟩ | hap
    · rw [storeWord_add m a w hk]
      rcases Nat.eq_zero_or_pos k with rfl | hpos
      · exact absurd (by simp) hx
      · exact (hw k hpos hk).symm
    · exact storeWord_of_apart hap

/-- A loaded word reads back what was stored there. -/
@[simp] theorem loadWord_storeWord_same (m : Mem) (a : Addr) (w : Word) :
    loadWord (storeWord m a w) a = w :=
  word_ext fun k hk ↦ by rw [byteOf_loadWord _ a hk, storeWord_add m a w hk]

/-- Two words at distance eight or more, both ways round, do not meet. -/
theorem loadWord_storeWord_apart {m : Mem} {a b : Addr} {w : Word}
    (h : 8 ≤ (b - a).toNat) (h' : 8 ≤ (a - b).toNat) :
    loadWord (storeWord m a w) b = loadWord m b := by
  refine loadWord_congr fun k hk ↦ storeWord_of_apart ?_
  bv_omega

/-! ## Offsets and blocks

Words at fixed offsets from a common base, and blocks of memory that do not meet.  The conditions
on offsets are closed by `decide`. -/

/-- The `n` bytes at `a` and the `k` bytes at `b` do not meet. -/
def Apart (a : Addr) (n : Nat) (b : Addr) (k : Nat) : Prop := n ≤ (b - a).toNat ∧ k ≤ (a - b).toNat

instance {a b : Addr} {n k : Nat} : Decidable (Apart a n b k) := instDecidableAnd

theorem Apart.symm {a b : Addr} {n k : Nat} (h : Apart a n b k) : Apart b k a n := ⟨h.2, h.1⟩

theorem apart_add (a : Addr) {x y : Word} {n k : Nat} (h : Apart x n y k) :
    Apart (a + x) n (a + y) k := by
  obtain ⟨h₁, h₂⟩ := h
  constructor <;> bv_omega

theorem loadWord_storeWord_off {m : Mem} {a : Addr} {x y w : Word} (h : Apart x 8 y 8) :
    loadWord (storeWord m (a + x) w) (a + y) = loadWord m (a + y) :=
  loadWord_storeWord_apart (apart_add a h).1 (apart_add a h).2

/-- The words `ws` stand in memory, the first one at `a + k`. -/
def Words (m : Mem) (a : Addr) : Word → List Word → Prop
  | _, [] => True
  | k, w :: ws => loadWord m (a + k) = w ∧ Words m a (k + 8) ws

theorem Words.congr {m m' : Mem} {a : Addr} {ws : List Word} {k : Word} (h : Words m a k ws)
    (hm : ∀ j, j < 8 * ws.length →
      m' (a + (k + BitVec.ofNat 64 j)) = m (a + (k + BitVec.ofNat 64 j))) :
    Words m' a k ws := by
  induction ws generalizing k with
  | nil => trivial
  | cons w ws ih =>
    rw [List.length_cons] at hm
    refine ⟨(loadWord_congr fun j hj ↦ ?_).trans h.1, ih h.2 fun j hj ↦ ?_⟩
    · rw [BitVec.add_assoc]
      exact hm j (by omega)
    · have hk : k + 8 + BitVec.ofNat 64 j = k + BitVec.ofNat 64 (8 + j) := by
        rw [BitVec.ofNat_add, BitVec.add_assoc]
        rfl
      rw [hk]
      exact hm (8 + j) (by omega)

/-! ## Patching one byte through a word access

A tracer can only read and write whole words, so it changes a byte by reading the word at its
address, replacing the low byte and writing the word back. -/

/-- Whether the low byte of a word is `b`, as a mask sees it. -/
theorem and_ff_eq_iff (w : Word) (b : Byte) : w &&& 0xff = b.setWidth 64 ↔ byteOf w 0 = b := by
  have hand : (w &&& 0xff).toNat = w.toNat % 256 := by
    rw [BitVec.toNat_and, show (0xff : Word).toNat = 2 ^ 8 - 1 from rfl,
      Nat.and_two_pow_sub_one_eq_mod]
  have hbyte : (byteOf w 0).toNat = w.toNat % 256 := by simp [byteOf, BitVec.extractLsb'_toNat]
  have hwide : (b.setWidth 64).toNat = b.toNat := by
    rw [BitVec.toNat_setWidth, Nat.mod_eq_of_lt (by have := b.isLt; omega)]
  constructor
  · intro h
    apply BitVec.eq_of_toNat_eq
    rw [hbyte, ← hand, h, hwide]
  · intro h
    apply BitVec.eq_of_toNat_eq
    rw [hand, ← hbyte, h, hwide]

/-- The bytes of a word whose low byte has been replaced. -/
theorem byteOf_patch (w v : Word) {k : Nat} (hk : k < 8) (hv : v.toNat < 256) :
    byteOf (w &&& 0xffffffffffffff00 ||| v) k = if k = 0 then byteOf v 0 else byteOf w k := by
  have hmask : ∀ j : Fin 64, (0xffffffffffffff00 : Word).getLsbD j = decide (8 ≤ j.val) := by
    decide
  have hhigh : ∀ j, 8 ≤ j → v.getLsbD j = false := fun j hj ↦
    Nat.testBit_lt_two_pow (hv.trans_le (Nat.pow_le_pow_right (n := 2) (by omega) hj))
  apply BitVec.eq_of_getLsbD_eq
  intro i hi
  have hm := hmask ⟨8 * k + i, by omega⟩
  simp only at hm
  rw [byteOf_getLsbD _ k i hi, BitVec.getLsbD_or, BitVec.getLsbD_and, hm]
  by_cases h0 : k = 0
  · subst h0
    rw [if_pos rfl, byteOf_getLsbD v 0 i hi]
    simp [show ¬ 8 ≤ i by omega]
  · rw [hhigh _ (by omega), if_neg h0, byteOf_getLsbD w k i hi]
    simp [show 8 ≤ 8 * k + i by omega]

/-- **The patch is local**: read, replace, write back changes the one byte. -/
theorem storeWord_patch (m : Mem) (a : Addr) {v : Word} (hv : v.toNat < 256) :
    storeWord m a (loadWord m a &&& 0xffffffffffffff00 ||| v)
      = Function.update m a (byteOf v 0) := by
  funext x
  rcases mem_word_or_apart a x with ⟨k, hk, rfl⟩ | hx
  · rw [storeWord_add _ _ _ hk, byteOf_patch _ _ hk hv]
    by_cases h0 : k = 0
    · simp [h0]
    · have hne : a + BitVec.ofNat 64 k ≠ a := by
        intro h
        have := add_sub_toNat a hk
        rw [h] at this
        simp at this
        omega
      rw [if_neg h0, Function.update_of_ne hne, byteOf_loadWord _ _ hk]
  · have hne : x ≠ a := by rintro rfl; simp at hx
    rw [storeWord_of_apart hx, Function.update_of_ne hne]

end Bytes
