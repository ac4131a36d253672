import Mathlib.Data.Set.Insert
import Mathlib.Order.Interval.Set.Defs

/-!
# Bit vectors as sets

A bit vector stands for the set of the positions of its ones.  The bitwise operations are then the
operations on sets, and a shifted one is a singleton.
-/

set_option autoImplicit false

namespace BitSet

variable {w : Nat} {u v : BitVec w} {i : Nat}

/-- The positions of the ones. -/
def ones (v : BitVec w) : Set Nat := {i | v.getLsbD i = true}

@[simp] theorem mem_ones : i ∈ ones v ↔ v.getLsbD i = true := Iff.rfl

theorem ones_zero : ones (0 : BitVec w) = ∅ := by
  ext i
  simp

theorem ones_allOnes : ones (BitVec.allOnes w) = Set.Iio w := by
  ext i
  simp [BitVec.getLsbD_allOnes]

theorem ones_or (u v : BitVec w) : ones (u ||| v) = ones u ∪ ones v := by
  ext i
  simp

theorem ones_and_not (u v : BitVec w) : ones (u &&& ~~~v) = ones u \ ones v := by
  ext i
  have hlt : u.getLsbD i = true → i < w := BitVec.lt_of_getLsbD
  simp only [mem_ones, BitVec.getLsbD_and, BitVec.getLsbD_not, Bool.and_eq_true, decide_eq_true_eq,
    Bool.not_eq_true', Set.mem_sdiff, Bool.not_eq_true]
  exact ⟨fun h ↦ ⟨h.1, h.2.2⟩, fun h ↦ ⟨h.1, hlt h.1, h.2⟩⟩

theorem ones_shiftLeft (hi : i < w) : ones (1#w <<< i) = {i} := by
  ext j
  simp only [mem_ones, BitVec.getLsbD_shiftLeft, BitVec.getLsbD_one, Bool.and_eq_true,
    decide_eq_true_eq, Bool.not_eq_true', decide_eq_false_iff_not, Set.mem_singleton_iff]
  omega

/-- A bit is tested by masking it. -/
theorem and_shiftLeft_ne_zero (hi : i < w) : v &&& 1#w <<< i ≠ 0 ↔ i ∈ ones v := by
  have hone : ∀ j, (1#w <<< i).getLsbD j = true ↔ j = i := fun j ↦ by
    rw [← mem_ones, ones_shiftLeft hi, Set.mem_singleton_iff]
  constructor
  · intro hne
    by_contra hno
    refine hne (BitVec.eq_of_getLsbD_eq fun j _ ↦ ?_)
    rw [BitVec.getLsbD_and, BitVec.ofNat_eq_ofNat, BitVec.getLsbD_zero, Bool.and_eq_false_iff]
    by_cases hj : j = i
    · exact .inl (by rw [hj]; simpa using hno)
    · exact .inr (Bool.eq_false_iff.2 fun h ↦ hj ((hone j).1 h))
  · intro hmem hz
    have hbit := congrArg (·.getLsbD i) hz
    simp only [BitVec.getLsbD_and, BitVec.ofNat_eq_ofNat, BitVec.getLsbD_zero] at hbit
    rw [mem_ones.1 hmem, (hone i).2 rfl] at hbit
    exact absurd hbit (by decide)

end BitSet
