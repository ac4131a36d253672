import Mathlib.Data.List.NodupEquivFin
import Mathlib.Logic.Equiv.Basic
import Mathlib.Order.Lattice

/-!
# Bubble sort

Arrays are functions of the index, over any linear order.  A pass exchanges neighbours that stand in
the wrong order, from the first one up to some bound; the bound may go down from pass to pass.

## Main results

* `Settled.pass` — a pass settles one more place; where it goes on behind the unsettled places it
  does nothing more (`pass_eq_of_settled`).
* `passes_sorted`, `passes_perm` — enough passes sort.
* `passes_eq` — it does not matter how far the passes go beyond what they have to.
-/

set_option autoImplicit false

namespace Bubble

variable {α : Type*} [LinearOrder α] {f g : ℕ → α} {n k j : ℕ}

/-- Puts the elements `j` and `j + 1` into order. -/
def exchange (f : ℕ → α) (j p : ℕ) : α :=
  if p = j then min (f j) (f (j + 1)) else if p = j + 1 then max (f j) (f (j + 1)) else f p

/-- A pass with `n` exchanges. -/
def pass (f : ℕ → α) : ℕ → ℕ → α
  | 0 => f
  | n + 1 => exchange (pass f n) n

/-- Some passes, number `i` with `bound i` exchanges. -/
def passes (bound : ℕ → ℕ) (f : ℕ → α) : ℕ → ℕ → α
  | 0 => f
  | i + 1 => pass (passes bound f i) (bound i)

/-! ## Exchanging -/

theorem exchange_left (f : ℕ → α) (j : ℕ) : exchange f j j = min (f j) (f (j + 1)) := if_pos rfl

theorem exchange_right (f : ℕ → α) (j : ℕ) : exchange f j (j + 1) = max (f j) (f (j + 1)) := by
  rw [exchange, if_neg (Nat.succ_ne_self j), if_pos rfl]

theorem exchange_of_ne {p : ℕ} (h : p ≠ j) (h' : p ≠ j + 1) : exchange f j p = f p := by
  rw [exchange, if_neg h, if_neg h']

/-- Elements in order are left alone. -/
theorem exchange_of_le (h : f j ≤ f (j + 1)) : exchange f j = f := by
  funext p
  rw [exchange]
  split
  · rename_i hp
    rw [hp, min_eq_left h]
  · split
    · rename_i hp
      rw [hp, max_eq_right h]
    · rfl

/-- Others are exchanged. -/
theorem exchange_of_lt (h : f (j + 1) < f j) : exchange f j = f ∘ Equiv.swap j (j + 1) := by
  funext p
  rw [exchange, Function.comp_apply]
  split
  · rename_i hp
    rw [hp, Equiv.swap_apply_left, min_eq_right h.le]
  · split
    · rename_i hp
      rw [hp, Equiv.swap_apply_right, max_eq_left h.le]
    · rename_i hl hr
      rw [Equiv.swap_apply_of_ne_of_ne hl hr]

/-- An exchange brings nothing new. -/
theorem exists_exchange_eq {p : ℕ} (h : j < k) (hp : p ≤ k) : ∃ q ≤ k, exchange f j p = f q := by
  rcases le_or_gt (f j) (f (j + 1)) with hle | hlt
  · exact ⟨p, hp, by rw [exchange_of_le hle]⟩
  · refine ⟨Equiv.swap j (j + 1) p, ?_, by rw [exchange_of_lt hlt]; rfl⟩
    rw [Equiv.swap_apply_def]
    split
    · omega
    · split <;> omega

theorem map_swap_range (h : j + 1 < n) :
    ((List.range n).map (Equiv.swap j (j + 1))).Perm (List.range n) := by
  refine (List.perm_ext_iff_of_nodup ?_ List.nodup_range).2 fun p ↦ ?_
  · exact List.nodup_range.map (Equiv.injective _)
  · have hlt (q : ℕ) (hq : q < n) : Equiv.swap j (j + 1) q < n := by
      rw [Equiv.swap_apply_def]
      split
      · omega
      · split <;> omega
    simp only [List.mem_map, List.mem_range]
    refine ⟨?_, fun hp ↦ ⟨_, hlt p hp, Equiv.swap_apply_self ..⟩⟩
    rintro ⟨q, hq, rfl⟩
    exact hlt q hq

/-- Nothing is lost. -/
theorem exchange_perm (f : ℕ → α) (h : j + 1 < n) :
    ((List.range n).map (exchange f j)).Perm ((List.range n).map f) := by
  rcases le_or_gt (f j) (f (j + 1)) with hle | hlt
  · rw [exchange_of_le hle]
  · rw [exchange_of_lt hlt, ← List.map_map]
    exact (map_swap_range h).map f

/-! ## One pass -/

theorem pass_of_lt {p : ℕ} (h : n < p) : pass f n p = f p := by
  induction n with
  | zero => rfl
  | succ n ih => rw [pass, exchange_of_ne (by omega) (by omega), ih (by omega)]

theorem exists_pass_eq {p : ℕ} (hp : p ≤ n) : ∃ q ≤ n, pass f n p = f q := by
  induction n generalizing p with
  | zero => exact ⟨p, hp, rfl⟩
  | succ n ih =>
    obtain ⟨q, hq, heq⟩ := exists_exchange_eq (f := pass f n) (Nat.lt_succ_self n) hp
    rw [pass, heq]
    rcases Nat.le_succ_iff.1 hq with hq | rfl
    · obtain ⟨r, hr, heq'⟩ := ih hq
      exact ⟨r, hr.trans (Nat.le_succ n), heq'⟩
    · exact ⟨n + 1, le_rfl, pass_of_lt (Nat.lt_succ_self n)⟩

/-- **The greatest element comes up.** -/
theorem pass_le {p : ℕ} (hp : p ≤ n) : pass f n p ≤ pass f n n := by
  induction n generalizing p with
  | zero => rw [Nat.le_zero.1 hp]
  | succ n ih =>
    rw [pass, exchange_right]
    rcases Nat.le_succ_iff.1 hp with hp | rfl
    · rcases hp.lt_or_eq with hlt | rfl
      · rw [exchange_of_ne (by omega) (by omega)]
        exact (ih hp).trans (le_max_left ..)
      · rw [exchange_left]
        exact (min_le_left ..).trans (le_max_left ..)
    · rw [exchange_right]

theorem pass_perm (f : ℕ → α) (h : k < n) :
    ((List.range n).map (pass f k)).Perm ((List.range n).map f) := by
  induction k with
  | zero => exact List.Perm.refl _
  | succ k ih => exact (exchange_perm _ h).trans (ih (by omega))

/-! ## Settled places -/

/-- Up to `n`, everything behind `k` is where it belongs. -/
def Settled (n k : ℕ) (f : ℕ → α) : Prop := ∀ p q, p ≤ q → k < q → q ≤ n → f p ≤ f q

theorem settled_self (n : ℕ) (f : ℕ → α) : Settled n n f :=
  fun _ _ _ h h' ↦ absurd h (Nat.not_lt.2 h')

/-- There is nothing to be exchanged at settled places. -/
theorem pass_eq_of_settled {b : ℕ} (h : Settled n k f) (hkb : k ≤ b) (hbn : b ≤ n) :
    pass f b = pass f k := by
  induction b, hkb using Nat.le_induction with
  | base => rfl
  | succ b hkb ih =>
    rw [pass, ih (by omega)]
    refine exchange_of_le ?_
    rw [pass_of_lt (by omega : k < b + 1)]
    rcases hkb.lt_or_eq with hlt | rfl
    · rw [pass_of_lt hlt]
      exact h _ _ (Nat.le_succ b) (by omega) hbn
    · obtain ⟨q, hq, heq⟩ := exists_pass_eq (f := f) (le_refl k)
      rw [heq]
      exact h _ _ (by omega) (by omega) hbn

/-- **A pass settles one more place.** -/
theorem Settled.pass (h : Settled n k f) : Settled n (k - 1) (pass f k) := by
  intro p q hpq hq hqn
  rcases Nat.lt_trichotomy q k with hlt | rfl | hlt
  · omega
  · exact pass_le hpq
  · rw [pass_of_lt hlt]
    rcases Nat.lt_or_ge k p with hp | hp
    · rw [pass_of_lt hp]
      exact h p q hpq hlt hqn
    · obtain ⟨r, hr, heq⟩ := exists_pass_eq (f := f) hp
      rw [heq]
      exact h r q (by omega) hlt hqn

/-! ## All passes -/

variable {bound : ℕ → ℕ}

theorem passes_settled (hbound : ∀ i < n, n - i ≤ bound i ∧ bound i ≤ n) (f : ℕ → α) (i : ℕ)
    (hi : i ≤ n) : Settled n (n - i) (passes bound f i) := by
  induction i with
  | zero => exact settled_self n f
  | succ i ih =>
    have hprev := ih (by omega)
    rw [passes, pass_eq_of_settled hprev (hbound i hi).1 (hbound i hi).2]
    exact hprev.pass

/-- **Enough passes sort.** -/
theorem passes_sorted (hbound : ∀ i < n, n - i ≤ bound i ∧ bound i ≤ n) (f : ℕ → α) {p q : ℕ}
    (hpq : p ≤ q) (hq : q ≤ n) : passes bound f n p ≤ passes bound f n q := by
  rcases Nat.eq_zero_or_pos q with rfl | hpos
  · rw [Nat.le_zero.1 hpq]
  · have h := passes_settled hbound f n le_rfl
    rw [Nat.sub_self] at h
    exact h p q hpq hpos hq

theorem passes_perm (f : ℕ → α) (i : ℕ) (hbound : ∀ j < i, bound j < n) :
    ((List.range n).map (passes bound f i)).Perm ((List.range n).map f) := by
  induction i with
  | zero => exact List.Perm.refl _
  | succ i ih =>
    exact (pass_perm _ (hbound i (Nat.lt_succ_self i))).trans
      (ih fun j hj ↦ hbound j (Nat.lt_succ_of_lt hj))

/-- **The bounds do not matter**, as long as they are not too low. -/
theorem passes_eq {bound' : ℕ → ℕ} (hbound : ∀ i < n, n - i ≤ bound i ∧ bound i ≤ n)
    (hbound' : ∀ i < n, n - i ≤ bound' i ∧ bound' i ≤ n) (f : ℕ → α) (i : ℕ) (hi : i ≤ n) :
    passes bound f i = passes bound' f i := by
  induction i with
  | zero => rfl
  | succ i ih =>
    have hsettled := passes_settled hbound f i (by omega)
    rw [passes, passes, ← ih (by omega),
      pass_eq_of_settled hsettled (hbound i hi).1 (hbound i hi).2,
      pass_eq_of_settled hsettled (hbound' i hi).1 (hbound' i hi).2]

end Bubble
