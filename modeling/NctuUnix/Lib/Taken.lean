import Mathlib.Data.List.Basic
import Mathlib.Data.List.Induction
import Mathlib.Data.List.Nodup
import Mathlib.Data.List.TakeWhile

/-!
# Elements that differ from the one taken last

A loop that is to drop duplicates and remembers only the element it took last: `taken` is what it
takes.  Where an element is taken whenever its key is another one, this drops all duplicates just
if the elements of a key stand together.

## Main results

* `nodup_changes` — no key is taken twice if and only if the keys are `Grouped`.
* `mem_keys_changes` — which keys are taken.
* `mem_changes` — which elements are taken.
* `le_runLength_iff` — a counter of elements in a row, which starts anew at every other one.
-/

set_option autoImplicit false

namespace Taken

variable {α β κ : Type}

/-- What is taken from a list, given what was taken last. -/
def taken (differs : κ → α → Bool) (key : α → κ) : κ → List α → List α
  | _, [] => []
  | k, a :: l =>
    if differs k a then a :: taken differs key (key a) l else taken differs key k l

theorem taken_sublist (differs : κ → α → Bool) (key : α → κ) (k : κ) (l : List α) :
    (taken differs key k l).Sublist l := by
  induction l generalizing k with
  | nil => exact .slnil
  | cons a l ih =>
    rw [taken]
    split
    · exact (ih _).cons_cons a
    · exact (ih _).cons a

/-! ## Groups -/

/-- Elements that are equal have no other one between them. -/
def Grouped (l : List κ) : Prop := ∀ x y, [x, y, x].Sublist l → x = y

variable {k x : κ} {ks : List κ}

theorem grouped_cons_self : Grouped (k :: k :: ks) ↔ Grouped (k :: ks) := by
  constructor
  · exact fun h x y hs ↦ h x y (hs.cons k)
  · intro h x y hs
    rcases List.sublist_cons_iff.1 hs with hs | ⟨r, hr, hs⟩
    · exact h x y hs
    · obtain ⟨rfl, rfl⟩ := List.cons.inj hr
      rcases List.sublist_cons_iff.1 hs with hs | ⟨r, hr, -⟩
      · exact h x y (hs.cons_cons x)
      · exact (List.cons.inj hr).1.symm

theorem grouped_cons_cons (hx : x ≠ k) :
    Grouped (k :: x :: ks) ↔ Grouped (x :: ks) ∧ k ∉ ks := by
  constructor
  · refine fun h ↦ ⟨fun y z hs ↦ h y z (hs.cons k), fun hk ↦ hx ?_⟩
    have hsub : [k, x, k].Sublist (k :: x :: ks) :=
      ((List.singleton_sublist.2 hk).cons_cons x).cons_cons k
    exact (h k x hsub).symm
  · rintro ⟨h, hk⟩ y z hs
    rcases List.sublist_cons_iff.1 hs with hs | ⟨r, hr, hs⟩
    · exact h y z hs
    · obtain ⟨rfl, rfl⟩ := List.cons.inj hr
      have hmem : y ∈ x :: ks := hs.subset (by simp)
      exact absurd hmem (by simp [hk, hx.symm])

theorem grouped_map_iff {f : κ → β} (hf : Function.Injective f) :
    Grouped (ks.map f) ↔ Grouped ks := by
  constructor
  · exact fun h x y hs ↦ hf (h (f x) (f y) (hs.map f))
  · intro h x y hs
    obtain ⟨l', hl', heq⟩ := List.sublist_map_iff.1 hs
    rcases l' with _ | ⟨a, _ | ⟨b, _ | ⟨c, _ | ⟨d, l'⟩⟩⟩⟩
    · simp at heq
    · simp at heq
    · simp at heq
    · simp only [List.map_cons, List.map_nil, List.cons.injEq, and_true] at heq
      obtain ⟨rfl, rfl, hac⟩ := heq
      rw [hf hac] at hl'
      rw [hf hac, h c b hl']
    · simp at heq

/-! ## Keys that change -/

section Changes

variable [DecidableEq κ] (key : α → κ)

/-- What is taken if every change of the key counts. -/
def changes (k : κ) (l : List α) : List α := taken (fun k a ↦ decide (key a ≠ k)) key k l

variable {key} {a : α} {l : List α}

theorem changes_cons_of_eq (h : key a = k) : changes key k (a :: l) = changes key k l :=
  if_neg (by simpa using h)

theorem changes_cons_of_ne (h : key a ≠ k) :
    changes key k (a :: l) = a :: changes key (key a) l :=
  if_pos (by simpa using h)

/-- What comes first and has the key remembered is passed over. -/
theorem changes_dropWhile (k : κ) (l : List α) :
    changes key k (l.dropWhile fun a ↦ decide (key a = k)) = changes key k l := by
  induction l with
  | nil => rfl
  | cons a l ih =>
    by_cases h : key a = k
    · rw [List.dropWhile_cons_of_pos (by simpa using h), ih, changes_cons_of_eq h]
    · rw [List.dropWhile_cons_of_neg (by simpa using h)]

theorem mem_keys_of_mem_changes (h : x ∈ (changes key k l).map key) : x ∈ l.map key :=
  ((taken_sublist _ key k l).map key).subset h

theorem mem_keys_changes_of_ne (hx : x ≠ k) (h : x ∈ l.map key) :
    x ∈ (changes key k l).map key := by
  induction l generalizing k with
  | nil => exact absurd h List.not_mem_nil
  | cons a l ih =>
    rw [List.map_cons, List.mem_cons] at h
    by_cases ha : key a = k
    · rw [changes_cons_of_eq ha]
      exact ih hx (h.resolve_left fun he ↦ hx (he.trans ha))
    · rw [changes_cons_of_ne ha, List.map_cons, List.mem_cons]
      by_cases hxa : x = key a
      · exact .inl hxa
      · exact .inr (ih hxa (h.resolve_left hxa))

/-- What is left does not begin with the remembered key. -/
theorem key_ne_of_dropWhile {t : List α}
    (hd : l.dropWhile (fun a ↦ decide (key a = k)) = a :: t) : key a ≠ k := by
  have hhead := List.head?_dropWhile_not (fun a ↦ decide (key a = k)) l
  rw [hd] at hhead
  simpa using hhead

/-- The keys that are taken: those there are after the first ones that are the remembered one. -/
theorem mem_keys_changes : x ∈ (changes key k l).map key ↔
    x ∈ (l.dropWhile fun a ↦ decide (key a = k)).map key := by
  rw [← changes_dropWhile k l]
  refine ⟨mem_keys_of_mem_changes, fun h ↦ ?_⟩
  rcases hd : l.dropWhile (fun a ↦ decide (key a = k)) with _ | ⟨a, t⟩
  · rw [hd] at h
    exact absurd h List.not_mem_nil
  · rw [hd, List.map_cons, List.mem_cons] at h
    have ha := key_ne_of_dropWhile hd
    rw [changes_cons_of_ne ha, List.map_cons, List.mem_cons]
    by_cases hx : x = key a
    · exact .inl hx
    · exact .inr (mem_keys_changes_of_ne hx (h.resolve_left hx))

/-- The elements that are taken: those whose key is not the one in front of it. -/
theorem mem_changes : a ∈ changes key k l ↔
    ∃ pre post, l = pre ++ a :: post ∧ key a ≠ (pre.map key).getLastD k := by
  induction l generalizing k with
  | nil => simp [changes, taken]
  | cons b l ih =>
    have hsplit : (∃ pre post, b :: l = pre ++ a :: post ∧ key a ≠ (pre.map key).getLastD k) ↔
        (a = b ∧ key b ≠ k) ∨
          ∃ pre post, l = pre ++ a :: post ∧ key a ≠ (pre.map key).getLastD (key b) := by
      constructor
      · rintro ⟨_ | ⟨c, pre⟩, post, heq, hne⟩
        · obtain ⟨rfl, rfl⟩ := List.cons.inj heq
          exact .inl ⟨rfl, hne⟩
        · obtain ⟨rfl, rfl⟩ := List.cons.inj heq
          rw [List.map_cons, List.getLastD_cons] at hne
          exact .inr ⟨pre, post, rfl, hne⟩
      · rintro (⟨rfl, hne⟩ | ⟨pre, post, rfl, hne⟩)
        · exact ⟨[], l, rfl, hne⟩
        · refine ⟨b :: pre, post, rfl, ?_⟩
          rwa [List.map_cons, List.getLastD_cons]
    rw [hsplit]
    by_cases hb : key b = k
    · rw [changes_cons_of_eq hb, ih, hb]
      simp
    · rw [changes_cons_of_ne hb, List.mem_cons, ih]
      simp [hb]

/-! ### No key twice -/

theorem grouped_cons_iff : Grouped (k :: l.map key) ↔
    k ∉ (changes key k l).map key ∧ ((changes key k l).map key).Nodup := by
  induction l generalizing k with
  | nil =>
    refine iff_of_true (fun x y hs ↦ ?_) ⟨List.not_mem_nil, List.nodup_nil⟩
    exact absurd hs.length_le (by simp)
  | cons a l ih =>
    by_cases ha : key a = k
    · rw [List.map_cons, ha, grouped_cons_self, changes_cons_of_eq ha, ih]
    · have hmem : k ∈ (changes key (key a) l).map key ↔ k ∈ l.map key :=
        ⟨mem_keys_of_mem_changes, mem_keys_changes_of_ne (Ne.symm ha)⟩
      rw [List.map_cons, grouped_cons_cons ha, ih, changes_cons_of_ne ha, List.map_cons,
        List.mem_cons, List.nodup_cons, hmem, not_or, and_comm, and_congr_left]
      exact fun _ ↦ (and_iff_right (Ne.symm ha)).symm

/-- No key is taken twice exactly if those that are left are grouped. -/
theorem nodup_changes : ((changes key k l).map key).Nodup ↔
    Grouped ((l.dropWhile fun a ↦ decide (key a = k)).map key) := by
  rw [← changes_dropWhile k l]
  rcases hd : l.dropWhile (fun a ↦ decide (key a = k)) with _ | ⟨a, t⟩
  · refine iff_of_true List.nodup_nil fun x y hs ↦ ?_
    exact absurd hs.length_le (by simp)
  · have ha := key_ne_of_dropWhile hd
    rw [changes_cons_of_ne ha, List.map_cons, List.map_cons, List.nodup_cons, grouped_cons_iff]

end Changes

/-! ## Elements in a row -/

variable [DecidableEq α]

/-- How many elements `a` there are at the end of a list, with `n` of them in front of it. -/
def runLength (a : α) (n : Nat) (l : List α) : Nat :=
  l.foldl (fun n b ↦ if b = a then n + 1 else 0) n

theorem runLength_cons (a b : α) (n : Nat) (l : List α) :
    runLength a n (b :: l) = runLength a (if b = a then n + 1 else 0) l := rfl

theorem le_runLength_iff {a : α} {n : Nat} {l : List α} :
    n ≤ runLength a 0 l ↔ List.replicate n a <:+ l := by
  induction l using List.reverseRecOn generalizing n with
  | nil =>
    rw [List.suffix_nil, List.replicate_eq_nil_iff]
    exact Nat.le_zero
  | append_singleton l b ih =>
    have hlast : runLength a 0 (l ++ [b]) = if b = a then runLength a 0 l + 1 else 0 := by
      rw [runLength, List.foldl_append]
      rfl
    rw [hlast]
    rcases n with _ | n
    · exact iff_of_true (Nat.zero_le _) (List.nil_suffix)
    · rw [List.replicate_succ', List.suffix_concat_iff, or_iff_right (by simp)]
      by_cases hb : b = a
      · rw [if_pos hb, hb, Nat.succ_le_succ_iff, ih]
        constructor
        · exact fun h ↦ ⟨_, rfl, h⟩
        · rintro ⟨t, ht, h⟩
          rwa [List.append_cancel_right ht]
      · rw [if_neg hb]
        refine iff_of_false (Nat.not_succ_le_zero n) ?_
        rintro ⟨t, ht, -⟩
        exact hb (List.cons.inj (List.append_inj_right' ht rfl)).1.symm

end Taken
