import Mathlib.Data.List.Nodup
import Mathlib.Logic.Function.Basic

/-!
# Marks that are taken back block by block

A map is marked at some points, one after the other, and before each mark a copy is made of what is
there.  When a mark is taken back it is not the point alone that is written, but a whole block
around it, as it was when the copy was made.  So a block may carry older marks along, and write them
again after they have been taken back.

`cover a x` says that `x` is in the block of `a`.

## Main results

* `undo_marked_iff` — all marks are taken back and the map is what it was, if and only if the block
  that is written last over a point is never one of a later mark (`InOrder`).
* `inOrder_reverse` — the last mark first is such an order, whatever the blocks are.
-/

set_option autoImplicit false

namespace Undo

/-- A point that is marked, and the map as it was before. -/
structure Saved (α β : Type*) where
  point : α
  old : α → β

variable {α β : Type*} {v : β} {as ds : List α} {m : α → β} {e : Saved α β} {es : List (Saved α β)}
  {x : α}

/-! ## Blocks that are written back -/

section

variable (cover : α → α → Prop) [∀ a, DecidablePred (cover a)]

/-- A block is written back. -/
def putBack (e : Saved α β) (m : α → β) : α → β :=
  fun x ↦ if cover e.point x then e.old x else m x

/-- Blocks are written back, one after the other. -/
def undo (es : List (Saved α β)) (m : α → β) : α → β := es.foldl (fun m e ↦ putBack cover e m) m

variable {cover}

theorem undo_of_notCovered (h : ∀ e ∈ es, ¬ cover e.point x) : undo cover es m x = m x := by
  induction es generalizing m with
  | nil => rfl
  | cons e es ih =>
    rw [List.forall_mem_cons] at h
    rw [undo, List.foldl_cons, ← undo, ih h.2, putBack, if_neg h.1]

/-- The last block decides. -/
theorem undo_of_last {before after : List (Saved α β)} (hc : cover e.point x)
    (h : ∀ e' ∈ after, ¬ cover e'.point x) : undo cover (before ++ e :: after) m x = e.old x := by
  rw [undo, List.foldl_append, List.foldl_cons, ← undo, ← undo, undo_of_notCovered h, putBack,
    if_pos hc]

end

/-- Where something happens in a list there is a last time. -/
theorem exists_last {γ : Type*} {p : γ → Prop} [DecidablePred p] {l : List γ} (h : ∃ c ∈ l, p c) :
    ∃ before c after, l = before ++ c :: after ∧ p c ∧ ∀ c' ∈ after, ¬ p c' := by
  induction l with
  | nil =>
    obtain ⟨c, hc, -⟩ := h
    exact absurd hc List.not_mem_nil
  | cons c l ih =>
    by_cases hl : ∃ c' ∈ l, p c'
    · obtain ⟨before, d, after, rfl, hd, hafter⟩ := ih hl
      exact ⟨c :: before, d, after, rfl, hd, hafter⟩
    · refine ⟨[], c, l, rfl, ?_, fun c' hc' hp ↦ hl ⟨c', hc', hp⟩⟩
      obtain ⟨c', hc', hp⟩ := h
      rcases List.mem_cons.1 hc' with rfl | hc'
      · exact hp
      · exact absurd ⟨c', hc', hp⟩ hl

/-! ## Marks -/

variable [DecidableEq α]

/-- The map with `v` at some points. -/
def marked (v : β) (as : List α) (m : α → β) : α → β :=
  as.foldl (fun m a ↦ Function.update m a v) m

/-- What is kept of the map on the way. -/
def saves (v : β) : List α → (α → β) → List (Saved α β)
  | [], _ => []
  | a :: as, m => ⟨a, m⟩ :: saves v as (Function.update m a v)

theorem marked_apply_of_notMem (hx : x ∉ as) (m : α → β) : marked v as m x = m x := by
  induction as generalizing m with
  | nil => rfl
  | cons a as ih =>
    rw [List.mem_cons, not_or] at hx
    rw [marked, List.foldl_cons, ← marked, ih hx.2, Function.update_of_ne hx.1]

theorem map_point_saves (as : List α) (m : α → β) : (saves v as m).map Saved.point = as := by
  induction as generalizing m with
  | nil => rfl
  | cons a as ih => rw [saves, List.map_cons, ih]

/-- The copy of a point has the marks that were there before it, and no others. -/
theorem old_eq (hn : as.Nodup) (he : e ∈ saves v as m) :
    e.old x = if as.idxOf x < as.idxOf e.point then v else m x := by
  induction as generalizing m with
  | nil => exact absurd he List.not_mem_nil
  | cons a as ih =>
    rw [List.nodup_cons] at hn
    rcases List.mem_cons.1 he with rfl | he
    · rw [List.idxOf_cons_self, if_neg (Nat.not_lt_zero _)]
    · have hp : e.point ∈ as := by
        rw [← map_point_saves (v := v) as (Function.update m a v)]
        exact List.mem_map_of_mem he
      have hne : e.point ≠ a := fun h ↦ hn.1 (h ▸ hp)
      rw [ih hn.2 he, List.idxOf_cons_ne _ hne.symm]
      by_cases hx : x = a
      · subst hx
        have hend : as.idxOf x = as.length := List.idxOf_eq_length_iff.2 hn.1
        have hlt : as.idxOf e.point < as.length := List.idxOf_lt_length_iff.2 hp
        rw [if_neg (by omega), Function.update_self, List.idxOf_cons_self,
          if_pos (Nat.succ_pos _)]
      · rw [List.idxOf_cons_ne _ (Ne.symm hx), Function.update_of_ne hx]
        simp only [Nat.succ_lt_succ_iff]

/-! ## Taking the marks back -/

/-- The block that is written last over a point of `as`, when `ds` are taken back in this order, is
that of a point which was marked no later. -/
def InOrder (cover : α → α → Prop) (as ds : List α) : Prop :=
  ∀ before d after, ds = before ++ d :: after → ∀ a ∈ as, cover d a →
    (∀ d' ∈ after, ¬ cover d' a) → as.idxOf d ≤ as.idxOf a

variable {cover : α → α → Prop}

/-- **The last mark first** is in order. -/
theorem inOrder_reverse (hself : ∀ a, cover a a) : InOrder cover as as.reverse := by
  intro before d after hds a ha hc hlast
  have has : as = after.reverse ++ d :: before.reverse := by
    rw [← List.reverse_reverse as, hds]
    simp
  have hnot : a ∉ after.reverse := fun h ↦ hlast a (List.mem_reverse.1 h) (hself a)
  rw [has, List.idxOf_append_of_notMem hnot]
  by_cases hd : d ∈ after.reverse
  · have hlt : after.reverse.idxOf d < after.reverse.length := List.idxOf_lt_length_iff.2 hd
    rw [List.idxOf_append_of_mem hd]
    omega
  · rw [List.idxOf_append_of_notMem hd, List.idxOf_cons_self]
    exact Nat.add_le_add_left (Nat.zero_le _) _

/-- **When everything is taken back.**  The marks are new, and each is in its own block. -/
theorem undo_marked_iff [∀ a, DecidablePred (cover a)] (hn : as.Nodup) (hv : ∀ a ∈ as, m a ≠ v)
    (hself : ∀ a, cover a a) (hp : es.Perm (saves v as m)) :
    undo cover es (marked v as m) = m ↔ InOrder cover as (es.map Saved.point) := by
  have hold : ∀ e ∈ es, ∀ x, e.old x = if as.idxOf x < as.idxOf e.point then v else m x :=
    fun e he x ↦ old_eq hn (hp.subset he)
  constructor
  · intro h before d after hds a ha hc hlast
    obtain ⟨es₁, es', rfl, -, hes'⟩ := List.map_eq_append_iff.1 hds
    obtain ⟨e, es₂, rfl, rfl, rfl⟩ := List.map_eq_cons_iff.1 hes'
    have hx := congrFun h a
    rw [undo_of_last hc fun e' he' ↦ hlast _ (List.mem_map_of_mem he'), hold e (by simp)] at hx
    by_contra hlt
    rw [if_pos (Nat.lt_of_not_le hlt)] at hx
    exact hv a ha hx.symm
  · intro h
    funext x
    by_cases hx : ∃ e ∈ es, cover e.point x
    · -- the last block over `x` has no mark there, since all marks it has are older
      obtain ⟨before, e, after, rfl, hc, hlast⟩ := exists_last hx
      rw [undo_of_last hc hlast, hold e (by simp), if_neg]
      intro hlt
      have hxa : x ∈ as :=
        List.idxOf_lt_length_iff.1 (Nat.lt_of_lt_of_le hlt List.idxOf_le_length)
      have hle := h (before.map Saved.point) e.point (after.map Saved.point) (by simp) x hxa hc
        fun d' hd' ↦ by
          obtain ⟨e', he', rfl⟩ := List.mem_map.1 hd'
          exact hlast e' he'
      omega
    · rw [not_exists] at hx
      rw [undo_of_notCovered fun e he hc ↦ hx e ⟨he, hc⟩, marked_apply_of_notMem]
      intro hxa
      rw [← map_point_saves (v := v) as m] at hxa
      obtain ⟨e, he, rfl⟩ := List.mem_map.1 hxa
      exact hx e ⟨hp.symm.subset he, hself _⟩

end Undo
