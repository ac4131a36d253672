import Mathlib.Data.List.Basic
import Mathlib.Order.Basic

/-!
# Runs of a labelled transition system

A system is a relation `step : S → L → S → Prop`; a *run* is a finite chain of steps.  Most of the
statements made about a program hold only on the runs whose steps respect some condition on the
state a step starts from and on its label, so the condition is part of the definition:
`Run step ok s₀ s` says that `s` is reached from `s₀` by steps that are all `ok`.

`Run.invariant` is the one induction on runs that the invariants of a system are derived from.

Where a run is given by the list of what happens in it, `EachTime P` says that `P` holds of every
event, given the ones before it; `eachTime_concat` is for the induction on such a list.
-/

set_option autoImplicit false

namespace Transition

variable {S L : Type*}

/-- `s` is reached from `s₀` by finitely many steps, each of them taken where `ok` allows it. -/
inductive Run (step : S → L → S → Prop) (ok : S → L → Prop) (s₀ : S) : S → Prop
  | nil : Run step ok s₀ s₀
  | snoc {s s' : S} {l : L} (h : Run step ok s₀ s) (hok : ok s l) (hs : step s l s') :
      Run step ok s₀ s'

variable {step : S → L → S → Prop} {ok ok' : S → L → Prop} {s₀ s : S}

/-- A weaker condition on the steps has more runs. -/
theorem Run.mono (hok : ∀ s l, ok s l → ok' s l) (h : Run step ok s₀ s) : Run step ok' s₀ s := by
  induction h with
  | nil => exact .nil
  | snoc _ ho hs ih => exact .snoc ih (hok _ _ ho) hs

/-- **The invariant rule.**  What holds at the start and is kept by every step that is allowed
holds wherever a run gets. -/
theorem Run.invariant {I : S → Prop} (h : Run step ok s₀ s) (h₀ : I s₀)
    (hstep : ∀ s l s', I s → ok s l → step s l s' → I s') : I s := by
  induction h with
  | nil => exact h₀
  | snoc _ ho hs ih => exact hstep _ _ _ ih ho hs

/-- Runs compose. -/
theorem Run.trans {s₁ s₂ : S} (h : Run step ok s₀ s₁) (h' : Run step ok s₁ s₂) :
    Run step ok s₀ s₂ := by
  induction h' with
  | nil => exact h
  | snoc _ ho hs ih => exact .snoc ih ho hs

/-! ## Lists of events -/

variable {α : Type*} {P : List α → α → Prop} {l : List α} {a : α}

/-- `P` holds of every element, given those in front of it. -/
def EachTime (P : List α → α → Prop) (l : List α) : Prop :=
  ∀ before a after, l = before ++ a :: after → P before a

theorem eachTime_nil : EachTime P [] := fun _ _ _ h ↦ absurd h (by simp)

theorem eachTime_concat : EachTime P (l ++ [a]) ↔ EachTime P l ∧ P l a := by
  refine ⟨fun h ↦ ⟨fun before b after heq ↦ ?_, h l a [] rfl⟩, fun h before b after heq ↦ ?_⟩
  · exact h before b (after ++ [a]) (by rw [heq, List.append_assoc, List.cons_append])
  · rcases List.eq_nil_or_concat after with rfl | ⟨after, c, rfl⟩
    · obtain ⟨rfl, hab⟩ := List.append_inj' heq rfl
      obtain rfl := (List.cons.inj hab).1
      exact h.2
    · have heq' : l ++ [a] = (before ++ b :: after) ++ [c] := by rw [heq]; simp
      exact h.1 before b after (List.append_inj' heq' rfl).1

end Transition
