import Mathlib.Computability.StateTransition

/-!
# Listings

A program that is a list of instructions with labels between them.  A machine is in front of one of
the instructions, or behind the last one, where it stops.  What an instruction does is a parameter:
it gives the new state and says where to go on, or nothing when it cannot be executed.

`Reaches` is the relation of `StateTransition` for such a machine.

## Main results

* `reaches_next`, `reaches_to`, `reaches_jump` — one instruction.
* `reaches_block` — some of them in a row.
* `reaches_end_iff` — a program without jumps.
* `Reaches.invariant` — what every instruction keeps.
* `Reaches.final_unique` — a program stops in one state.
-/

set_option autoImplicit false

namespace Listing

variable {ι L σ : Type}

/-- A line of a listing. -/
inductive Line (ι L : Type)
  | label (l : L)
  | ins (i : ι)

/-- The instructions of a listing. -/
def code : List (Line ι L) → List ι
  | [] => []
  | .label _ :: p => code p
  | .ins i :: p => i :: code p

/-- How many instructions stand in front of a label. -/
def place [DecidableEq L] (l : L) : List (Line ι L) → ℕ
  | [] => 0
  | .label l' :: p => if l' = l then 0 else place l p
  | .ins _ :: p => place l p + 1

/-- Where it goes on behind an instruction. -/
inductive Go (L : Type)
  | next
  | to (l : L)
  deriving DecidableEq, Repr

/-- The number of the instruction it goes on with, behind number `k`. -/
def Go.target [DecidableEq L] (p : List (Line ι L)) (k : ℕ) : Go L → ℕ
  | .next => k + 1
  | .to l => place l p

/-- A machine in front of instruction number `pos`. -/
structure At (σ : Type) where
  state : σ
  pos : ℕ

variable [DecidableEq L] (exec : ι → σ → Option (σ × Go L)) (p : List (Line ι L))

/-- One instruction; `none` where there is none, or where it cannot be executed. -/
def step (s : At σ) : Option (At σ) :=
  (code p)[s.pos]?.bind fun i ↦ (exec i s.state).map fun r ↦ ⟨r.1, r.2.target p s.pos⟩

/-- The machine gets from `s` to `s'`. -/
abbrev Reaches (s s' : At σ) : Prop := StateTransition.Reaches (step exec p) s s'

variable {exec p} {i : ι} {c c' : σ} {k : ℕ} {s s' s'' : At σ}

theorem step_eq {g : Go L} (h : (code p)[k]? = some i) (he : exec i c = some (c', g)) :
    step exec p ⟨c, k⟩ = some ⟨c', g.target p k⟩ := by
  rw [step, h, Option.bind_some, he]
  rfl

/-- **One instruction.** -/
theorem reaches_jump {g : Go L} (h : (code p)[k]? = some i) (he : exec i c = some (c', g)) :
    Reaches exec p ⟨c, k⟩ ⟨c', g.target p k⟩ :=
  .single (step_eq h he)

theorem reaches_next (h : (code p)[k]? = some i) (he : exec i c = some (c', .next)) :
    Reaches exec p ⟨c, k⟩ ⟨c', k + 1⟩ := reaches_jump h he

theorem reaches_to {l : L} (h : (code p)[k]? = some i) (he : exec i c = some (c', .to l)) :
    Reaches exec p ⟨c, k⟩ ⟨c', place l p⟩ := reaches_jump h he

/-- Instructions in a row, each of which goes on with the next one. -/
def block (exec : ι → σ → Option (σ × Go L)) : List ι → σ → Option σ
  | [], c => some c
  | i :: is, c => (exec i c).bind fun r ↦ if r.2 = .next then block exec is r.1 else none

/-- **Instructions in a row.** -/
theorem reaches_block {is : List ι} (h : ((code p).drop k).take is.length = is)
    (he : block exec is c = some c') : Reaches exec p ⟨c, k⟩ ⟨c', k + is.length⟩ := by
  induction is generalizing c k with
  | nil =>
    obtain rfl := Option.some.inj he
    exact .refl
  | cons i is ih =>
    rw [block, Option.bind_eq_some_iff] at he
    obtain ⟨⟨c₁, g⟩, h₁, h₂⟩ := he
    rcases hrest : (code p).drop k with _ | ⟨i', rest⟩
    · rw [hrest] at h
      exact absurd h (by simp)
    · rw [hrest, List.length_cons, List.take_succ_cons, List.cons.injEq] at h
      obtain ⟨rfl, htake⟩ := h
      have hi : (code p)[k]? = some i' := by
        rw [← List.head?_drop, hrest, List.head?_cons]
      have hdrop : (code p).drop (k + 1) = rest := by
        rw [← List.tail_drop, hrest, List.tail_cons]
      split at h₂
      · rename_i hg
        obtain rfl : g = .next := hg
        have hlen : k + (i' :: is).length = k + 1 + is.length := by
          rw [List.length_cons]
          omega
        rw [hlen]
        exact (reaches_next hi h₁).trans (ih (by rw [hdrop, htake]) h₂)
      · exact absurd h₂ (by simp)

/-- **What every instruction keeps** holds of all that is reached. -/
theorem Reaches.invariant {I : At σ → Prop} (h : Reaches exec p s s') (h₀ : I s)
    (hstep : ∀ t t', I t → step exec p t = some t' → I t') : I s' := by
  induction h with
  | refl => exact h₀
  | tail _ ht ih => exact hstep _ _ ih ht

/-- An instruction that has been executed. -/
theorem exec_of_step (hs : step exec p s = some s') : ∃ i c' g, (code p)[s.pos]? = some i ∧
    exec i s.state = some (c', g) ∧ s' = ⟨c', g.target p s.pos⟩ := by
  rw [step, Option.bind_eq_some_iff] at hs
  obtain ⟨i, hi, hs⟩ := hs
  obtain ⟨⟨c', g⟩, he, rfl⟩ := Option.map_eq_some_iff.1 hs
  exact ⟨i, c', g, hi, he, rfl⟩

theorem step_end : step exec p ⟨c, (code p).length⟩ = none := by
  rw [step, List.getElem?_eq_none le_rfl, Option.bind_none]

/-- **A program stops in one state**, where it stops. -/
theorem Reaches.final_unique (h : Reaches exec p s s') (h' : Reaches exec p s s'')
    (hs : step exec p s' = none) (hs' : step exec p s'' = none) : s' = s'' :=
  have hfinal : s'' ∈ StateTransition.eval (step exec p) s := StateTransition.mem_eval.2 ⟨h', hs'⟩
  Part.mem_unique (StateTransition.mem_eval.2 ⟨h, hs⟩) hfinal

/-! ## Programs without jumps -/

/-- No instruction jumps. -/
def Straight (exec : ι → σ → Option (σ × Go L)) (is : List ι) : Prop :=
  ∀ i ∈ is, ∀ c r, exec i c = some r → r.2 = .next

theorem block_append (is js : List ι) (c : σ) :
    block exec (is ++ js) c = (block exec is c).bind (block exec js) := by
  induction is generalizing c with
  | nil => rfl
  | cons i is ih =>
    rw [List.cons_append, block, block]
    cases hi : exec i c with
    | none => rfl
    | some r =>
      rw [Option.bind_some, Option.bind_some]
      split
      · exact ih r.1
      · rfl

/-- **A program without jumps** comes to its end if and only if its instructions can be executed in
a row. -/
theorem reaches_end_iff (h : Straight exec (code p)) :
    Reaches exec p ⟨c, 0⟩ ⟨c', (code p).length⟩ ↔ block exec (code p) c = some c' := by
  constructor
  · intro hreach
    have hinv : block exec ((code p).drop (code p).length) c' = block exec (code p) c := by
      refine hreach.invariant (I := fun t ↦
        block exec ((code p).drop t.pos) t.state = block exec (code p) c) rfl fun t t' ht hs ↦ ?_
      obtain ⟨i, d, g, hi, he, rfl⟩ := exec_of_step hs
      obtain ⟨hlt, hget⟩ := List.getElem?_eq_some_iff.1 hi
      obtain rfl : g = .next := h i (List.mem_of_getElem? hi) _ _ he
      rw [List.drop_eq_getElem_cons hlt, hget, block, he, Option.bind_some, if_pos rfl] at ht
      exact ht
    rw [List.drop_length] at hinv
    exact hinv.symm
  · intro hblock
    have hreach := reaches_block (p := p) (k := 0) (by rw [List.drop_zero, List.take_length]) hblock
    rwa [Nat.zero_add] at hreach

end Listing
