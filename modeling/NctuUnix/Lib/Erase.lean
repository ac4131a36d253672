import Mathlib.Data.List.Infix
import Mathlib.Logic.Relation

/-!
# Erasing a marker from a text

`find` and `replace` with an empty string, one occurrence at a time, and the loop that goes on until
there is none left.  Erasing may bring the two ends of another marker together, so the loop is not
the same as erasing the occurrences that are there at the start.

What is left does not depend on the order, though, if no end of the marker is a beginning of it:
then two occurrences never share a place, so that one of them can still be erased when the other one
has been.

## Main results

* `all_clean` — the loop leaves no occurrence.
* `cleaned_iff` — it leaves what is left in any order.
-/

set_option autoImplicit false

namespace Erase

variable {α : Type} [DecidableEq α] {pat s t : List α}

/-- `s` without the first occurrence of `pat`; `none` if there is none. -/
def first? (pat : List α) : List α → Option (List α)
  | [] => if pat = [] then some [] else none
  | a :: s =>
    if pat <+: a :: s then some ((a :: s).drop pat.length) else (first? pat s).map (a :: ·)

theorem first?_eq_none : first? pat s = none ↔ ¬ pat <:+: s := by
  induction s with
  | nil => simp [first?]
  | cons a s ih =>
    rw [first?, List.infix_cons_iff]
    split
    · simp [*]
    · simp [*]

theorem length_first? (h : first? pat s = some t) : t.length + pat.length = s.length := by
  induction s generalizing t with
  | nil =>
    rw [first?] at h
    split at h
    · obtain rfl := Option.some.inj h
      simp [*]
    · exact absurd h (by simp)
  | cons a s ih =>
    rw [first?] at h
    split at h
    · rename_i hp
      obtain rfl := Option.some.inj h
      rw [List.length_drop]
      exact Nat.sub_add_cancel hp.length_le
    · obtain ⟨u, hu, rfl⟩ := Option.map_eq_some_iff.1 h
      rw [List.length_cons, List.length_cons, ← ih hu]
      omega

/-- At most `n` rounds of the loop. -/
def rounds (pat : List α) : Nat → List α → List α
  | 0, s => s
  | n + 1, s =>
    match first? pat s with
    | none => s
    | some t => rounds pat n t

/-- The loop: it erases until there is nothing to erase. -/
def all (pat s : List α) : List α := rounds pat s.length s

theorem rounds_clean (hp : pat ≠ []) {n : Nat} (hn : s.length ≤ n) : ¬ pat <:+: rounds pat n s := by
  have hpos : 0 < pat.length := List.length_pos_iff.2 hp
  induction n generalizing s with
  | zero =>
    rw [rounds, List.length_eq_zero_iff.1 (Nat.le_zero.1 hn), List.infix_nil]
    exact hp
  | succ n ih =>
    rw [rounds]
    split
    · exact first?_eq_none.1 ‹_›
    · have hlen := length_first? ‹first? pat s = some _›
      exact ih (by omega)

/-- Nothing is left. -/
theorem all_clean (hp : pat ≠ []) : ¬ pat <:+: all pat s := rounds_clean hp (Nat.le_refl _)

/-- A text without the marker is not changed. -/
theorem all_of_not_infix (h : ¬ pat <:+: s) : all pat s = s := by
  rw [all]
  rcases hs : s.length with _ | n
  · rfl
  · rw [rounds, first?_eq_none.2 h]

omit [DecidableEq α] in
/-- A pattern whose first character is not in `t` is not found before the end of `t`. -/
theorem infix_append_of_head {c : α} {w t : List α} (hc : c ∉ t) :
    c :: w <:+: t ++ s ↔ c :: w <:+: s := by
  induction t with
  | nil => rfl
  | cons a t ih =>
    have ha : c ≠ a ∧ c ∉ t := by simpa using hc
    rw [List.cons_append, List.infix_cons_iff, ih ha.2, or_iff_right]
    exact fun hp ↦ ha.1 (List.cons_prefix_cons.1 hp).1

/-! ## Erasing in any order -/

/-- `t` is `s` without one occurrence of `pat`. -/
def Cut (pat s t : List α) : Prop := ∃ a b, s = a ++ (pat ++ b) ∧ t = a ++ b

/-- `t` is what is left of `s` when occurrences of `pat` have been erased one by one, in any order,
until there was none. -/
structure Cleaned (pat s t : List α) : Prop where
  reached : Relation.ReflTransGen (Cut pat) s t
  clean : ¬ pat <:+: t

/-- No end of `pat` is a beginning of it, apart from nothing and from all of it. -/
def Borderless (pat : List α) : Prop := ∀ y, y <:+ pat → y <+: pat → y = [] ∨ y = pat

omit [DecidableEq α] in
/-- A marker whose first character does not come again is one. -/
theorem borderless_of_head {c : α} {w : List α} (hc : c ∉ w) : Borderless (c :: w) := by
  intro y hsuffix hprefix
  rcases List.suffix_cons_iff.1 hsuffix with hall | htail
  · exact .inr hall
  · rcases y with _ | ⟨d, y⟩
    · exact .inl rfl
    · have hhead : d = c := (List.cons_prefix_cons.1 hprefix).1
      exact absurd (htail.subset List.mem_cons_self) (hhead ▸ hc)

omit [DecidableEq α] in
/-- Two occurrences are the same, or either one can be erased after the other. -/
theorem Borderless.diamond (hp : Borderless pat) {s t u : List α} (ht : Cut pat s t)
    (hu : Cut pat s u) : t = u ∨ ∃ v, Cut pat t v ∧ Cut pat u v := by
  obtain ⟨a, b, rfl, rfl⟩ := ht
  obtain ⟨a', b', heq, rfl⟩ := hu
  -- the occurrence that comes first, with what stands between the two
  have hfirst (a x b b' : List α) (h : pat ++ b = x ++ (pat ++ b')) :
      a ++ b = a ++ x ++ b' ∨ ∃ v, Cut pat (a ++ b) v ∧ Cut pat (a ++ x ++ b') v := by
    rcases List.append_eq_append_iff.1 h with ⟨m, rfl, rfl⟩ | ⟨y, hpat, hrest⟩
    · exact .inr ⟨a ++ m ++ b', ⟨a ++ m, b', by simp, rfl⟩, ⟨a, m ++ b', by simp, by simp⟩⟩
    · have hsuffix : y <:+ pat := ⟨x, hpat.symm⟩
      have hlen : y.length ≤ pat.length := hsuffix.length_le
      have hprefix : y <+: pat :=
        List.prefix_of_prefix_length_le ⟨b, hrest.symm⟩ (List.prefix_append pat b') hlen
      rcases hp y hsuffix hprefix with rfl | rfl
      · obtain rfl : x = pat := by rw [hpat, List.append_nil]
        obtain rfl : b = x ++ b' := by simpa using hrest.symm
        exact .inl (List.append_assoc a x b').symm
      · obtain rfl : x = [] := by simpa using hpat
        obtain rfl : b' = b := by simpa using hrest
        exact .inl (by rw [List.append_nil])
  rcases List.append_eq_append_iff.1 heq with ⟨x, rfl, h⟩ | ⟨x, rfl, h⟩
  · exact hfirst a x b b' h
  · rcases hfirst a' x b' b h with h | ⟨v, hv, hv'⟩
    · exact .inl h.symm
    · exact .inr ⟨v, hv', hv⟩

omit [DecidableEq α] in
theorem not_cut_of_clean (h : ¬ pat <:+: s) : ¬ Cut pat s t := by
  rintro ⟨a, b, rfl, -⟩
  exact h ⟨a, b, List.append_assoc a pat b⟩

omit [DecidableEq α] in
/-- What is left does not depend on the order. -/
theorem Cleaned.unique (hp : Borderless pat) {t' : List α} (h : Cleaned pat s t)
    (h' : Cleaned pat s t') : t = t' := by
  have hjoin : Relation.Join (Relation.ReflTransGen (Cut pat)) t t' := by
    refine Relation.church_rosser (fun a b c hab hac ↦ ?_) h.reached h'.reached
    rcases hp.diamond hab hac with rfl | ⟨d, hbd, hcd⟩
    · exact ⟨b, .refl, .refl⟩
    · exact ⟨d, .single hbd, .single hcd⟩
  obtain ⟨u, ht, ht'⟩ := hjoin
  have hstays {x : List α} (hx : ¬ pat <:+: x) (hxu : Relation.ReflTransGen (Cut pat) x u) :
      x = u := by
    rcases Relation.ReflTransGen.cases_head hxu with hxu | ⟨y, hxy, -⟩
    · exact hxu
    · exact absurd hxy (not_cut_of_clean hx)
  rw [hstays h.clean ht, hstays h'.clean ht']

theorem cut_first? (h : first? pat s = some t) : Cut pat s t := by
  induction s generalizing t with
  | nil =>
    rw [first?] at h
    split at h
    · rename_i hp
      exact ⟨[], [], by rw [hp]; rfl, (Option.some.inj h).symm⟩
    · exact absurd h (by simp)
  | cons a s ih =>
    rw [first?] at h
    split at h
    · rename_i hp
      obtain ⟨b, hb⟩ := hp
      refine ⟨[], b, hb.symm, ?_⟩
      rw [← Option.some.inj h, ← hb, List.drop_left]
      rfl
    · obtain ⟨u, hu, rfl⟩ := Option.map_eq_some_iff.1 h
      obtain ⟨x, b, rfl, rfl⟩ := ih hu
      exact ⟨a :: x, b, rfl, rfl⟩

/-- The loop erases one by one. -/
theorem cleaned_all (hp : pat ≠ []) (s : List α) : Cleaned pat s (all pat s) := by
  refine ⟨?_, all_clean hp⟩
  have hrounds (n : Nat) : ∀ s : List α, Relation.ReflTransGen (Cut pat) s (rounds pat n s) := by
    induction n with
    | zero => exact fun _ ↦ .refl
    | succ n ih =>
      intro s
      rw [rounds]
      split
      · exact .refl
      · exact .head (cut_first? ‹first? pat s = some _›) (ih _)
  exact hrounds s.length s

/-- **The loop and the order.**  What the loop leaves is what is left in any order. -/
theorem cleaned_iff (hp : pat ≠ []) (hb : Borderless pat) : Cleaned pat s t ↔ t = all pat s :=
  ⟨fun h ↦ h.unique hb (cleaned_all hp s), fun h ↦ h ▸ cleaned_all hp s⟩

end Erase
