import Mathlib.Data.List.Infix
import NctuUnix.Lib.CString

/-!
# What is left in a buffer

A program reads the targets of links into one buffer, one after the other.  `readlink` puts no null
byte behind them, so the string in the buffer goes on with what is left there, and `dirname`, which
writes a null byte of its own, takes the name of the directory from all of it.

What can be read from a byte of the buffer on is its `view`, and `behind` says what becomes of that
with the next link.  A link is told apart from what is left if no slash stands behind it.

## Main results

* `view_overwrite`, `view_set_nul` — what a write does to the view.
* `dirOf_append_eq_iff` — the directory of a link is the one that is taken exactly if there is no
  slash in what stands behind it.
* `Clean.behind` — in a buffer that only links are read into, a name follows every slash.
-/

set_option autoImplicit false

namespace Leftover

open Input CString

variable {t rest dir link array : Text} {n i k : Nat}

/-! ## What can be read

Both ways to change the array are local: a text is written over its beginning, or a null byte is put
somewhere.  The view changes accordingly, and does not have to be taken apart any further.
-/

/-- The string that can be read from byte `n` of an array on. -/
def view (array : Text) (n : Nat) : Text := cstr (array.drop n)

/-- A text that starts at byte `n`, ended at byte `i`. -/
def clip (n i : Nat) (t : Text) : Text := if n ≤ i then t.take (i - n) else t

/-- A string has no null byte in it. -/
theorem nul_notMem_cstr : nul ∉ cstr t := fun h ↦ by
  simpa using List.mem_takeWhile_imp h

/-- A null byte ends the string, if it has not ended before. -/
theorem cstr_set_nul (array : Text) : ∀ i, cstr (array.set i nul) = (cstr array).take i := by
  induction array with
  | nil => exact fun i ↦ (List.take_nil).symm
  | cons c array ih =>
    rintro (_ | i)
    · rw [List.set_cons_zero, cstr_nul, List.take_zero]
    · rw [List.set_cons_succ]
      by_cases hc : c = nul
      · rw [hc, cstr_nul, cstr_nul, List.take_nil]
      · have hcons (l : Text) : cstr (c :: l) = c :: cstr l :=
          List.takeWhile_cons_of_pos (by simpa using hc)
        rw [hcons, hcons, ih, List.take_succ_cons]

/-- **A null byte** that is put at byte `i`. -/
theorem view_set_nul : view (array.set i nul) n = clip n i (view array n) := by
  rw [view, List.drop_set, clip]
  by_cases h : n ≤ i
  · rw [if_neg (by omega), if_pos h, cstr_set_nul, view]
  · rw [if_pos (by omega), if_neg h, view]

/-- Of two null bytes the first one counts. -/
theorem clip_comm {j : Nat} : clip n i (clip n j t) = clip n j (clip n i t) := by
  simp only [clip]
  split
  · split
    · rw [List.take_take, List.take_take, Nat.min_comm]
    · rfl
  · rfl

/-- **A text** that is written over the beginning, and runs into what was there. -/
theorem view_overwrite (h : nul ∉ t) : view (overwrite t array) n =
    if n ≤ t.length then t.drop n ++ view array t.length else view array n := by
  rw [view, overwrite, List.drop_append]
  by_cases hn : n ≤ t.length
  · rw [if_pos hn, Nat.sub_eq_zero_of_le hn, List.drop_zero,
      cstr_append fun hm ↦ h (List.mem_of_mem_drop hm), view]
  · rw [if_neg hn, List.drop_of_length_le (by omega), List.nil_append, List.drop_drop,
      Nat.add_sub_cancel' (by omega), view]

/-- Further on in the same string. -/
theorem view_add (h : k ≤ (view array n).length) : view array (n + k) = (view array n).drop k := by
  have hsplit : view array n ++ (array.drop n).dropWhile (· != nul) = array.drop n :=
    List.takeWhile_append_dropWhile
  have hend : cstr ((array.drop n).dropWhile (· != nul)) = [] := by
    rcases hd : (array.drop n).dropWhile (· != nul) with _ | ⟨c, post⟩
    · rfl
    · have hstop := stops_of_dropWhile hd
      rw [show c = nul by simpa using hstop, cstr_nul]
  have hplain : nul ∉ (view array n).drop k := fun hm ↦
    nul_notMem_cstr (List.mem_of_mem_drop hm)
  calc view array (n + k) = cstr ((array.drop n).drop k) := by rw [view, List.drop_drop]
    _ = cstr ((view array n).drop k ++ (array.drop n).dropWhile (· != nul)) := by
      rw [← hsplit, List.drop_append_of_le_length h, hsplit]
    _ = (view array n).drop k := by rw [cstr_append hplain, hend, List.append_nil]

/-! ## Directories

`dirname` cuts the name off behind the last slash, and then the slashes there.  For a path on which
a name follows every slash there is only one of them, and the directory is what stands in front of
it (`dirOf_split`).  So if a slash is left behind a link, the whole link belongs to the directory.
-/

/-- The name `dirname` takes from a path. -/
def dirOf (path : Text) : Text := (dirnamePrefix path).getD ".".toList

/-- A name follows every slash. -/
def Named (t : Text) : Prop :=
  ∀ s ∈ t.tails, s.head? = some '/' → s[1]?.any (· != '/') = true

instance (t : Text) : Decidable (Named t) := List.decidableBAll _ _

/-- The target of a link: an absolute path, or a name of something that has none. -/
structure Target (t : Text) : Prop where
  plain : nul ∉ t
  nonempty : t ≠ []
  notDot : t ≠ ".".toList
  absolute : '/' ∈ t → t.head? = some '/'
  named : t = "/".toList ∨ Named t

instance (t : Text) : Decidable (Target t) :=
  decidable_of_iff (nul ∉ t ∧ t ≠ [] ∧ t ≠ ".".toList ∧ ('/' ∈ t → t.head? = some '/') ∧
      (t = "/".toList ∨ Named t))
    ⟨fun h ↦ ⟨h.1, h.2.1, h.2.2.1, h.2.2.2.1, h.2.2.2.2⟩,
      fun h ↦ ⟨h.plain, h.nonempty, h.notDot, h.absolute, h.named⟩⟩

/-- The name behind a slash. -/
theorem Named.after {pre post : Text} (h : Named (pre ++ '/' :: post)) :
    ∃ c rest, post = c :: rest ∧ c ≠ '/' := by
  have hnext := h ('/' :: post) ((List.mem_tails _ _).2 (List.suffix_append pre _)) rfl
  rcases post with _ | ⟨c, rest⟩
  · exact absurd hnext (by simp)
  · exact ⟨c, rest, rfl, by simpa using hnext⟩

/-- What `dirname` does to a path, from the part `u` of it that its parent is taken from. -/
theorem dirnamePrefix_cases (h : dirnamePrefix t = some dir) : ∃ u, u <+: t ∧
    (u.rdropWhile (· == '/') = dir ∧ dir ≠ [] ∨
      u.rdropWhile (· == '/') = [] ∧ dir = u.take (if u.length = 2 then 2 else 1)) := by
  -- both forms of `u` are beginnings of the path
  have hut : (if (t.rdropWhile (· == '/')).isEmpty then t
      else (t.rdropWhile (· == '/')).rdropWhile (· != '/')) <+: t := by
    split
    · exact List.prefix_rfl
    · exact (List.rdropWhile_prefix _ _).trans (List.rdropWhile_prefix _ _)
  rw [dirnamePrefix] at h
  refine ⟨_, hut, ?_⟩
  generalize (if (t.rdropWhile (· == '/')).isEmpty then t
    else (t.rdropWhile (· == '/')).rdropWhile (· != '/')) = u at h ⊢
  split at h
  · exact absurd h (by simp)
  · split at h
    · rename_i hq
      exact .inr ⟨List.isEmpty_iff.1 hq, (Option.some.inj h).symm⟩
    · rename_i hq
      have hdir := Option.some.inj h
      exact .inl ⟨hdir, fun hnil ↦ hq (by rw [hdir, hnil]; rfl)⟩

/-- `dirname` only shortens a path. -/
theorem dirnamePrefix_prefix (h : dirnamePrefix t = some dir) : dir <+: t := by
  obtain ⟨u, hut, ⟨rfl, -⟩ | ⟨-, rfl⟩⟩ := dirnamePrefix_cases h
  · exact (List.rdropWhile_prefix _ u).trans hut
  · exact (List.take_prefix _ u).trans hut

/-- What `dirname` leaves does not end with a slash, but for a root. -/
theorem getLast?_of_dirnamePrefix (h : dirnamePrefix t = some dir) (hlen : 2 ≤ dir.length)
    (ht : t.take 2 ≠ "//".toList) : dir.getLast? ≠ some '/' := by
  obtain ⟨u, hut, ⟨rfl, hne⟩ | ⟨hslash, rfl⟩⟩ := dirnamePrefix_cases h
  · intro hlast
    have hstop := List.rdropWhile_last_not (· == '/') u hne
    rw [List.getLast?_eq_getLast_of_ne_nil hne, Option.some_inj] at hlast
    exact hstop (by simp [hlast])
  · exfalso
    by_cases htwo : u.length = 2
    · -- two slashes and nothing in front of the name
      have hall : ∀ c ∈ u, c = '/' := by simpa using List.rdropWhile_eq_nil_iff.1 hslash
      obtain ⟨a, b, rfl⟩ := List.length_eq_two.1 htwo
      obtain ⟨post, rfl⟩ := hut
      rw [hall a (by simp), hall b (by simp)] at ht
      exact ht rfl
    · rw [if_neg htwo] at hlen
      have hle := List.length_take_le 1 u
      omega

/-! ### The last slash -/

variable {a b : Text}

/-- A text, split at its last slash. -/
theorem exists_last_slash (h : '/' ∈ t) : ∃ a b, t = a ++ '/' :: b ∧ '/' ∉ b := by
  obtain ⟨b, a, hsplit, hb⟩ := List.eq_append_cons_of_mem (List.mem_reverse.2 h)
  refine ⟨a.reverse, b.reverse, ?_, by simpa using hb⟩
  rw [← List.reverse_reverse t, hsplit, List.reverse_append, List.reverse_cons, List.append_assoc]
  rfl

/-- What stands on both sides of a slash. -/
theorem Named.around (h : Named (a ++ '/' :: b)) : b ≠ [] ∧ a.getLast? ≠ some '/' := by
  constructor
  · obtain ⟨c, rest, rfl, -⟩ := h.after
    exact List.cons_ne_nil _ _
  · intro hlast
    obtain ⟨a, rfl⟩ := List.getLast?_eq_some_iff.1 hlast
    rw [List.append_assoc] at h
    obtain ⟨c, rest, heq, hc⟩ := h.after
    exact hc (List.cons.inj heq).1.symm

/-- A target has no slash, or its last one stands between a directory and a name, or it is the root.
-/
theorem Target.last_slash (h : Target t) : '/' ∉ t ∨ ∃ a b, t = a ++ '/' :: b ∧ '/' ∉ b ∧
    (a = [] ∨ b ≠ [] ∧ a.getLast? ≠ some '/') := by
  by_cases hslash : '/' ∈ t
  · obtain ⟨a, b, rfl, hb⟩ := exists_last_slash hslash
    refine .inr ⟨a, b, rfl, hb, ?_⟩
    rcases h.named with hroot | hnamed
    · have hlen := congrArg List.length hroot
      rw [List.length_append, List.length_cons] at hlen
      exact .inl (List.length_eq_zero_iff.1 (by have : "/".toList.length = 1 := rfl; omega))
    · exact .inr hnamed.around
  · exact .inl hslash

/-- What is behind a link does not make it the directory of a plain name. -/
theorem Target.append_ne_dot (h : Target t) : t ++ a ≠ ".".toList := by
  intro hdot
  rcases List.append_eq_cons_iff.1 hdot with ⟨hnil, -⟩ | ⟨l, hl, hnil⟩
  · exact h.nonempty hnil
  · rw [(List.append_eq_nil_iff.1 hnil.symm).1] at hl
    exact h.notDot hl

/-- The directory of a plain name. -/
theorem dirOf_of_notMem (h : '/' ∉ t) : dirOf t = ".".toList := by
  have hself : t.rdropWhile (· == '/') = t :=
    List.rdropWhile_eq_self_iff.2 fun hne hlast ↦
      h (by simpa using beq_iff_eq.1 hlast ▸ List.getLast_mem hne)
  have hnil : t.rdropWhile (· != '/') = [] :=
    List.rdropWhile_eq_nil_iff.2 fun c hc ↦ bne_iff_ne.2 fun he ↦ h (he ▸ hc)
  rw [dirOf, dirnamePrefix, hself, hnil]
  by_cases ht : t.isEmpty
  · rw [if_pos ht, List.isEmpty_iff.1 ht]
    rfl
  · rw [if_neg ht]
    rfl

/-- What is left in front of the last slash. -/
theorem rdropWhile_last_slash (hb : '/' ∉ b) :
    (a ++ '/' :: b).rdropWhile (· != '/') = a ++ ['/'] := by
  have hplain : ∀ c ∈ b.reverse, (c != '/') = true := fun c hc ↦
    bne_iff_ne.2 fun he ↦ hb (he ▸ List.mem_reverse.1 hc)
  rw [List.rdropWhile, List.reverse_append, List.reverse_cons, List.append_assoc,
    List.dropWhile_append_of_pos hplain, List.singleton_append,
    List.dropWhile_cons_of_neg (by simp), List.reverse_cons, List.reverse_reverse]

/-- The directory of a path that is split at its last slash. -/
theorem dirOf_split (hb : '/' ∉ b) (h : a = [] ∨ b ≠ [] ∧ a.getLast? ≠ some '/') :
    dirOf (a ++ '/' :: b) = if a = [] then "/".toList else a := by
  by_cases hnil : b = []
  · have ha : a = [] := h.resolve_right fun hr ↦ hr.1 hnil
    rw [hnil, ha]
    rfl
  · -- the path ends with a name
    have hself : (a ++ '/' :: b).rdropWhile (· == '/') = a ++ '/' :: b := by
      refine List.rdropWhile_eq_self_iff.2 fun hne hlast ↦ hb ?_
      rw [List.getLast_append_of_ne_nil hne (List.cons_ne_nil _ _), List.getLast_cons hnil] at hlast
      exact beq_iff_eq.1 hlast ▸ List.getLast_mem hnil
    have hne : ¬ (a ++ '/' :: b).isEmpty = true := by simp
    rw [dirOf, dirnamePrefix, hself, if_neg hne, rdropWhile_last_slash hb,
      List.rdropWhile_concat_pos _ _ _ (by simp)]
    by_cases ha : a = []
    · rw [ha]
      rfl
    · have hlast := (h.resolve_left ha).2
      have hkeep : a.rdropWhile (· == '/') = a :=
        List.rdropWhile_eq_self_iff.2 fun hne hc ↦ hlast (by
          rw [List.getLast?_eq_some_getLast hne, beq_iff_eq.1 hc])
      rw [hkeep, if_neg ha, if_neg (by simp), if_neg (by simpa using ha)]
      rfl

/-- The directory that is taken if a slash stands behind a link: the link is a part of it. -/
theorem dirOf_append_slash (hlink : Target link) (ht : Named (a ++ '/' :: b)) (hb : '/' ∉ b)
    (hroot : link.length = 1 → (a ++ '/' :: b).head? ≠ some '/') :
    dirOf (link ++ (a ++ '/' :: b)) = link ++ a := by
  have hlast : (link ++ a).getLast? ≠ some '/' := by
    intro hlast
    rcases List.eq_nil_or_concat a with rfl | ⟨a, c, rfl⟩
    · rw [List.append_nil, List.getLast?_eq_some_iff] at hlast
      obtain ⟨l, rfl⟩ := hlast
      rcases hlink.named with hone | hnamed
      · exact hroot (congrArg List.length hone) rfl
      · exact hnamed.around.1 rfl
    · rw [List.concat_eq_append, ← List.append_assoc, List.getLast?_concat] at hlast
      rw [List.concat_eq_append] at ht
      exact ht.around.2 (by rw [List.getLast?_concat, hlast])
  rw [← List.append_assoc, dirOf_split hb (.inr ⟨ht.around.1, hlast⟩),
    if_neg (List.append_ne_nil_of_left_ne_nil hlink.nonempty a)]

/-- **Links that are told apart.**  The directory of a link is the one that is taken exactly if
there is no slash in what stands behind it. -/
theorem dirOf_append_eq_iff (hlink : Target link) (ht : Named t)
    (hroot : link.length = 1 → t.head? ≠ some '/') :
    dirOf (link ++ t) = dirOf link ↔ '/' ∉ t := by
  constructor
  · intro heq hslash
    obtain ⟨a, b, rfl, hb⟩ := exists_last_slash hslash
    rw [dirOf_append_slash hlink ht hb hroot] at heq
    -- what is taken is at least as long as the link, and a directory is shorter than its link
    have hlen := congrArg List.length heq
    rw [List.length_append] at hlen
    rcases hlink.last_slash with hplain | ⟨p, q, rfl, hq, hpq⟩
    · rw [dirOf_of_notMem hplain] at heq hlen
      have hone : ".".toList.length = 1 := rfl
      have hpos := List.length_pos_iff.2 hlink.nonempty
      have ha : a = [] := List.length_eq_zero_iff.1 (by omega)
      rw [ha, List.append_nil] at heq
      exact hlink.notDot heq
    · rw [dirOf_split hq hpq, List.length_append, List.length_cons] at hlen
      split at hlen
      · rename_i hp
        subst hp
        have hone : "/".toList.length = 1 := rfl
        rw [List.length_nil] at hlen
        have ha : a = [] := List.length_eq_zero_iff.1 (by omega)
        have hq' : q = [] := List.length_eq_zero_iff.1 (by omega)
        subst ha hq'
        exact hroot rfl rfl
      · omega
  · intro hplain
    rcases hlink.last_slash with hnone | ⟨a, b, rfl, hb, hab⟩
    · rw [dirOf_of_notMem hnone, dirOf_of_notMem fun h ↦
        (List.mem_append.1 h).elim hnone hplain]
    · have hbt : '/' ∉ b ++ t := fun h ↦ (List.mem_append.1 h).elim hb hplain
      rw [List.append_assoc, List.cons_append, dirOf_split hb hab, dirOf_split hbt
        (hab.imp_right fun h ↦ ⟨List.append_ne_nil_of_left_ne_nil h.1 t, h.2⟩)]

/-! ## One link after the other

What a link leaves behind is what the next one runs into, so the links have to be taken in their
order; `Each` does this for a property of a link and of what it finds.  `Clean` is what the buffer
keeps: no link leaves a slash at its end, and the null byte of `dirname` never comes behind one.
-/

/-- What stands from byte `n` on, once a link has been read over what was there. -/
def seen (v : Nat → Text) (link : Text) (n : Nat) : Text :=
  if n ≤ link.length then link.drop n else v n

/-- What can be read from byte `n` on when its directory has been taken, too: it is ended where
`dirname` has put its null byte. -/
def behind (v : Nat → Text) (link : Text) (n : Nat) : Text :=
  match dirnamePrefix (link ++ v link.length) with
  | none => seen v link n
  | some dir => clip n dir.length (seen v link n)

/-- A property of every link that is read into a buffer, and of what stands behind it. -/
def Each {α : Type} (P : α → Text → Prop) (target : α → Text) : (Nat → Text) → List α → Prop
  | _, [] => True
  | v, a :: as =>
    P a (v (target a).length) ∧ Each P target (behind v (target a)) as

/-- What can be read in a buffer after a link that is read, or not. -/
def behindLink (v : Nat → Text) : Option Text → Nat → Text
  | none => v
  | some link => behind v link

/-- The first of some links, if it can be read. -/
theorem each_filterMap_cons {P : Text → Text → Prop} {v : Nat → Text} {f : Text → Option Text}
    (a : Text) (as : List Text) : Each P id v ((a :: as).filterMap f) ↔
      (∀ link, f a = some link → P link (v link.length)) ∧
        Each P id (behindLink v (f a)) (as.filterMap f) := by
  rcases hf : f a with _ | link
  · rw [List.filterMap_cons_none hf]
    exact (and_iff_right fun link h ↦ absurd h (by simp)).symm
  · rw [List.filterMap_cons_some hf]
    refine and_congr_left fun _ ↦ ⟨fun h l hl ↦ ?_, fun h ↦ h link rfl⟩
    rw [← Option.some.inj hl]
    exact h

/-- A buffer that only links have been read into: behind its first byte, a name follows every
slash, and the second byte is none. -/
structure Clean (array : Text) : Prop where
  after : ∀ n rest, 1 ≤ n → view array n = '/' :: rest → ∃ c post, rest = c :: post ∧ c ≠ '/'
  second : (view array 1).head? ≠ some '/'

/-- An empty buffer is clean. -/
theorem clean_nil : Clean [] := by
  have hview (n : Nat) : view [] n = [] := by
    rw [view, List.drop_nil]
    rfl
  refine ⟨fun n rest _ h ↦ ?_, ?_⟩
  · rw [hview] at h
    exact absurd h.symm (List.cons_ne_nil _ _)
  · rw [hview]
    simp

/-- What stands behind a link is a part of a path. -/
theorem Clean.named (h : Clean array) (hn : 1 ≤ n) : Named (view array n) := by
  intro s hs hhead
  obtain ⟨pre, hpre⟩ := (List.mem_tails _ _).1 hs
  rcases s with _ | ⟨c, rest⟩
  · exact absurd hhead (by simp)
  · obtain rfl := Option.some.inj hhead
    have hle : pre.length ≤ (view array n).length := by
      rw [← hpre, List.length_append]
      exact Nat.le_add_right _ _
    have hview := view_add hle
    rw [← hpre, List.drop_left] at hview
    obtain ⟨d, post, rfl, hd⟩ := h.after _ _ (by omega) hview
    simpa using hd

/-- What stands behind a link does not start with a slash if the link is the root. -/
theorem Clean.head (h : Clean array) (hlen : link.length = 1) :
    (view array link.length).head? ≠ some '/' := hlen ▸ h.second

/-- The beginning of a text cannot be two slashes. -/
theorem Clean.take_two (h : Clean array) (hlink : link = [] ∨ Target link) :
    (link ++ view array link.length).take 2 ≠ "//".toList := by
  intro htwo
  rcases hlink with rfl | hlink
  · have hview : view array 0 = '/' :: '/' :: (view array 0).drop 2 := by
      conv_lhs => rw [← List.take_append_drop 2 (view array 0)]
      exact congrArg (· ++ (view array 0).drop 2) htwo
    have hle : 1 ≤ (view array 0).length := by
      rw [hview]
      simp
    have hnext : view array (0 + 1) = (view array 0).drop 1 := view_add hle
    refine h.second ?_
    rw [show view array 1 = (view array 0).drop 1 from hnext, hview]
    rfl
  · obtain ⟨c, cs, rfl⟩ := List.exists_cons_of_ne_nil hlink.nonempty
    rcases cs with _ | ⟨d, cs⟩
    · have hhead : (view array [c].length).head? ≠ some '/' := h.head rfl
      rcases hv : view array [c].length with _ | ⟨e, es⟩
      · rw [hv] at htwo
        exact absurd htwo (by simp)
      · rw [hv] at htwo hhead
        have hslash : e = '/' := (List.cons.inj (List.cons.inj htwo).2).1
        exact hhead (by rw [hslash]; rfl)
    · have hc : c = '/' := (List.cons.inj htwo).1
      have hd : d = '/' := (List.cons.inj (List.cons.inj htwo).2).1
      subst hc hd
      rcases hlink.named with hroot | hnamed
      · exact absurd hroot (by simp)
      · have hnamed : Named ([] ++ '/' :: '/' :: cs) := hnamed
        obtain ⟨e, post, heq, he⟩ := hnamed.after
        exact he (List.cons.inj heq).1.symm

/-- A name follows every slash that is seen. -/
theorem Clean.after_seen (h : Clean array) (hlink : link = [] ∨ Target link) (hn : 1 ≤ n)
    (hseen : seen (view array) link n = '/' :: rest) : ∃ c post, rest = c :: post ∧ c ≠ '/' := by
  rw [seen] at hseen
  by_cases hle : n ≤ link.length
  · rw [if_pos hle] at hseen
    have hsplit : link = link.take n ++ '/' :: rest := by rw [← hseen, List.take_append_drop]
    rcases hlink with rfl | hlink
    · exact absurd hseen (by simp)
    · rcases hlink.named with hroot | hnamed
      · rw [hroot, List.drop_of_length_le hn] at hseen
        exact absurd hseen.symm (List.cons_ne_nil _ _)
      · rw [hsplit] at hnamed
        exact hnamed.after
  · rw [if_neg hle] at hseen
    exact h.after n rest hn hseen

/-- The second byte is no slash. -/
theorem Clean.second_seen (h : Clean array) (hlink : link = [] ∨ Target link) :
    (seen (view array) link 1).head? ≠ some '/' := by
  intro hhead
  rw [seen] at hhead
  by_cases hle : 1 ≤ link.length
  · rw [if_pos hle] at hhead
    rcases hlink with rfl | hlink
    · exact absurd hle (by simp)
    · obtain ⟨c, cs, rfl⟩ := List.exists_cons_of_ne_nil hlink.nonempty
      rw [List.drop_one, List.tail_cons, List.head?_eq_some_iff] at hhead
      obtain ⟨post, rfl⟩ := hhead
      have hc : c = '/' := Option.some.inj (hlink.absolute (by simp))
      have htwo := h.take_two (.inr hlink)
      rw [hc] at htwo
      exact htwo rfl
  · rw [if_neg hle] at hhead
    exact h.second hhead

/-- What is there is a part of what `dirname` is given. -/
theorem drop_eq_seen_append (hn : n ≤ (link ++ view array link.length).length) :
    ∃ post, (link ++ view array link.length).drop n = seen (view array) link n ++ post := by
  rw [seen]
  by_cases hle : n ≤ link.length
  · rw [if_pos hle, List.drop_append_of_le_length hle]
    exact ⟨_, rfl⟩
  · have hin : n - link.length ≤ (view array link.length).length := by
      rw [List.length_append] at hn
      omega
    have hview := view_add hin
    rw [Nat.add_sub_cancel' (by omega)] at hview
    rw [if_neg hle, List.drop_append, List.drop_of_length_le (by omega), List.nil_append, hview]
    exact ⟨[], (List.append_nil _).symm⟩

/-- What stands there after a link: what is seen, or the beginning of it. -/
theorem behind_cases (v : Nat → Text) (link : Text) (n : Nat) :
    behind v link n = seen v link n ∨
      ∃ dir, dirnamePrefix (link ++ v link.length) = some dir ∧ n ≤ dir.length ∧
        behind v link n = (seen v link n).take (dir.length - n) := by
  rw [behind]
  rcases hdir : dirnamePrefix (link ++ v link.length) with _ | dir
  · exact .inl rfl
  · dsimp only
    rw [clip]
    by_cases hle : n ≤ dir.length
    · rw [if_pos hle]
      exact .inr ⟨dir, rfl, hle, rfl⟩
    · rw [if_neg hle]
      exact .inl rfl

/-- The null byte of `dirname` does not come right behind a slash that is seen. -/
theorem Clean.length_ne_of_seen (h : Clean array) (hlink : link = [] ∨ Target link)
    (hdir : dirnamePrefix (link ++ view array link.length) = some dir) (hn : 1 ≤ n)
    (hseen : seen (view array) link n = '/' :: rest) : dir.length ≠ n + 1 := by
  intro hlen
  obtain ⟨post, hpost⟩ := dirnamePrefix_prefix hdir
  have hle : n ≤ (link ++ view array link.length).length := by
    rw [← hpost, List.length_append]
    omega
  obtain ⟨post', hdrop⟩ := drop_eq_seen_append hle
  have hslash : dir[n]? = some '/' := by
    have hleft : (dir ++ post)[n]? = dir[n]? := List.getElem?_append_left (by omega)
    rw [← hleft, hpost, ← Nat.add_zero n, ← List.getElem?_drop, hdrop, hseen]
    rfl
  -- the directory would end with it
  refine getLast?_of_dirnamePrefix hdir (by omega) (h.take_two hlink) ?_
  rw [List.getLast?_eq_getElem?, show dir.length - 1 = n by omega, hslash]

/-- A text that is cut off still goes on behind a character, unless it is cut off there. -/
theorem exists_of_take_eq_cons {c : Char} (h : t.take k = c :: rest) :
    ∃ rest', t = c :: rest' ∧ 1 ≤ k ∧ rest = rest'.take (k - 1) := by
  rcases k with _ | k
  · rw [List.take_zero] at h
    exact absurd h.symm (List.cons_ne_nil _ _)
  · rcases t with _ | ⟨d, t⟩
    · exact absurd h.symm (List.cons_ne_nil _ _)
    · rw [List.take_succ_cons] at h
      obtain ⟨rfl, rfl⟩ := List.cons.inj h
      exact ⟨t, rfl, Nat.le_add_left 1 k, rfl⟩

/-- **A buffer stays clean** when a link, or nothing, is read into it. -/
theorem Clean.behind {array' : Text} (h : Clean array) (hlink : link = [] ∨ Target link)
    (hview : ∀ n, 1 ≤ n → view array' n = behind (view array) link n) : Clean array' := by
  constructor
  · intro n rest hn heq
    rw [hview n hn] at heq
    rcases behind_cases (view array) link n with hsame | ⟨dir, hdir, hle, htake⟩
    · exact h.after_seen hlink hn (hsame ▸ heq)
    · obtain ⟨rest', hseen, hone, rfl⟩ := exists_of_take_eq_cons (htake ▸ heq)
      -- the name behind the slash is not cut off
      obtain ⟨c, post, rfl, hc⟩ := h.after_seen hlink hn hseen
      have hlen := h.length_ne_of_seen hlink hdir hn hseen
      obtain ⟨k, hk⟩ : ∃ k, dir.length - n - 1 = k + 1 := ⟨dir.length - n - 2, by omega⟩
      rw [hk]
      exact ⟨c, _, List.take_succ_cons, hc⟩
  · rw [hview 1 (Nat.le_refl 1)]
    intro hhead
    refine h.second_seen hlink ?_
    rcases behind_cases (view array) link 1 with hsame | ⟨dir, hdir, hle, htake⟩
    · rw [← hsame, hhead]
    · obtain ⟨rest, heq⟩ := List.head?_eq_some_iff.1 hhead
      obtain ⟨rest', hseen, -⟩ := exists_of_take_eq_cons (htake ▸ heq)
      rw [hseen]
      rfl

end Leftover
