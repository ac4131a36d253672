import NctuUnix.Lib.Undo
import NctuUnix.Hw4.Complete

/-!
# Break points that are set and deleted again

An entry of the list keeps the eight bytes that were at its address when it was set, traps of its
neighbours included, and `delete` writes all of them back.  So whether the tracee is what it was,
when some break points have been set and all of them deleted again, depends on the order.

## Main results

* `breaks_spec`, `deletes_spec` — what setting and deleting in a row comes to.
* `undo_iff` — the list is what it was in any case, and the tracee is if and only if the word that
  is written last over the address of a break point is never one of a later break point; the last
  one first is a good order.
-/

set_option autoImplicit false

namespace Sdb

open Bytes Trap Undo

variable {ε : Type} {h : Host ε} {s s' s₁ : Sdb ε} {c : Tracee ε} {l l' : List Bp} {b : Bp}
  {as ds : List Addr} {e : Saved Addr Byte} {es rest : List (Saved Addr Byte)}

/-! ## Commands in a row -/

/-- Some commands, one after the other. -/
inductive DoesAll (h : Host ε) : Sdb ε → List Command → Sdb ε → Prop
  | nil (s : Sdb ε) : DoesAll h s [] s
  | cons {s s₁ s' : Sdb ε} {cmd : Command} {cmds : List Command} (hd : Does h s cmd s₁)
      (hr : DoesAll h s₁ cmds s') : DoesAll h s (cmd :: cmds) s'

/-- The entries at some addresses are deleted, one after the other, each by the id it has then. -/
inductive Deletes (h : Host ε) : Sdb ε → List Addr → Sdb ε → Prop
  | nil (s : Sdb ε) : Deletes h s [] s
  | cons {s s₁ s' : Sdb ε} {b : Bp} {ds : List Addr} (hb : b ∈ s.bpList)
      (hd : Does h s (.delete b.id) s₁) (hr : Deletes h s₁ ds s') :
      Deletes h s (b.addr :: ds) s'

/-- A break point can be set at `a`: it is in the text, which is mapped there, and there is neither
a trap nor an entry. -/
structure Settable (h : Host ε) (s : Sdb ε) (c : Tracee ε) (a : Addr) : Prop where
  inText : intext s.elf a = true
  mapped : h.wordMapped c.env a = true
  clear : c.mem a ≠ int3
  fresh : ∀ b ∈ s.bpList, b.addr ≠ a

/-- `x` is one of the eight bytes that are saved for a break point at `a`. -/
def InWord (a x : Addr) : Prop := (x - a).toNat < 8

instance (a : Addr) : DecidablePred (InWord a) := fun x ↦
  inferInstanceAs (Decidable ((x - a).toNat < 8))

theorem inWord_self (a : Addr) : InWord a a := by
  rw [InWord, BitVec.sub_self]
  decide

/-- The entry for a point that has been saved, but for its id. -/
def entryOf (e : Saved Addr Byte) : Bp := ⟨0, e.point, loadWord e.old e.point⟩

/-- The saved word is the block of the saved memory. -/
theorem storeWord_entryOf (e : Saved Addr Byte) (m : Mem) :
    storeWord m (entryOf e).addr (entryOf e).origCode = putBack InWord e m := by
  funext x
  rw [putBack]
  split
  · rename_i hx
    rcases mem_word_or_apart e.point x with ⟨k, hk, rfl⟩ | hapart
    · rw [← byteOf_loadWord e.old e.point hk]
      exact storeWord_add m e.point _ hk
    · exact absurd hx (Nat.not_lt.2 hapart)
  · rename_i hx
    exact storeWord_of_apart (Nat.le_of_not_lt hx)

/-! ## Ids -/

theorem reindex_of_numbered (hn : Numbered l) : reindex l = l := by
  refine List.ext_getElem? fun i ↦ ?_
  rw [reindex, List.getElem?_mapIdx]
  rcases hi : l[i]? with _ | b
  · rfl
  · rw [Option.map_some, ← hn i b hi]

/-- The id an entry had does not matter. -/
theorem reindex_middle (i : Int) :
    reindex (l ++ { b with id := i } :: l') = reindex (l ++ b :: l') := by
  simp [reindex, List.mapIdx_append, List.mapIdx_cons]

theorem reindex_eraseIdx (i : Nat) : reindex ((reindex l).eraseIdx i) = reindex (l.eraseIdx i) := by
  refine List.ext_getElem? fun j ↦ ?_
  rw [reindex, reindex, reindex, List.getElem?_mapIdx, List.getElem?_mapIdx, List.getElem?_eraseIdx,
    List.getElem?_eraseIdx]
  split <;> rw [List.getElem?_mapIdx, Option.map_map] <;> rfl

/-! ## Setting them -/

/-- **Some break points are set**, at addresses where they can be. -/
theorem breaks_spec (hw : WF s) (hrun : s.state = .running) (hc : s.tracee = some c)
    (hn : as.Nodup) (has : ∀ a ∈ as, Settable h s c a) :
    ∃ s', DoesAll h s (as.map .break) s' ∧ WF s' ∧
      s'.core = (s.core.setTracee { c with mem := marked int3 as c.mem }).setTable
        (reindex (s.bpList ++ (saves int3 as c.mem).map entryOf)) := by
  induction as generalizing s c with
  | nil =>
    refine ⟨s, .nil s, hw, ?_⟩
    rw [saves, List.map_nil, List.append_nil, reindex_of_numbered hw.numbered, marked,
      List.foldl_nil, setTracee_core hc]
    rfl
  | cons a as ih =>
    rw [List.nodup_cons] at hn
    rw [List.forall_mem_cons] at has
    obtain ⟨ha, has⟩ := has
    obtain ⟨s₁, hs, -⟩ := bp_returns (h := h) hc ha.mapped
    have hd : Does h s (.break a) s₁ := ⟨0, congrArg some hs⟩
    have hcore : s₁.core = (s.core.setTracee (arm a c)).setTable
        (s.bpList ++ [⟨s.bpList.length, a, loadWord c.mem a⟩]) := by
      obtain ⟨-, ⟨-, hst | hno | ⟨c', hc', hint⟩⟩ | ⟨c', -, -, hc', -, ⟨⟨b, hb, hba⟩, -⟩ |
        ⟨-, hcore⟩⟩⟩ := bp_spec hs
      · exact absurd hrun hst
      · exact absurd (hno.symm.trans ha.inText) (by simp)
      · exact absurd (Option.some.inj (hc.symm.trans hc') ▸ hint) ha.clear
      · exact absurd hba (ha.fresh b hb)
      · rwa [← Option.some.inj (hc.symm.trans hc')] at hcore
    have hl : s₁.bpList = s.bpList ++ [⟨s.bpList.length, a, loadWord c.mem a⟩] :=
      congrArg Core.bpList hcore
    have hel : s₁.elf = s.elf := congrArg Core.elf hcore
    have hset : ∀ x ∈ as, Settable h s₁ (arm a c) x := fun x hx ↦ by
      have hne : x ≠ a := fun heq ↦ hn.1 (heq ▸ hx)
      refine ⟨hel ▸ (has x hx).inText, (has x hx).mapped, ?_, fun b hb ↦ ?_⟩
      · rw [arm_mem_of_ne hne]
        exact (has x hx).clear
      · rw [hl, List.mem_append, List.mem_singleton] at hb
        rcases hb with hb | rfl
        · exact (has x hx).fresh b hb
        · exact hne.symm
    obtain ⟨s', hall, hw', hcore'⟩ := ih (hd.wf hw) ((congrArg Core.state hcore).trans hrun)
      (congrArg Core.tracee hcore) hn.2 hset
    refine ⟨s', .cons hd hall, hw', ?_⟩
    rw [hcore', hcore, hl, List.append_assoc, List.singleton_append,
      show (⟨s.bpList.length, a, loadWord c.mem a⟩ : Bp)
        = { entryOf ⟨a, c.mem⟩ with id := s.bpList.length } from rfl, reindex_middle]
    rfl

/-! ## Deleting them -/

/-- A `delete` of an entry that is there. -/
theorem delete_spec {i : Nat} (hw : WF s) (hrun : s.state = .running) (hc : s.tracee = some c)
    (hb : s.bpList[i]? = some b) (hm : h.wordMapped c.env b.addr = true) :
    ∃ s', Does h s (.delete b.id) s' ∧ s'.core =
      (s.core.setTracee (writeBack b c)).setTable (reindex (s.bpList.eraseIdx i)) := by
  have hpoke : s.pokeText h "ptrace(PTRACE_POKETEXT)" b.addr b.origCode
      = .ok { s with tracee := some (writeBack b c) } := by
    simp only [pokeText, hc, hm, if_true]
    rfl
  have hdel := @del_eq _ h s i hw.numbered hrun
  rw [if_pos (Int.natCast_nonneg i), Int.toNat_natCast, hb] at hdel
  simp only [hpoke] at hdel
  rw [hw.numbered i b hb]
  exact ⟨_, ⟨0, congrArg some hdel⟩, rfl⟩

/-- **Some of the last entries are deleted**, in any order, and in the end all of them. -/
theorem deletes_spec (hw : WF s) (hrun : s.state = .running) (hc : s.tracee = some c)
    (hl : s.bpList = reindex (l ++ rest.map entryOf)) (hp : es.Perm rest)
    (hm : ∀ e ∈ rest, h.wordMapped c.env e.point = true) :
    ∃ s', Deletes h s (es.map Saved.point) s' ∧
      s'.core = (s.core.setTracee { c with mem := undo InWord es c.mem }).setTable (reindex l) := by
  induction es generalizing s c rest with
  | nil =>
    rw [List.nil_perm] at hp
    rw [hp, List.map_nil, List.append_nil] at hl
    refine ⟨s, .nil s, ?_⟩
    rw [undo, List.foldl_nil, ← hl, setTracee_core hc]
    rfl
  | cons e es ih =>
    obtain ⟨r₁, r₂, rfl⟩ := List.append_of_mem (hp.subset List.mem_cons_self)
    have hp' : es.Perm (r₁ ++ r₂) := (hp.trans List.perm_middle).cons_inv
    have hi : s.bpList[l.length + r₁.length]?
        = some { entryOf e with id := ((l.length + r₁.length : Nat) : Int) } := by
      rw [hl, reindex, List.getElem?_mapIdx, List.getElem?_append_right (by omega),
        Nat.add_sub_cancel_left, List.map_append, List.map_cons,
        List.getElem?_append_right (by rw [List.length_map]), List.length_map, Nat.sub_self]
      rfl
    obtain ⟨s₁, hd, hcore⟩ := delete_spec hw hrun hc hi (hm e (by simp))
    have hl₁ : s₁.bpList = reindex (l ++ (r₁ ++ r₂).map entryOf) := by
      rw [show s₁.bpList = reindex (s.bpList.eraseIdx (l.length + r₁.length)) from
        congrArg Core.bpList hcore, hl, reindex_eraseIdx,
        List.eraseIdx_append_of_length_le (by omega), Nat.add_sub_cancel_left, List.map_append,
        List.map_cons, List.eraseIdx_append_of_length_le (by rw [List.length_map]),
        List.length_map, Nat.sub_self, List.eraseIdx_cons_zero, List.map_append]
    obtain ⟨s', hdels, hcore'⟩ := ih (hd.wf hw) ((congrArg Core.state hcore).trans hrun)
      (congrArg Core.tracee hcore) hl₁ hp' fun e' he' ↦ hm e' (by
        rw [List.mem_append] at he' ⊢
        exact he'.imp_right (List.mem_cons_of_mem e))
    refine ⟨s', .cons (List.mem_of_getElem? hi) hd hdels, ?_⟩
    have hmem : (writeBack { entryOf e with id := ((l.length + r₁.length : Nat) : Int) } c).mem
        = putBack InWord e c.mem := storeWord_entryOf e c.mem
    rw [hcore', hcore, hmem]
    rfl

/-! ## Both -/

/-- An order of the points is one of what has been saved for them. -/
theorem exists_saved (hp : ds.Perm (rest.map Saved.point)) :
    ∃ es : List (Saved Addr Byte), es.Perm rest ∧ es.map Saved.point = ds := by
  induction ds generalizing rest with
  | nil =>
    rw [List.nil_perm, List.map_eq_nil_iff] at hp
    exact ⟨[], hp ▸ .refl _, rfl⟩
  | cons d ds ih =>
    obtain ⟨e, he, rfl⟩ := List.mem_map.1 (hp.subset List.mem_cons_self)
    obtain ⟨r₁, r₂, rfl⟩ := List.append_of_mem he
    rw [List.map_append, List.map_cons] at hp
    have hp' : ds.Perm ((r₁ ++ r₂).map Saved.point) := by
      rw [List.map_append]
      exact (hp.trans List.perm_middle).cons_inv
    obtain ⟨es, hes, rfl⟩ := ih hp'
    exact ⟨e :: es, (hes.cons e).trans List.perm_middle.symm, rfl⟩

/-- Some break points are set where there are none, and then all of them are deleted. -/
theorem breaks_deletes (hr : Reachable h s) (hrun : s.state = .running) (hc : s.tracee = some c)
    (hn : as.Nodup) (has : ∀ a ∈ as, Settable h s c a) (hp : ds.Perm as) :
    ∃ s₁ s' es, DoesAll h s (as.map .break) s₁ ∧ Deletes h s₁ ds s' ∧
      es.Perm (saves int3 as c.mem) ∧ es.map Saved.point = ds ∧
      s'.core = s.core.setTracee { c with mem := undo InWord es (marked int3 as c.mem) } := by
  have hw := reachable_wf hr
  obtain ⟨s₁, hall, hw₁, hcore₁⟩ := breaks_spec hw hrun hc hn has
  rw [← map_point_saves (v := int3) as c.mem] at hp
  obtain ⟨es, hes, rfl⟩ := exists_saved hp
  have hm : ∀ e ∈ saves int3 as c.mem, h.wordMapped c.env e.point = true := fun e he ↦ by
    refine (has e.point ?_).mapped
    rw [← map_point_saves (v := int3) as c.mem]
    exact List.mem_map_of_mem he
  obtain ⟨s', hdels, hcore'⟩ := deletes_spec hw₁ ((congrArg Core.state hcore₁).trans hrun)
    (congrArg Core.tracee hcore₁) (congrArg Core.bpList hcore₁) hes hm
  refine ⟨s₁, s', es, hall, hdels, hes, rfl, ?_⟩
  rw [hcore', hcore₁, reindex_of_numbered hw.numbered]
  rfl

/-- The tracee is the same exactly if its memory is. -/
theorem setTracee_eq_iff (hc : s.tracee = some c) (m : Mem) :
    s.core.setTracee { c with mem := m } = s.core ↔ m = c.mem := by
  refine ⟨fun heq ↦ ?_, fun heq ↦ by rw [heq]; exact setTracee_core hc⟩
  have htr : some { c with mem := m } = s.tracee := congrArg Core.tracee heq
  rw [hc, Option.some.injEq] at htr
  exact congrArg Cpu.mem htr

/-- **Setting and deleting.**  From a state in which a program runs, some break points are set where
there are none, and then all of them are deleted, in the order `ds`.  The list is the one there was
before; and the tracee is what it was exactly if the word that is written last over the address of
one of them was not saved after a trap had been planted there.  The last one first puts everything
back, however close the break points are. -/
theorem undo_iff (hr : Reachable h s) (hrun : s.state = .running) (hc : s.tracee = some c)
    (hn : as.Nodup) (has : ∀ a ∈ as, Settable h s c a) (hp : ds.Perm as) :
    ∃ s₁ s', DoesAll h s (as.map .break) s₁ ∧ Deletes h s₁ ds s' ∧ s'.bpList = s.bpList ∧
      (s'.core = s.core ↔ InOrder InWord as ds) ∧ (ds = as.reverse → s'.core = s.core) := by
  obtain ⟨s₁, s', es, hall, hdels, hes, rfl, hcore⟩ := breaks_deletes hr hrun hc hn has hp
  have hiff : s'.core = s.core ↔ InOrder InWord as (es.map Saved.point) := by
    rw [hcore, setTracee_eq_iff hc]
    exact undo_marked_iff hn (fun a ha ↦ (has a ha).clear) inWord_self hes
  refine ⟨s₁, s', hall, hdels, congrArg Core.bpList hcore, hiff, fun hrev ↦ hiff.2 ?_⟩
  rw [hrev]
  exact inOrder_reverse inWord_self

/-- Two neighbours, the upper one set first and deleted first: the word of the lower one puts its
trap back. -/
theorem undo_iff_neighbours : ∃ s s₁ s', DoesAll (Tiny.host [0x90, 0x90]) s
      [.break (Tiny.textAddr + 1), .break Tiny.textAddr] s₁ ∧
    Deletes (Tiny.host [0x90, 0x90]) s₁ [Tiny.textAddr + 1, Tiny.textAddr] s' ∧
    s'.bpList = s.bpList ∧ s'.core ≠ s.core := by
  obtain ⟨s, hr, hp⟩ := script_reaches (Tiny.host [0x90, 0x90]) (fun _ ↦ True) 1
    [.load "a.out", .start]
    (fun s ↦ s.state = .running ∧ s.bpList = [] ∧ (s.tracee.any fun c ↦
      [Tiny.textAddr + 1, Tiny.textAddr].all fun a ↦
        (intext s.elf a && (Tiny.host [0x90, 0x90]).wordMapped c.env a) && c.mem a != int3) = true)
    (fun _ _ ↦ trivial) (by decide +kernel)
  obtain ⟨hrun, hnil, hany⟩ := of_decide_eq_true hp
  obtain ⟨c, hc, hall⟩ := (Option.any_eq_true _ _).1 hany
  have hset : ∀ a ∈ [Tiny.textAddr + 1, Tiny.textAddr],
      Settable (Tiny.host [0x90, 0x90]) s c a := fun a ha ↦ by
    obtain ⟨htext, hclear⟩ := Bool.and_eq_true_iff.1 (List.all_eq_true.1 hall a ha)
    obtain ⟨htext, hmapped⟩ := Bool.and_eq_true_iff.1 htext
    exact ⟨htext, hmapped, bne_iff_ne.1 hclear, by simp [hnil]⟩
  obtain ⟨s₁, s', h₁, h₂, hl, hiff, -⟩ := undo_iff hr hrun hc (by decide) hset (.refl _)
  refine ⟨s, s₁, s', h₁, h₂, hl, fun heq ↦ ?_⟩
  have hle := hiff.1 heq [Tiny.textAddr + 1] Tiny.textAddr [] rfl (Tiny.textAddr + 1) (by simp)
    (by decide) (by simp)
  exact absurd hle (by decide)

end Sdb
