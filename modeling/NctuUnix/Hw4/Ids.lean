import Mathlib.Data.List.InsertIdx
import NctuUnix.Lib.Radix
import NctuUnix.Hw4.Local
import NctuUnix.Hw4.MainLoop

/-!
# Ids on the screen

`list` prints the id of each entry, and `delete` takes one back.  `cerr` is left in base sixteen by
the address in each row, and by the commands that print addresses or registers; `delete` reads
decimal numbers.

## Main results

* `delete_listed_iff` — the id that is printed for an entry deletes this entry, exactly if it is one
  of the first ten and its word can be written back.
* `delete_listed_fails` — the eleventh of eleven.
-/

set_option autoImplicit false

namespace Sdb

open Bytes Trap Input

variable {ε : Type} {h : Host ε} {s s' : Sdb ε} {c : Tracee ε} {b : Bp} {i : Nat}

/-- `cerr << id`, where `cerr` is in base sixteen or in base ten. -/
def idText (hex : Bool) (id : Int) : Text :=
  if hex then Nat.toDigits 16 (BitVec.ofInt 32 id).toNat else (toString id).toList

/-- The text that `list` prints for the id of entry `i`. -/
def listedId (s : Sdb ε) (i : Nat) : Option Text :=
  match (list s).log[s.log.length + i]? with
  | some (.entry hex id _) => some (idText hex id)
  | _ => none

/-! ## Printing and reading -/

/-- Every row but the first is printed in base sixteen. -/
theorem listedId_eq (hw : WF s) (hb : s.bpList[i]? = some b) :
    listedId s i = some (idText (s.cerrHex || i != 0) i) := by
  rw [listedId, list, List.getElem?_append_right (Nat.le_add_right _ _), Nat.add_sub_cancel_left,
    List.getElem?_mapIdx, hb]
  simp only [Option.map_some, hw.numbered i b hb]

theorem idText_small (hex : Bool) (i : Fin 10) : idText hex i.val ≠ [] ∧
    (∀ c ∈ idText hex i.val, isSpace c = false) ∧ atoi (idText hex i.val) = i.val := by
  have hall : ∀ (hex : Bool) (i : Fin 10), idText hex i.val ≠ [] ∧
      ((idText hex i.val).all fun c ↦ !isSpace c) = true ∧ atoi (idText hex i.val) = i.val := by
    decide +kernel
  obtain ⟨hne, hplain, hval⟩ := hall hex i
  exact ⟨hne, noSpace_of_all hplain, hval⟩

theorem idText_hex_plain (id : Int) : ∀ c ∈ idText true id, isSpace c = false := by
  intro c hc
  obtain ⟨r, hr, rfl⟩ := mem_toDigits (by decide) (by decide) hc
  exact (plain_digitChar ⟨r, hr⟩).1

/-- **An id is read as it was meant** when it is a single digit, and only then. -/
theorem atoi_idText (hex : Bool) (i : Nat) :
    atoi (idText (hex || i != 0) i) = i ↔ i < 10 := by
  by_cases hi : i < 10
  · exact iff_of_true (idText_small _ ⟨i, hi⟩).2.2 hi
  · refine iff_of_false (fun heq ↦ ?_) hi
    have hhex : (hex || i != 0) = true := by
      rw [Bool.or_eq_true]
      exact .inr (bne_iff_ne.2 (by omega))
    rw [hhex, idText, if_pos rfl] at heq
    -- an `int` is what `atoi` returns
    have hsmall : i < 2 ^ 31 := by
      have hlt := @BitVec.toInt_lt 32 (BitVec.ofInt 32 (strtol10
        (Nat.toDigits 16 (BitVec.ofInt 32 (i : Int)).toNat)))
      rw [atoi] at heq
      omega
    have hsame : (BitVec.ofInt 32 (i : Int)).toNat = i := by
      rw [BitVec.toNat_ofInt]
      omega
    have hlt : readIn 10 16 i < i := readIn_lt (by decide) (by decide) (by decide) (by omega)
    rw [hsame, atoi_toDigits (by decide) (by decide) (by omega)] at heq
    omega

/-- The command line that deletes the id with this text. -/
theorem parse_delete {t : Text} (hne : t ≠ []) (ht : ∀ c ∈ t, isSpace c = false) :
    parse ("delete ".toList ++ t) = .delete (atoi t) := by
  have hsplit : split ("delete ".toList ++ t) = ["delete", String.ofList t] := by
    have hwords : words ("delete".toList ++ ' ' :: t) = ["delete".toList, t] := by
      have hplain : ("delete".toList.all fun c ↦ !isSpace c) = true := by decide
      rw [words_cons (by decide) (noSpace_of_all hplain), words_singleton hne ht]
    rw [split, show "delete ".toList ++ t = "delete".toList ++ ' ' :: t from rfl, hwords]
    rfl
  have hfull : (String.ofList t).isEmpty = false := by simpa [Bool.eq_false_iff] using hne
  rw [parse, hsplit]
  simp [hfull]

/-! ## Deleting what is listed -/

/-- Entries at different positions leave different addresses behind. -/
theorem eraseIdx_addr_inj {l : List Addr} {j : Nat} (hn : l.Nodup) (hi : i < l.length)
    (he : l.eraseIdx j = l.eraseIdx i) : j = i := by
  by_contra hne
  have hmem : l[i] ∈ l.eraseIdx j :=
    List.mem_eraseIdx_iff_getElem?.2 ⟨i, Ne.symm hne, List.getElem?_eq_getElem hi⟩
  rw [he] at hmem
  obtain ⟨k, hk, hget⟩ := List.mem_eraseIdx_iff_getElem?.1 hmem
  obtain ⟨hlt, hget⟩ := List.getElem?_eq_some_iff.1 hget
  exact hk ((List.Nodup.getElem_inj_iff hn).1 hget)

/-- The process can be written to at the address of an entry. -/
def Writable (h : Host ε) (s : Sdb ε) (b : Bp) : Prop :=
  ∃ c, s.tracee = some c ∧ h.wordMapped c.env b.addr = true

/-- `delete` with a number deletes the entry at position `i` when the number is `i` and the process
can be written to. -/
theorem delete_iff (hw : WF s) (hrun : s.state = .running) (hb : s.bpList[i]? = some b) (id : Int) :
    (∃ s', Does h s (.delete id) s' ∧ s'.bpList = reindex (s.bpList.eraseIdx i)) ↔
      id = i ∧ Writable h s b := by
  have hi : i < s.bpList.length := (List.getElem?_eq_some_iff.1 hb).1
  constructor
  · rintro ⟨s', ⟨fuel, hs⟩, hlist⟩
    replace hs : del h id s = .ok s' := Option.some.inj hs
    obtain ⟨-, ⟨hcore, -⟩ | ⟨j, b', c, rfl, -, hb', hc, hcore⟩⟩ := del_spec hw.numbered hs
    · -- nothing has been deleted
      have hlen := congrArg (fun l ↦ (l.map Bp.addr).length) hlist
      simp only [show s'.bpList = s.bpList from congrArg Core.bpList hcore, reindex_addr,
        List.length_map, List.length_eraseIdx_of_lt hi] at hlen
      omega
    · have haddr := congrArg (List.map Bp.addr) hlist
      rw [show s'.bpList = reindex (s.bpList.eraseIdx j) from congrArg Core.bpList hcore,
        reindex_addr, reindex_addr, ← List.eraseIdx_map, ← List.eraseIdx_map] at haddr
      obtain rfl : j = i := eraseIdx_addr_inj hw.distinct (by simpa using hi) haddr
      refine ⟨rfl, c, hc, ?_⟩
      rw [del_eq hw.numbered hrun, if_pos (Int.natCast_nonneg j), Int.toNat_natCast, hb] at hs
      simp only at hs
      split at hs
      · cases hs
      · rename_i t hp
        obtain ⟨c₁, hc₁, hm, -⟩ := pokeText_eq hp
        rwa [← Option.some.inj (hc₁.symm.trans hc)]
  · rintro ⟨rfl, c, hc, hm⟩
    have hpoke : s.pokeText h "ptrace(PTRACE_POKETEXT)" b.addr b.origCode
        = .ok { s with tracee := some (writeBack b c) } := by
      simp only [pokeText, hc, hm, if_true]
      rfl
    have hdel := @del_eq _ h s i hw.numbered hrun
    rw [if_pos (Int.natCast_nonneg i), Int.toNat_natCast, hb] at hdel
    simp only [hpoke] at hdel
    exact ⟨_, ⟨0, congrArg some hdel⟩, rfl⟩

/-- **When the listed ids can be used.**  Whatever base `cerr` has been left in: the text that
`list` prints for the id of an entry, as the argument of a `delete` after it, deletes this entry and
no other, exactly if the entry is one of the first ten and its word can be written back. -/
theorem delete_listed_iff (hr : Reachable h s) (hrun : s.state = .running)
    (hb : s.bpList[i]? = some b) (hex : Bool) {t : Text}
    (ht : listedId { s with cerrHex := hex } i = some t) :
    (∃ s', Does h (list { s with cerrHex := hex }) (parse ("delete ".toList ++ t)) s' ∧
        s'.bpList = reindex (s.bpList.eraseIdx i)) ↔ i < 10 ∧ Writable h s b := by
  have hw : WF { s with cerrHex := hex } := (reachable_wf hr).congr rfl rfl id
  have hwl : WF (list { s with cerrHex := hex }) := hw.congr rfl rfl id
  rw [listedId_eq hw hb] at ht
  obtain rfl := Option.some.inj ht
  have hplain : idText (hex || i != 0) i ≠ [] ∧
      ∀ c ∈ idText (hex || i != 0) i, isSpace c = false := by
    by_cases hi : i < 10
    · obtain ⟨hne, hsp, -⟩ := idText_small (hex || i != 0) ⟨i, hi⟩
      exact ⟨hne, hsp⟩
    · have hhex : (hex || i != 0) = true := by
        rw [Bool.or_eq_true]
        exact .inr (bne_iff_ne.2 (by omega))
      rw [hhex]
      exact ⟨Nat.toDigits_ne_nil, idText_hex_plain i⟩
  rw [parse_delete hplain.1 hplain.2, ← atoi_idText hex i]
  exact delete_iff (s := list { s with cerrHex := hex }) hwl hrun hb _

/-- The second of two. -/
theorem delete_listed_second : ∃ (s s' : Sdb Nat) (b : Bp), s.bpList.length = 2 ∧
    s.bpList[1]? = some b ∧
    Does (Tiny.host [0x90, 0x90]) (list { s with cerrHex := true }) (parse "delete 1".toList) s' ∧
      s'.bpList = reindex (s.bpList.eraseIdx 1) := by
  obtain ⟨s, hr, hp⟩ := script_reaches (Tiny.host [0x90, 0x90]) (fun _ ↦ True) 1
    [.load "a.out", .start, .break Tiny.textAddr, .break (Tiny.textAddr + 1)]
    (fun s ↦ s.state = .running ∧ s.bpList.length = 2 ∧ s.tracee.isSome = true ∧
      (s.bpList[1]?.any fun b ↦ b.addr = Tiny.textAddr + 1) = true ∧
      listedId { s with cerrHex := true } 1 = some ['1'])
    (fun _ _ ↦ trivial) (by decide +kernel)
  obtain ⟨hrun, hlen, hsome, hany, htext⟩ := of_decide_eq_true hp
  obtain ⟨c, hc⟩ := Option.isSome_iff_exists.1 hsome
  obtain ⟨b, hb, hba⟩ := (Option.any_eq_true _ _).1 hany
  have hmapped : (Tiny.host [0x90, 0x90]).wordMapped 2 (Tiny.textAddr + 1) = true := by
    decide +kernel
  obtain ⟨s', hd, hlist⟩ := (delete_listed_iff hr hrun hb true htext).2
    ⟨by decide, c, hc, of_decide_eq_true hba ▸ hmapped⟩
  exact ⟨s, s', b, hlen, hb, hd, hlist⟩

/-- Eleven one-byte instructions. -/
def Tiny.eleven : List Byte := List.replicate 11 0x90

/-- **An id that cannot be used.**  The last of eleven is listed as `a`; `delete a` deletes the
first one. -/
theorem delete_listed_fails : ∃ (s s' : Sdb Nat) (b : Bp),
    Reachable (Tiny.host Tiny.eleven) s ∧ s.state = .running ∧ s.bpList[10]? = some b ∧
    listedId s 10 = some ['a'] ∧
    Does (Tiny.host Tiny.eleven) (list s) (parse ("delete ".toList ++ ['a'])) s' ∧
    s'.bpList.map Bp.addr ≠ (reindex (s.bpList.eraseIdx 10)).map Bp.addr ∧
    ¬ ∃ s', Does (Tiny.host Tiny.eleven) (list s) (parse ("delete ".toList ++ ['a'])) s' ∧
      s'.bpList = reindex (s.bpList.eraseIdx 10) := by
  obtain ⟨s, hr, hp⟩ := script_reaches (Tiny.host Tiny.eleven) (fun _ ↦ True) 1
    (.load "a.out" :: .start ::
      (List.range 11).map fun i ↦ .break (Tiny.textAddr + BitVec.ofNat 64 i))
    (fun s ↦ s.state = .running ∧ listedId s 10 = some ['a'] ∧ s.bpList[10]?.isSome = true ∧
      ((script (Tiny.host Tiny.eleven) 1 [parse ("delete ".toList ++ ['a'])] (list s)).any fun s' ↦
        s'.bpList.map Bp.addr ≠ (reindex (s.bpList.eraseIdx 10)).map Bp.addr) = true)
    (fun _ _ ↦ trivial) (by decide +kernel)
  obtain ⟨hrun, htext, hsome, hany⟩ := of_decide_eq_true hp
  obtain ⟨b, hb⟩ := Option.isSome_iff_exists.1 hsome
  obtain ⟨s', hs', hne⟩ := (Option.any_eq_true _ _).1 hany
  replace hne := of_decide_eq_true hne
  refine ⟨s, s', b, hr, hrun, hb, htext, does_of_script hs', hne, ?_⟩
  rintro ⟨s₂, ⟨fuel, hd⟩, hlist⟩
  obtain ⟨fuel', hd'⟩ := does_of_script hs'
  rw [show parse ("delete ".toList ++ ['a']) = .delete 0 by decide +kernel] at hd hd'
  have hsame : exec (Tiny.host Tiny.eleven) fuel (.delete 0) (list s)
      = exec (Tiny.host Tiny.eleven) fuel' (.delete 0) (list s) := rfl
  rw [hd, hd'] at hsame
  rw [Except.ok.inj (Option.some.inj hsame)] at hlist
  exact hne (congrArg (List.map Bp.addr) hlist)

end Sdb
