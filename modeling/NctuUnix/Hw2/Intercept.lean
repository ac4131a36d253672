import NctuUnix.Lib.Bytes
import NctuUnix.Lib.CString
import NctuUnix.Lib.Run

/-!
# The wrappers of `logger.so`

`hw2_so.c` puts a function of its own in front of each function of the C library that it watches.
The six of them that are given a descriptor or a stream look up the name of the file; the four that
are given a buffer show its beginning as well.  Every call writes one line to the log.

The name is kept in a static array, one for each wrapper, that is written when `readlink` succeeds
and left alone when it does not.  The buffer is looked at *before* the original function is called,
and without regard to how many bytes it has: up to 31 bytes, or up to the first null byte.  Where
one of them is not mapped the process ends there, and the call leaves no line.

## Main results

* `records_iff` — the content in a line is a function of the bytes that the call transfers if and
  only if the call gives its bytes away, and they fill the copy or have a null byte among them.  No
  call that reads is such a call.
* `names_iff` — in a run every name is that of the call's own file if and only if no call on a
  descriptor that is not open comes after one on an open descriptor through the same wrapper.
-/

set_option autoImplicit false

namespace Logger

open Input CString Bytes Transition

/-! ## What is shown of a buffer -/

/-- `isprint`, as it is without `setlocale`; what is negative as a `char` is not printable. -/
def isprint (b : Byte) : Bool := decide (0x20 ≤ b.toNat) && decide (b.toNat < 0x7f)

/-- A byte as a character. -/
def chr (b : Byte) : Char := Char.ofNat b.toNat

/-- The memory of a process; `none`: nothing can be read there. -/
abbrev Memory : Type := Addr → Option Byte

/-- The loop of `charBuf`, with `n` rounds to go; `none`: it reads where nothing can be read, and
the process ends. -/
def charBufLoop (m : Memory) (ptr : Addr) (char_buf : Text) (i : ℕ) : ℕ → Option Text
  | 0 => some char_buf
  | n + 1 =>
    match m (ptr + BitVec.ofNat 64 i) with
    | none => none
    | some b =>
      if isprint b then charBufLoop m ptr (char_buf.set i (chr b)) (i + 1) n
      else if b = 0 then some (char_buf.set i nul)
      else charBufLoop m ptr (char_buf.set i '.') (i + 1) n

/-- The array after `charBuf(ptr, char_buf)`. -/
def charBuf (m : Memory) (ptr : Addr) (char_buf : Text) : Option Text :=
  (charBufLoop m ptr char_buf 0 31).map (·.set 31 nul)

/-- The `n` bytes at an address, or as many as can be read. -/
def bytesAt (m : Memory) (a : Addr) : ℕ → List Byte
  | 0 => []
  | n + 1 =>
    match m a with
    | none => []
    | some b => b :: bytesAt m (a + 1) n

/-- What a byte looks like. -/
def glyph (b : Byte) : Char := if isprint b then chr b else if b = 0 then nul else '.'

/-- Bytes up to the first null byte. -/
def visible (bs : List Byte) : Text := (bs.takeWhile (· != 0)).map glyph

/-- What should be shown of some bytes. -/
def shown (bs : List Byte) : Text := visible (bs.take 31)

/-- Some bytes are enough for a copy of `n` characters: they fill it, or there is a null byte among
them. -/
def Enough (n : ℕ) (bs : List Byte) : Prop := n ≤ bs.length ∨ 0 ∈ bs

instance (n : ℕ) (bs : List Byte) : Decidable (Enough n bs) :=
  inferInstanceAs (Decidable (n ≤ bs.length ∨ 0 ∈ bs))

/-! ## Calls -/

/-- The functions that look up the name of a file. -/
inductive Func
  | close | read | write | fclose | fread | fwrite
  deriving DecidableEq, Repr

/-- A call of one of them. -/
inductive Call
  | close (fd : ℤ)
  | read (fd : ℤ) (buf : Addr) (count : Word)
  | write (fd : ℤ) (buf : Addr) (count : Word)
  | fclose (stream : Addr)
  | fread (ptr : Addr) (size nmemb : Word) (stream : Addr)
  | fwrite (ptr : Addr) (size nmemb : Word) (stream : Addr)
  deriving DecidableEq, Repr

def Call.func : Call → Func
  | .close _ => .close
  | .read .. => .read
  | .write .. => .write
  | .fclose _ => .fclose
  | .fread .. => .fread
  | .fwrite .. => .fwrite

/-- What `/proc/self/fd/N` can link to. -/
structure Link where
  path : Text
  ne_nil : path ≠ []
  noNul : nul ∉ path

/-- An intercepted call, with everything it finds. -/
structure Event where
  call : Call
  /-- The memory before the call. -/
  mem : Memory
  /-- The descriptors that are open. -/
  readlink : ℤ → Option Link
  fileno : Addr → ℤ
  /-- The array on the stack, which is not initialised. -/
  char_buf : Text
  length_char_buf : char_buf.length = 32
  /-- What the original function returns. -/
  ret : ℤ
  /-- What the original function puts into the buffer, if it reads. -/
  data : List Byte

/-- A line of the log, one constructor for each format. -/
inductive Line
  | closed (func : Func) (link_dest : Text) (ret : ℤ)
  | bytes (func : Func) (link_dest char_buf : Text) (count : ℕ) (ret : ℤ)
  | items (func : Func) (char_buf : Text) (size nmemb : ℕ) (link_dest : Text) (ret : ℤ)
  deriving DecidableEq, Repr

/-- `__func__` -/
def Func.name : Func → Text
  | .close => "close".toList
  | .read => "read".toList
  | .write => "write".toList
  | .fclose => "fclose".toList
  | .fread => "fread".toList
  | .fwrite => "fwrite".toList

/-- What the formats make of it. -/
def Line.text : Line → Text
  | .closed f name ret =>
    "[logger] ".toList ++ f.name ++ "(\"".toList ++ name ++ "\") = ".toList ++
      (toString ret).toList ++ ['\n']
  | .bytes f name content count ret =>
    "[logger] ".toList ++ f.name ++ "(\"".toList ++ name ++ "\", \"".toList ++ content ++
      "\", ".toList ++ Nat.toDigits 10 count ++ ") = ".toList ++ (toString ret).toList ++ ['\n']
  | .items f content size nmemb name ret =>
    "[logger] ".toList ++ f.name ++ "(\"".toList ++ content ++ "\", ".toList ++
      Nat.toDigits 10 size ++ ", ".toList ++ Nat.toDigits 10 nmemb ++ ", \"".toList ++ name ++
      "\") = ".toList ++ (toString ret).toList ++ ['\n']

/-- The file that is shown. -/
def Line.file : Line → Text
  | .closed _ name _ => name
  | .bytes _ name _ _ _ => name
  | .items _ _ _ _ name _ => name

/-- The content that is shown. -/
def Line.content : Line → Option Text
  | .closed .. => none
  | .bytes _ _ content _ _ => some content
  | .items _ content _ _ _ _ => some content

/-! ## The library -/

def PATH_MAX : ℕ := 4096

/-- What the library keeps in a process. -/
structure Lib where
  /-- The static array of each wrapper. -/
  link_dest : Func → Text
  /-- What it has printed itself. -/
  stdout : Text
  log : List Line

/-- Static arrays are zero at first. -/
def Lib.init : Lib := ⟨fun _ ↦ List.replicate PATH_MAX nul, [], []⟩

/-- `getFileNameByFd(fd, link_dest)` in wrapper `f`. -/
def getFileNameByFd (e : Event) (f : Func) (fd : ℤ) (l : Lib) : Lib :=
  match e.readlink fd with
  | none => { l with stdout := l.stdout ++ "fail to read link\n".toList }
  | some link =>
    { l with
      link_dest := Function.update l.link_dest f
        (overwrite (link.path.take (PATH_MAX - 1) ++ [nul]) (l.link_dest f)) }

/-- The macro `log`. -/
def Lib.output (line : Line) (l : Lib) : Lib := { l with log := l.log ++ [line] }

/-- A wrapper without a buffer. -/
def closing (f : Func) (e : Event) (fd : ℤ) (l : Lib) : Lib :=
  let l := getFileNameByFd e f fd l
  -- the original function is called here
  l.output (.closed f (cstr (l.link_dest f)) e.ret)

/-- A wrapper with a buffer of bytes. -/
def transferring (f : Func) (e : Event) (fd : ℤ) (buf : Addr) (count : Word) (l : Lib) :
    Option Lib :=
  (charBuf e.mem buf e.char_buf).map fun char_buf ↦
    let l := getFileNameByFd e f fd l
    -- the original function is called here, with the buffer already copied
    l.output (.bytes f (cstr (l.link_dest f)) (cstr char_buf) count.toNat e.ret)

/-- A wrapper with a buffer of items. -/
def streaming (f : Func) (e : Event) (ptr : Addr) (size nmemb : Word) (stream : Addr) (l : Lib) :
    Option Lib :=
  (charBuf e.mem ptr e.char_buf).map fun char_buf ↦
    let l := getFileNameByFd e f (e.fileno stream) l
    -- the original function is called here, with the buffer already copied
    l.output (.items f (cstr char_buf) size.toNat nmemb.toNat (cstr (l.link_dest f)) e.ret)

def fclose (e : Event) (stream : Addr) : Lib → Lib := closing .fclose e (e.fileno stream)

def fread (e : Event) (ptr : Addr) (size nmemb : Word) (stream : Addr) : Lib → Option Lib :=
  streaming .fread e ptr size nmemb stream

def fwrite (e : Event) (ptr : Addr) (size nmemb : Word) (stream : Addr) : Lib → Option Lib :=
  streaming .fwrite e ptr size nmemb stream

def close (e : Event) (fd : ℤ) : Lib → Lib := closing .close e fd

def read (e : Event) (fd : ℤ) (buf : Addr) (count : Word) : Lib → Option Lib :=
  transferring .read e fd buf count

def write (e : Event) (fd : ℤ) (buf : Addr) (count : Word) : Lib → Option Lib :=
  transferring .write e fd buf count

/-- An intercepted call; `none`: the process ends in the wrapper. -/
def Lib.call (l : Lib) (e : Event) : Option Lib :=
  match e.call with
  | .close fd => some (close e fd l)
  | .read fd buf count => read e fd buf count l
  | .write fd buf count => write e fd buf count l
  | .fclose stream => some (fclose e stream l)
  | .fread ptr size nmemb stream => fread e ptr size nmemb stream l
  | .fwrite ptr size nmemb stream => fwrite e ptr size nmemb stream l

/-- A sequence of calls, as far as the process comes. -/
def Lib.calls (l : Lib) : List Event → Lib
  | [] => l
  | e :: es =>
    match l.call e with
    | none => l
    | some l' => l'.calls es

/-- A sequence of calls in a process. -/
def run (es : List Event) : Lib := Lib.init.calls es

/-! ## What a call is about -/

/-- The descriptor. -/
def Event.fd (e : Event) : ℤ :=
  match e.call with
  | .close fd => fd
  | .read fd _ _ => fd
  | .write fd _ _ => fd
  | .fclose stream => e.fileno stream
  | .fread _ _ _ stream => e.fileno stream
  | .fwrite _ _ _ stream => e.fileno stream

/-- The descriptor is open. -/
def Event.Open (e : Event) : Prop := (e.readlink e.fd).isSome = true

/-- The name of the file, as far as it is a function of the descriptor and the descriptor table;
there is none if the descriptor is not open. -/
def fileOf (fd : ℤ) (readlink : ℤ → Option Link) : Text :=
  ((readlink fd).map fun link ↦ link.path.take (PATH_MAX - 1)).getD []

/-- The buffer, and how many bytes the call gives away; `none`: it does not give any. -/
def Call.given : Call → Option (Addr × ℕ)
  | .write _ buf count => some (buf, count.toNat)
  | .fwrite ptr size nmemb _ => some (ptr, size.toNat * nmemb.toNat)
  | _ => none

/-- The buffer of a call that reads. -/
def Call.filled : Call → Option Addr
  | .read _ buf _ => some buf
  | .fread ptr _ _ _ => some ptr
  | _ => none

/-- The bytes that a call transfers: the data that is read, or the bytes that are given away, as far
as there are any; `none`: it is not there for that. -/
def Event.transferred (e : Event) : Option (List Byte) :=
  (e.call.given.map fun g ↦ bytesAt e.mem g.1 g.2).or (e.call.filled.map fun _ ↦ e.data)

/-- The buffer of a call. -/
def Call.buffer (c : Call) : Option Addr := (c.given.map Prod.fst).or c.filled

/-- All that is looked at of the buffer can be read. -/
def Event.Readable (e : Event) : Prop := ∀ buf ∈ e.call.buffer, Enough 31 (bytesAt e.mem buf 31)

instance (e : Event) : Decidable e.Readable :=
  Option.decidableForallMem e.call.buffer

variable {e e' : Event} {l : Lib} {f : Func} {m : Memory} {a : Addr} {n : ℕ}

/-! ## The copy of the buffer -/

theorem chr_ne_nul {b : Byte} (h : isprint b = true) : chr b ≠ nul := by
  revert b
  decide

theorem bytesAt_none (h : m a = none) (n : ℕ) : bytesAt m a n = [] := by
  rcases n with _ | n
  · rfl
  · rw [bytesAt, h]

theorem bytesAt_some {b : Byte} (h : m a = some b) (n : ℕ) :
    bytesAt m a (n + 1) = b :: bytesAt m (a + 1) n := by
  rw [bytesAt, h]

theorem length_bytesAt_le (m : Memory) (n : ℕ) : ∀ a, (bytesAt m a n).length ≤ n := by
  induction n with
  | zero => exact fun _ ↦ Nat.le_refl 0
  | succ n ih =>
    intro a
    rcases h : m a with _ | b
    · rw [bytesAt_none h]
      exact Nat.zero_le _
    · rw [bytesAt_some h]
      exact Nat.succ_le_succ (ih (a + 1))

/-- The first ones of some bytes are those that stand there when fewer are asked for. -/
theorem bytesAt_take (m : Memory) (n : ℕ) : ∀ (a : Addr) (k : ℕ),
    (bytesAt m a n).take k = bytesAt m a (min k n) := by
  induction n with
  | zero => exact fun a k ↦ by rw [Nat.min_zero, bytesAt, List.take_nil]
  | succ n ih =>
    intro a k
    rcases k with _ | k
    · rw [List.take_zero, Nat.zero_min, bytesAt]
    · rw [Nat.succ_min_succ]
      rcases h : m a with _ | b
      · rw [bytesAt_none h, bytesAt_none h, List.take_nil]
      · rw [bytesAt_some h, bytesAt_some h, List.take_succ_cons, ih]

/-- Behind bytes that can be read stands what stands there. -/
theorem bytesAt_add (m : Memory) (k n : ℕ) : ∀ a : Addr, (bytesAt m a n).length = n →
    bytesAt m a (n + k) = bytesAt m a n ++ bytesAt m (a + BitVec.ofNat 64 n) k := by
  induction n with
  | zero => exact fun a _ ↦ by simp [bytesAt]
  | succ n ih =>
    intro a hlen
    rcases h : m a with _ | b
    · rw [bytesAt_none h] at hlen
      exact absurd hlen (Nat.succ_ne_zero n).symm
    · rw [bytesAt_some h, List.length_cons, Nat.succ.injEq] at hlen
      rw [Nat.add_right_comm, bytesAt_some h, bytesAt_some h, ih _ hlen, BitVec.add_assoc,
        BitVec.add_comm 1, BitVec.ofNat_add n 1]
      rfl

/-- What cannot be read ends the bytes. -/
theorem bytesAt_short (m : Memory) (n k : ℕ) : ∀ a : Addr, (bytesAt m a n).length < n →
    bytesAt m a (n + k) = bytesAt m a n := by
  induction n with
  | zero => exact fun a h ↦ absurd h (Nat.not_lt_zero _)
  | succ n ih =>
    intro a hlen
    rcases h : m a with _ | b
    · rw [bytesAt_none h, bytesAt_none h]
    · rw [bytesAt_some h, List.length_cons, Nat.succ_lt_succ_iff] at hlen
      rw [Nat.add_right_comm, bytesAt_some h, bytesAt_some h, ih _ hlen]

theorem bytesAt_congr {m' : Memory} (n : ℕ) : ∀ a : Addr,
    (∀ i < n, m' (a + BitVec.ofNat 64 i) = m (a + BitVec.ofNat 64 i)) →
      bytesAt m' a n = bytesAt m a n := by
  induction n with
  | zero => exact fun _ _ ↦ rfl
  | succ n ih =>
    intro a hsame
    have hhere : m' a = m a := by simpa using hsame 0 (Nat.zero_lt_succ n)
    have hbehind : bytesAt m' (a + 1) n = bytesAt m (a + 1) n := by
      refine ih (a + 1) fun i hi ↦ ?_
      have hnext : a + 1 + BitVec.ofNat 64 i = a + BitVec.ofNat 64 (i + 1) := by
        rw [BitVec.add_assoc, BitVec.add_comm 1, BitVec.ofNat_add i 1]
        rfl
      rw [hnext]
      exact hsame (i + 1) (Nat.succ_lt_succ hi)
    rw [bytesAt, bytesAt, hhere, hbehind]

theorem visible_cons (b : Byte) (bs : List Byte) :
    visible (b :: bs) = if b = 0 then [] else glyph b :: visible bs := by
  rw [visible, List.takeWhile_cons]
  by_cases h : b = 0
  · rw [if_pos h, if_neg (by simp [h])]
    rfl
  · rw [if_neg h, if_pos (by simpa using h)]
    rfl

theorem enough_cons_iff {b : Byte} (h : b ≠ 0) {bs : List Byte} :
    Enough (n + 1) (b :: bs) ↔ Enough n bs := by
  rw [Enough, Enough, List.length_cons, Nat.succ_le_succ_iff, List.mem_cons, or_iff_right h.symm]

/-- The loop writes behind what it has written, and leaves the last element of the array alone. -/
theorem charBufLoop_spec (m : Memory) (ptr : Addr) (n : ℕ) : ∀ pre old : Text, old.length = n + 1 →
    (Enough n (bytesAt m (ptr + BitVec.ofNat 64 pre.length) n) →
      ∃ new, charBufLoop m ptr (pre ++ old) pre.length n = some (pre ++ new) ∧ new.length = n + 1 ∧
        cstr (new.set n nul) = visible (bytesAt m (ptr + BitVec.ofNat 64 pre.length) n)) ∧
    (¬ Enough n (bytesAt m (ptr + BitVec.ofNat 64 pre.length) n) →
      charBufLoop m ptr (pre ++ old) pre.length n = none) := by
  induction n with
  | zero =>
    intro pre old hold
    refine ⟨fun _ ↦ ⟨old, rfl, hold, ?_⟩, fun h ↦ absurd (.inl (Nat.zero_le _)) h⟩
    obtain ⟨x, rfl⟩ := List.length_eq_one_iff.1 hold
    rfl
  | succ n ih =>
    intro pre old hold
    obtain ⟨x, old, rfl⟩ := List.exists_cons_of_length_eq_add_one hold
    have hset (c : Char) : (pre ++ x :: old).set pre.length c = pre ++ c :: old := by simp
    rcases hb : m (ptr + BitVec.ofNat 64 pre.length) with _ | b
    · -- the byte cannot be read
      rw [charBufLoop, hb, bytesAt_none hb]
      exact ⟨fun h ↦ absurd h (by simp [Enough]), fun _ ↦ rfl⟩
    · -- what the next rounds do behind a character that is written here
      have hnext (c : Char) := ih (pre ++ [c]) old (Nat.succ.inj hold)
      simp only [List.append_assoc, List.singleton_append, List.length_append,
        List.length_singleton, BitVec.ofNat_add, ← BitVec.add_assoc] at hnext
      have hwrite (c : Char) (hc : c ≠ nul) (hglyph : glyph b = c) (h0 : b ≠ 0) :
          (Enough (n + 1) (b :: bytesAt m (ptr + BitVec.ofNat 64 pre.length + 1) n) →
            ∃ new, charBufLoop m ptr (pre ++ c :: old) (pre.length + 1) n = some (pre ++ new) ∧
              new.length = n + 2 ∧ cstr (new.set (n + 1) nul) =
                visible (b :: bytesAt m (ptr + BitVec.ofNat 64 pre.length + 1) n)) ∧
          (¬ Enough (n + 1) (b :: bytesAt m (ptr + BitVec.ofNat 64 pre.length + 1) n) →
            charBufLoop m ptr (pre ++ c :: old) (pre.length + 1) n = none) := by
        obtain ⟨hsome, hnone⟩ := hnext c
        rw [enough_cons_iff h0]
        refine ⟨fun h ↦ ?_, hnone⟩
        obtain ⟨new, hloop, hlen, hstr⟩ := hsome h
        refine ⟨c :: new, hloop, by rw [List.length_cons, hlen], ?_⟩
        rw [List.set_cons_succ, cstr, List.takeWhile_cons_of_pos (by simpa using hc), visible_cons,
          if_neg h0, hglyph]
        exact congrArg (c :: ·) hstr
      rw [charBufLoop, hb, bytesAt_some hb]
      simp only [hset]
      by_cases hprint : isprint b = true
      · rw [if_pos hprint]
        refine hwrite _ (chr_ne_nul hprint) (if_pos hprint) fun h0 ↦ ?_
        rw [h0] at hprint
        exact absurd hprint (by decide)
      · rw [if_neg hprint]
        by_cases h0 : b = 0
        · rw [if_pos h0, visible_cons, if_pos h0]
          exact ⟨fun _ ↦ ⟨nul :: old, rfl, hold, rfl⟩,
            fun h ↦ absurd (.inr (h0 ▸ List.mem_cons_self)) h⟩
        · rw [if_neg h0]
          exact hwrite '.' (by decide) (by rw [glyph, if_neg hprint, if_neg h0]) h0

/-- The copy shows 31 bytes, or those up to the first null byte; all of them have to be there. -/
theorem map_charBuf (m : Memory) (ptr : Addr) {char_buf : Text} (h : char_buf.length = 32)
    {α : Type} (g : Text → α) : (charBuf m ptr char_buf).map (fun t ↦ g (cstr t)) =
      if Enough 31 (bytesAt m ptr 31) then some (g (visible (bytesAt m ptr 31))) else none := by
  have hspec := charBufLoop_spec m ptr 31 [] char_buf h
  rw [List.length_nil, BitVec.add_zero, List.nil_append] at hspec
  split
  · rename_i henough
    obtain ⟨new, hloop, -, hstr⟩ := hspec.1 henough
    rw [charBuf, hloop, Option.map_some, Option.map_some, List.nil_append, hstr]
  · rename_i hshort
    rw [charBuf, hspec.2 hshort]
    rfl

/-! ## Bytes that are enough

A copy that shows some bytes shows all of them or a null byte, so what stands behind them does not
matter.  Where they are not enough it goes on. -/

theorem visible_append {bs : List Byte} (h : 0 ∉ bs) (cs : List Byte) :
    visible (bs ++ cs) = visible bs ++ visible cs := by
  induction bs with
  | nil => rfl
  | cons b bs ih =>
    rw [List.mem_cons, not_or] at h
    rw [List.cons_append, visible_cons, visible_cons, if_neg (Ne.symm h.1), if_neg (Ne.symm h.1),
      ih h.2, List.cons_append]

theorem visible_append_of_mem {bs : List Byte} (h : 0 ∈ bs) (cs : List Byte) :
    visible (bs ++ cs) = visible bs := by
  induction bs with
  | nil => exact absurd h List.not_mem_nil
  | cons b bs ih =>
    rw [List.cons_append, visible_cons, visible_cons]
    split
    · rfl
    · rename_i h0
      rw [ih ((List.mem_cons.1 h).resolve_left (Ne.symm h0))]

theorem Enough.take {bs : List Byte} (h : Enough n bs) : Enough n (bs.take n) := by
  rcases Nat.lt_or_ge bs.length n with hlt | hge
  · rwa [List.take_of_length_le hlt.le]
  · exact .inl (by rw [List.length_take, Nat.min_eq_left hge])

/-- Enough bytes of a buffer let the copy be made, and it shows them. -/
theorem Enough.copy {buf : Addr} (h : Enough 31 (bytesAt m buf n)) :
    Enough 31 (bytesAt m buf 31) ∧ visible (bytesAt m buf 31) = shown (bytesAt m buf n) := by
  have htake : (bytesAt m buf n).take 31 = (bytesAt m buf 31).take n := by
    rw [bytesAt_take, bytesAt_take, Nat.min_comm]
  have hsplit := List.take_append_drop n (bytesAt m buf 31)
  rw [← htake] at hsplit
  have hfirst := h.take
  rw [shown, ← hsplit]
  rcases hfirst with hlen | hnul
  · have hrest : (bytesAt m buf 31).drop n = [] := by
      have hle := length_bytesAt_le m 31 buf
      rw [← hsplit, List.length_append] at hle
      exact List.eq_nil_of_length_eq_zero (by omega)
    rw [hrest, List.append_nil]
    exact ⟨.inl hlen, rfl⟩
  · exact ⟨.inr (List.mem_append_left _ hnul), visible_append_of_mem hnul _⟩

/-- Two memories with the same addresses in them. -/
def SamePages (m m' : Memory) : Prop := ∀ a, (m a).isSome = (m' a).isSome

theorem samePages_refl (m : Memory) : SamePages m m := fun _ ↦ rfl

theorem samePages_update {b c : Byte} (h : m a = some b) :
    SamePages (Function.update m a (some c)) m := by
  intro a'
  by_cases ha : a' = a
  · rw [ha, Function.update_self, h]
    rfl
  · rw [Function.update_of_ne ha]

/-- Where the bytes of a buffer are not enough, something can stand behind them that the copy shows,
or the copy cannot be made. -/
theorem exists_behind {buf : Addr} (h : ¬ Enough 31 (bytesAt m buf n)) : ∃ m', SamePages m' m ∧
    bytesAt m' buf n = bytesAt m buf n ∧ (Enough 31 (bytesAt m' buf 31) →
      visible (bytesAt m' buf 31) ≠ shown (bytesAt m buf n)) := by
  rw [Enough, not_or, Nat.not_le] at h
  obtain ⟨hlen, hnul⟩ := h
  -- the bytes end where nothing can be read
  have hend (hall : bytesAt m buf (n + 31) = bytesAt m buf n) : ¬ Enough 31 (bytesAt m buf 31) := by
    have htake : bytesAt m buf 31 = bytesAt m buf n := by
      have hfirst := bytesAt_take m (n + 31) buf 31
      rwa [hall, List.take_of_length_le hlen.le, Nat.min_eq_left (by omega), eq_comm] at hfirst
    rw [htake, Enough, not_or, Nat.not_le]
    exact ⟨hlen, hnul⟩
  rcases Nat.lt_or_eq_of_le (length_bytesAt_le m n buf) with hlt | hn
  · exact ⟨m, samePages_refl m, rfl, fun h ↦ absurd h (hend (bytesAt_short m n 31 buf hlt))⟩
  rcases hbehind : m (buf + BitVec.ofNat 64 n) with _ | b
  · refine ⟨m, samePages_refl m, rfl, fun h ↦ absurd h (hend ?_)⟩
    rw [bytesAt_add m 31 n buf hn, bytesAt_none hbehind, List.append_nil]
  · -- an `x` right behind them
    have hsame : bytesAt (Function.update m (buf + BitVec.ofNat 64 n) (some 0x78)) buf n =
        bytesAt m buf n := by
      refine bytesAt_congr n buf fun i hi ↦ Function.update_of_ne (fun heq ↦ ?_) ..
      have hoff : BitVec.ofNat 64 i = BitVec.ofNat 64 n := (BitVec.add_right_inj buf).1 heq
      have hnat := congrArg BitVec.toNat hoff
      rw [BitVec.toNat_ofNat, BitVec.toNat_ofNat, Nat.mod_eq_of_lt (by omega),
        Nat.mod_eq_of_lt (by omega)] at hnat
      omega
    refine ⟨_, samePages_update hbehind, hsame, fun _ ↦ ?_⟩
    have hsplit := bytesAt_add (Function.update m (buf + BitVec.ofNat 64 n) (some 0x78))
      (30 - n + 1) n buf (by rw [hsame, hn])
    rw [show n + (30 - n + 1) = 31 by omega, hsame,
      bytesAt_some (Function.update_self ..)] at hsplit
    rw [hsplit, visible_append hnul, visible_cons, if_neg (by decide), shown,
      List.take_of_length_le hlen.le]
    exact fun heq ↦ List.cons_ne_nil _ _ (List.append_right_eq_self.1 heq)

/-- Where a byte of a buffer can be read, something can stand there that the copy shows and that a
given text does not begin with. -/
theorem exists_before {buf : Addr} {b : Byte} (h : m buf = some b) (t : Text) :
    ∃ m', SamePages m' m ∧ visible (bytesAt m' buf 31) ≠ t := by
  have hother (c : Byte) (hc : c ≠ 0) (ht : t.head? ≠ some (glyph c)) :
      visible (bytesAt (Function.update m buf (some c)) buf 31) ≠ t := by
    intro heq
    rw [bytesAt_some (Function.update_self ..), visible_cons, if_neg hc] at heq
    exact ht (heq ▸ rfl)
  by_cases hx : t.head? = some 'x'
  · exact ⟨_, samePages_update h, hother 0x79 (by decide) (by rw [hx]; decide)⟩
  · exact ⟨_, samePages_update h, hother 0x78 (by decide) hx⟩

/-! ## What the log records -/

/-- The content in the line of a call; `none`: there is no line. -/
def Lib.content? (l : Lib) (e : Event) : Option (Option Text) :=
  (l.call e).map fun l' ↦ l'.log.getLast?.bind Line.content

/-- The same call with something else in the memory. -/
def Event.withMem (e : Event) (m : Memory) : Event := { e with mem := m }

/-- **The log records what a call transfers**: whatever the memory has in it before the call, as
long as the call transfers the same, there is a line, and it shows that and nothing else. -/
def Records (l : Lib) (e : Event) : Prop :=
  ∀ m, SamePages m e.mem → (e.withMem m).transferred = e.transferred →
    l.content? (e.withMem m) = some (e.transferred.map shown)

/-- The call has no buffer, or it gives its bytes away and they are enough. -/
structure Clean (e : Event) : Prop where
  filled : e.call.filled = none
  enough : ∀ bs ∈ e.transferred, Enough 31 bs

theorem log_getFileNameByFd (fd : ℤ) : (getFileNameByFd e f fd l).log = l.log := by
  rw [getFileNameByFd]
  split <;> rfl

theorem transferring_eq (e : Event) (f : Func) (fd : ℤ) (buf : Addr) (count : Word) (l : Lib) :
    transferring f e fd buf count l =
      if Enough 31 (bytesAt e.mem buf 31) then
        some ((getFileNameByFd e f fd l).output
          (.bytes f (cstr ((getFileNameByFd e f fd l).link_dest f))
            (visible (bytesAt e.mem buf 31)) count.toNat e.ret))
      else none :=
  map_charBuf e.mem buf e.length_char_buf fun t ↦ (getFileNameByFd e f fd l).output
    (.bytes f (cstr ((getFileNameByFd e f fd l).link_dest f)) t count.toNat e.ret)

theorem streaming_eq (e : Event) (f : Func) (ptr : Addr) (size nmemb : Word) (stream : Addr)
    (l : Lib) : streaming f e ptr size nmemb stream l =
      if Enough 31 (bytesAt e.mem ptr 31) then
        some ((getFileNameByFd e f (e.fileno stream) l).output
          (.items f (visible (bytesAt e.mem ptr 31)) size.toNat nmemb.toNat
            (cstr ((getFileNameByFd e f (e.fileno stream) l).link_dest f)) e.ret))
      else none :=
  map_charBuf e.mem ptr e.length_char_buf fun t ↦
    (getFileNameByFd e f (e.fileno stream) l).output (.items f t size.toNat nmemb.toNat
      (cstr ((getFileNameByFd e f (e.fileno stream) l).link_dest f)) e.ret)

theorem readable_iff {buf : Addr} (h : e.call.buffer = some buf) :
    e.Readable ↔ Enough 31 (bytesAt e.mem buf 31) := by
  rw [Event.Readable, h]
  exact ⟨fun hall ↦ hall buf rfl, fun hbuf b hb ↦ Option.some.inj hb ▸ hbuf⟩

/-- A call comes to its end if and only if what is looked at of its buffer can be read, and then it
logs one line.  The content in the line is what lies in the buffer before the call. -/
theorem call_eq (l : Lib) (e : Event) : ∃ line : Line,
    l.call e =
      (if e.Readable then some ((getFileNameByFd e e.call.func e.fd l).output line) else none) ∧
    line.file = cstr ((getFileNameByFd e e.call.func e.fd l).link_dest e.call.func) ∧
    line.content = e.call.buffer.map fun buf ↦ visible (bytesAt e.mem buf 31) := by
  have hnone (hbuf : e.call.buffer = none) : e.Readable := by
    rw [Event.Readable, hbuf]
    exact fun _ h ↦ absurd h (Option.not_mem_none _)
  have hsome {buf : Addr} (hbuf : e.call.buffer = some buf) := readable_iff hbuf
  rw [Lib.call, Event.fd]
  rcases hcall : e.call with fd | ⟨fd, buf, count⟩ | ⟨fd, buf, count⟩ | stream |
    ⟨ptr, size, nmemb, stream⟩ | ⟨ptr, size, nmemb, stream⟩ <;>
    rw [hcall] at hnone hsome
  · exact ⟨_, (if_pos (hnone rfl)).symm, rfl, rfl⟩
  · simp only [hsome rfl]
    exact ⟨_, transferring_eq e .read fd buf count l, rfl, rfl⟩
  · simp only [hsome rfl]
    exact ⟨_, transferring_eq e .write fd buf count l, rfl, rfl⟩
  · exact ⟨_, (if_pos (hnone rfl)).symm, rfl, rfl⟩
  · simp only [hsome rfl]
    exact ⟨_, streaming_eq e .fread ptr size nmemb stream l, rfl, rfl⟩
  · simp only [hsome rfl]
    exact ⟨_, streaming_eq e .fwrite ptr size nmemb stream l, rfl, rfl⟩

theorem content?_eq (l : Lib) (e : Event) : l.content? e = if e.Readable then
    some (e.call.buffer.map fun buf ↦ visible (bytesAt e.mem buf 31)) else none := by
  obtain ⟨line, hcall, -, hcontent⟩ := call_eq l e
  rw [Lib.content?, hcall, ← hcontent]
  split
  · rw [Option.map_some, Lib.output, List.getLast?_append_of_ne_nil _ (by simp)]
    rfl
  · rfl

/-- A call that gives bytes away. -/
theorem records_iff_of_given {buf : Addr} (h : e.call.given = some (buf, n)) :
    Records l e ↔ Enough 31 (bytesAt e.mem buf n) := by
  have hbuf : e.call.buffer = some buf := by rw [Call.buffer, h]; rfl
  have htransferred (m : Memory) : (e.withMem m).transferred = some (bytesAt m buf n) := by
    rw [Event.transferred, show (e.withMem m).call = e.call from rfl, h]
    rfl
  have hcontent (m : Memory) : l.content? (e.withMem m) = if Enough 31 (bytesAt m buf 31) then
      some (some (visible (bytesAt m buf 31))) else none := by
    have hread : (e.withMem m).Readable ↔ Enough 31 (bytesAt m buf 31) := readable_iff hbuf
    rw [content?_eq, show (e.withMem m).call = e.call from rfl, hbuf]
    simp only [hread]
    rfl
  have hsame : e.transferred = some (bytesAt e.mem buf n) := htransferred e.mem
  rw [Records, hsame]
  refine ⟨fun hrec ↦ ?_, fun hclean m _ hm ↦ ?_⟩
  · by_contra hshort
    obtain ⟨m, hpages, hbytes, hne⟩ := exists_behind hshort
    have hline := hrec m hpages (by rw [htransferred, hbytes])
    rw [hcontent] at hline
    split at hline
    · rename_i hread
      exact hne hread (Option.some.inj (Option.some.inj hline))
    · exact absurd hline (Option.some_ne_none _).symm
  · rw [htransferred, Option.some.injEq] at hm
    rw [← hm] at hclean
    rw [hcontent, if_pos hclean.copy.1, hclean.copy.2, hm, Option.map_some]

/-- A call that reads shows what lay in the buffer, and that can be anything. -/
theorem not_records_of_filled {buf : Addr} (h : e.call.filled = some buf)
    (hgiven : e.call.given = none) : ¬ Records l e := by
  have hbuf : e.call.buffer = some buf := by rw [Call.buffer, h, hgiven]; rfl
  intro hrec
  have hline (m : Memory) (hm : SamePages m e.mem) : Enough 31 (bytesAt m buf 31) ∧
      visible (bytesAt m buf 31) = shown e.data := by
    have htransferred : (e.withMem m).transferred = e.transferred := by
      rw [Event.transferred, Event.transferred, show (e.withMem m).call = e.call from rfl, hgiven]
      rfl
    have hread : (e.withMem m).Readable ↔ Enough 31 (bytesAt m buf 31) := readable_iff hbuf
    have hcontent := hrec m hm htransferred
    rw [content?_eq, show (e.withMem m).call = e.call from rfl, hbuf] at hcontent
    split at hcontent
    · rename_i hr
      rw [Event.transferred, h, hgiven] at hcontent
      exact ⟨hread.1 hr, Option.some.inj (Option.some.inj hcontent)⟩
    · exact absurd hcontent (Option.some_ne_none _).symm
  rcases hb : e.mem buf with _ | b
  · have hshort := (hline e.mem (samePages_refl e.mem)).1
    rw [bytesAt_none hb] at hshort
    exact absurd hshort (by decide)
  · obtain ⟨m, hpages, hne⟩ := exists_before hb (shown e.data)
    exact hne (hline m hpages).2

/-- A call without a buffer. -/
theorem records_of_none (hgiven : e.call.given = none) (hfilled : e.call.filled = none) :
    Records l e := by
  have hbuf : e.call.buffer = none := by rw [Call.buffer, hgiven, hfilled]; rfl
  intro m _ _
  have hread : (e.withMem m).Readable := by
    rw [Event.Readable, show (e.withMem m).call = e.call from rfl, hbuf]
    exact fun _ h ↦ absurd h (Option.not_mem_none _)
  rw [content?_eq, if_pos hread, show (e.withMem m).call = e.call from rfl, hbuf, Event.transferred,
    hgiven, hfilled]
  rfl

theorem records_iff_clean (l : Lib) (e : Event) : Records l e ↔ Clean e := by
  have hgive {buf : Addr} {n : ℕ} (hg : e.call.given = some (buf, n)) (hf : e.call.filled = none) :
      Records l e ↔ Clean e := by
    have htransferred : e.transferred = some (bytesAt e.mem buf n) := by
      rw [Event.transferred, hg]
      rfl
    rw [records_iff_of_given hg]
    refine ⟨fun h ↦ ⟨hf, ?_⟩, fun h ↦ h.enough _ htransferred⟩
    rw [htransferred]
    exact fun bs hbs ↦ Option.some.inj hbs ▸ h
  have hfill {buf : Addr} (hf : e.call.filled = some buf) (hg : e.call.given = none) :
      Records l e ↔ Clean e :=
    iff_of_false (not_records_of_filled hf hg) fun h ↦
      Option.some_ne_none _ (hf.symm.trans h.filled)
  have hnone (hg : e.call.given = none) (hf : e.call.filled = none) : Records l e ↔ Clean e := by
    refine iff_of_true (records_of_none hg hf) ⟨hf, ?_⟩
    rw [Event.transferred, hg, hf]
    exact fun _ h ↦ absurd h (Option.not_mem_none _)
  rcases hcall : e.call with fd | ⟨fd, buf, count⟩ | ⟨fd, buf, count⟩ | stream |
    ⟨ptr, size, nmemb, stream⟩ | ⟨ptr, size, nmemb, stream⟩ <;>
    rw [hcall] at hgive hfill hnone
  · exact hnone rfl rfl
  · exact hfill rfl rfl
  · exact hgive rfl rfl
  · exact hnone rfl rfl
  · exact hfill rfl rfl
  · exact hgive rfl rfl

/-- **The log records what is transferred** if and only if the call gives its bytes away and they
are enough, and two such calls with the same bytes show the same, whatever else there is.  No line
shows anything of what is read. -/
theorem records_iff (l : Lib) (e : Event) : (Records l e ↔ Clean e) ∧
    (∀ (l' : Lib) (e' : Event), Clean e → Clean e' → e.transferred = e'.transferred →
      l.content? e = l'.content? e') ∧
    ∀ data, l.content? { e with data := data } = l.content? e := by
  have hline (l : Lib) (e : Event) (hc : Clean e) :
      l.content? e = some (e.transferred.map shown) :=
    (records_iff_clean l e).2 hc e.mem (samePages_refl e.mem) rfl
  refine ⟨records_iff_clean l e, fun l' e' hc hc' hsame ↦ ?_, fun data ↦ ?_⟩
  · rw [hline l e hc, hline l' e' hc', hsame]
  · rw [content?_eq, content?_eq]
    rfl

/-- `read(3, buf, 100)`, which reads `cccc` and a line feed into a buffer full of `x`. -/
def staleRead (x : Byte) : Event where
  call := .read 3 0x1000 100
  mem _ := some x
  readlink _ := some ⟨"/tmp/bbbb".toList, by decide, by decide⟩
  fileno _ := 3
  char_buf := List.replicate 32 nul
  length_char_buf := List.length_replicate
  ret := 5
  data := [0x63, 0x63, 0x63, 0x63, 0x0a]

/-- `write(1, buf, 1)` of an `a` with `x` behind it. -/
def longWrite (x : Byte) : Event :=
  { staleRead x with
    call := .write 1 0x1000 1
    mem := Function.update (fun _ ↦ some x) 0x1000 (some 0x61)
    ret := 1
    data := [] }

/-- The same at the end of a page, where nothing is behind it. -/
def pageWrite : Event :=
  { longWrite 0 with
    mem := Function.update (fun _ ↦ none) 0x1000 (some 0x61) }

/-- The five bytes that are read are not shown, and what lay in the buffer is; what is written is
shown with what stands behind it, and not at all where nothing can be read there. -/
theorem records_fails : (¬ Records .init (staleRead 0) ∧ ¬ Records .init (longWrite 0x78)) ∧
    ((staleRead 0).transferred = (staleRead 0x78).transferred ∧
      Lib.init.content? (staleRead 0) = some (some []) ∧
      Lib.init.content? (staleRead 0x78) = some (some (List.replicate 31 'x'))) ∧
    ((longWrite 0).transferred = (longWrite 0x78).transferred ∧
      Lib.init.content? (longWrite 0) = some (some ['a']) ∧
      Lib.init.content? (longWrite 0x78) = some (some ('a' :: List.replicate 30 'x'))) ∧
    pageWrite.transferred = (longWrite 0).transferred ∧ Lib.init.content? pageWrite = none := by
  refine ⟨⟨fun h ↦ ?_, fun h ↦ ?_⟩, ⟨rfl, ?_, ?_⟩, ⟨rfl, ?_, ?_⟩, rfl, ?_⟩
  · exact absurd ((records_iff_clean _ _).1 h).filled (by decide)
  · exact absurd (((records_iff_clean _ _).1 h).enough _ rfl) (by decide)
  all_goals
    rw [content?_eq]
    decide +kernel

/-! ## The names in the log -/

theorem link_dest_of_none {fd : ℤ} (h : e.readlink fd = none) :
    (getFileNameByFd e f fd l).link_dest = l.link_dest := by
  rw [getFileNameByFd]
  simp only [h]

theorem link_dest_of_ne {f' : Func} {fd : ℤ} (h : f' ≠ f) :
    (getFileNameByFd e f fd l).link_dest f' = l.link_dest f' := by
  rw [getFileNameByFd]
  split
  · rfl
  · exact Function.update_of_ne h ..

/-- Where `readlink` succeeds the array holds the name, whatever it held before. -/
theorem cstr_link_dest_of_some {fd : ℤ} {link : Link} (h : e.readlink fd = some link) :
    cstr ((getFileNameByFd e f fd l).link_dest f) = fileOf fd e.readlink := by
  have hnul : nul ∉ link.path.take (PATH_MAX - 1) := fun hm ↦ link.noNul (List.mem_of_mem_take hm)
  rw [getFileNameByFd, fileOf]
  simp only [h, Function.update_self, overwrite, List.append_assoc, Option.map_some,
    Option.getD_some]
  rw [cstr_append hnul, List.singleton_append, cstr_nul, List.append_nil]

theorem fileOf_ne_nil {fd : ℤ} {readlink : ℤ → Option Link} {link : Link}
    (h : readlink fd = some link) : fileOf fd readlink ≠ [] := by
  rw [fileOf, h, Option.map_some, Option.getD_some]
  intro hnil
  rcases List.take_eq_nil_iff.1 hnil with h0 | h0
  · exact absurd h0 (by decide)
  · exact link.ne_nil h0

/-- The file that is shown for a call. -/
def Lib.file (l : Lib) (e : Event) : Text :=
  cstr ((getFileNameByFd e e.call.func e.fd l).link_dest e.call.func)

theorem call_of_readable (l : Lib) (h : e.Readable) : ∃ l', l.call e = some l' ∧
    l'.link_dest = (getFileNameByFd e e.call.func e.fd l).link_dest ∧
    l'.log.map Line.file = l.log.map Line.file ++ [l.file e] := by
  obtain ⟨line, hcall, hfile, -⟩ := call_eq l e
  rw [if_pos h] at hcall
  refine ⟨_, hcall, rfl, ?_⟩
  rw [Lib.output, log_getFileNameByFd, List.map_append, List.map_singleton, hfile]
  rfl

theorem log_of_call {l' : Lib} (h : l.call e = some l') : ∃ line, l'.log = l.log ++ [line] := by
  obtain ⟨line, hcall, -⟩ := call_eq l e
  rw [hcall] at h
  split at h
  · obtain rfl := Option.some.inj h
    exact ⟨line, congrArg (· ++ [line]) (log_getFileNameByFd e.fd)⟩
  · exact absurd h (Option.some_ne_none _).symm

theorem calls_append (es es' : List Event) : ∀ l : Lib, (∀ e ∈ es, e.Readable) →
    l.calls (es ++ es') = (l.calls es).calls es' := by
  induction es with
  | nil => exact fun _ _ ↦ rfl
  | cons e es ih =>
    intro l h
    obtain ⟨l', hcall, -⟩ := call_of_readable l (h e List.mem_cons_self)
    rw [List.cons_append, Lib.calls, Lib.calls, hcall]
    exact ih l' fun e' he' ↦ h e' (List.mem_cons_of_mem _ he')

/-- A name that is written to an array stays there until another one is. -/
theorem cstr_link_dest_eq_nil_iff (f : Func) (es : List Event) : ∀ l : Lib,
    (∀ e ∈ es, e.Readable) → (cstr ((l.calls es).link_dest f) = [] ↔
      cstr (l.link_dest f) = [] ∧ ∀ e ∈ es, e.call.func = f → ¬ e.Open) := by
  induction es with
  | nil => exact fun l _ ↦ by simp [Lib.calls]
  | cons e es ih =>
    intro l h
    obtain ⟨l', hcall, hdest, -⟩ := call_of_readable l (h e List.mem_cons_self)
    have hname : cstr (l'.link_dest f) = [] ↔
        cstr (l.link_dest f) = [] ∧ (e.call.func = f → ¬ e.Open) := by
      rw [hdest, Event.Open]
      by_cases hf : e.call.func = f
      · rcases hopen : e.readlink e.fd with _ | link
        · rw [link_dest_of_none hopen]
          simp
        · rw [hf, cstr_link_dest_of_some hopen]
          exact iff_of_false (fileOf_ne_nil hopen) fun h ↦ h.2 rfl rfl
      · rw [link_dest_of_ne (Ne.symm hf)]
        simp [hf]
    rw [Lib.calls, hcall]
    rw [ih l' fun e' he' ↦ h e' (List.mem_cons_of_mem _ he'), hname, List.forall_mem_cons,
      and_assoc]

/-- The name of a call on an open descriptor is right; for another one it has to be empty. -/
theorem file_eq_iff {before : List Event} (h : ∀ e ∈ before, e.Readable) (e : Event) :
    (run before).file e = fileOf e.fd e.readlink ↔
      e.Open ∨ ∀ e' ∈ before, e'.call.func = e.call.func → ¬ e'.Open := by
  rw [Lib.file, Event.Open]
  rcases hopen : e.readlink e.fd with _ | link
  · have hnone : fileOf e.fd e.readlink = [] := by rw [fileOf, hopen]; rfl
    have hinit : cstr (Lib.init.link_dest e.call.func) = [] := rfl
    rw [link_dest_of_none hopen, hnone, run, cstr_link_dest_eq_nil_iff _ _ _ h]
    simp [hinit]
  · exact iff_of_true (cstr_link_dest_of_some hopen) (.inl rfl)

/-! ## Runs

A call that comes to no end leaves no line, and there are none behind it. -/

/-- The calls that come to an end. -/
def made (es : List Event) : List Event := es.takeWhile fun e ↦ decide e.Readable

/-- Every line shows the file of its own call. -/
def Truthful (es : List Event) : Prop :=
  (run es).log.map Line.file = (made es).map fun e ↦ fileOf e.fd e.readlink

/-- No call on a descriptor that is not open comes after one on an open descriptor through the same
wrapper. -/
def Fresh (es : List Event) : Prop := EachTime (fun before e ↦
  e.Open ∨ ∀ e' ∈ before, e'.call.func = e.call.func → ¬ e'.Open) es

theorem readable_of_mem_made (es : List Event) : ∀ e ∈ made es, e.Readable := by
  intro e he
  rw [made] at he
  have hread := List.mem_takeWhile_imp he
  exact of_decide_eq_true hread

/-- What comes behind a call that comes to no end is not done. -/
theorem run_made (es : List Event) : run es = run (made es) := by
  have hstop : ∀ l : Lib, l.calls es = l.calls (made es) := by
    induction es with
    | nil => exact fun _ ↦ rfl
    | cons e es ih =>
      intro l
      obtain ⟨line, hcall, -⟩ := call_eq l e
      rw [made, List.takeWhile_cons]
      by_cases hread : e.Readable
      · rw [if_pos (decide_eq_true hread), Lib.calls, Lib.calls, hcall, if_pos hread]
        exact ih _
      · rw [if_neg hread] at hcall
        rw [if_neg (by simpa using hread), Lib.calls, Lib.calls, hcall]
  exact hstop .init

theorem files_concat {es : List Event} {e : Event} (h : ∀ e' ∈ es ++ [e], e'.Readable) :
    (run (es ++ [e])).log.map Line.file = (run es).log.map Line.file ++ [(run es).file e] := by
  rw [List.forall_mem_append] at h
  obtain ⟨l', hcall, -, hlog⟩ := call_of_readable (run es) (h.2 e List.mem_cons_self)
  rw [run, calls_append es [e] .init h.1, ← run, Lib.calls, hcall]
  exact hlog

theorem files_eq_iff (es : List Event) : (∀ e ∈ es, e.Readable) →
    ((run es).log.map Line.file = es.map (fun e ↦ fileOf e.fd e.readlink) ↔ Fresh es) := by
  induction es using List.reverseRecOn with
  | nil => exact fun _ ↦ iff_of_true rfl eachTime_nil
  | append_singleton es e ih =>
    intro h
    have hes : ∀ e' ∈ es, e'.Readable := (List.forall_mem_append.1 h).1
    rw [files_concat h, List.map_append, List.map_singleton, Fresh, eachTime_concat, ← Fresh,
      ← ih hes, ← file_eq_iff hes]
    refine ⟨fun heq ↦ ?_, fun heq ↦ by rw [heq.1, heq.2]⟩
    obtain ⟨hfiles, hfile⟩ := List.append_inj' heq rfl
    exact ⟨hfiles, (List.cons.inj hfile).1⟩

/-- **The names in the log** are those of the calls' own files if and only if no call on a
descriptor that is not open comes after one on an open descriptor through the same wrapper. -/
theorem names_iff (es : List Event) : Truthful es ↔ Fresh (made es) := by
  rw [Truthful, run_made]
  exact files_eq_iff (made es) (readable_of_mem_made es)

/-- `close(fd)`, where only descriptor 0 is open. -/
def closeFd (fd : ℤ) : Event :=
  { staleRead 0 with
    call := .close fd
    readlink := fun fd' ↦ if fd' = 0 then some ⟨"/dev/null".toList, by decide, by decide⟩ else none
    ret := 0
    data := [] }

/-- A `close(-1)` is shown with no name, or with that of the file that was closed before it. -/
theorem names_fails : (¬ ∃ name : ℤ → (ℤ → Option Link) → Text, ∀ es,
      (run es).log.map Line.file = (made es).map fun e ↦ name e.fd e.readlink) ∧
    (run [closeFd (-1)]).log.map Line.file = [[]] ∧
    (run [closeFd 0, closeFd (-1)]).log.map Line.file =
      ["/dev/null".toList, "/dev/null".toList] := by
  have hfile : (run [closeFd (-1)]).log.map Line.file = [[]] := by decide +kernel
  have hfiles : (run [closeFd 0, closeFd (-1)]).log.map Line.file =
      ["/dev/null".toList, "/dev/null".toList] := by decide +kernel
  refine ⟨?_, hfile, hfiles⟩
  rintro ⟨name, h⟩
  have hmade (es : List ℤ) : made (es.map closeFd) = es.map closeFd := by
    refine List.takeWhile_eq_self_iff.2 fun e he ↦ ?_
    obtain ⟨fd, -, rfl⟩ := List.mem_map.1 he
    rfl
  have halone := h [closeFd (-1)]
  have hbehind := h [closeFd 0, closeFd (-1)]
  rw [hfile, show made [closeFd (-1)] = [closeFd (-1)] from hmade [-1], List.map_singleton,
    List.cons.injEq] at halone
  rw [hfiles, show made [closeFd 0, closeFd (-1)] = [closeFd 0, closeFd (-1)] from hmade [0, -1],
    List.map_cons, List.map_singleton, List.cons.injEq, List.cons.injEq] at hbehind
  exact absurd (halone.1.trans hbehind.2.1.symm) (by decide)

end Logger
