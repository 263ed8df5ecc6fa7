import Mathlib.Data.List.TakeWhile
import Mathlib.Data.Nat.Notation

namespace CPlayground.Memory

/-!
# Blocks of memory

A block is the list of its bytes, of which some may not have been written yet.  A pointer that is
only read is the rest of the block from it on; one that is written is a position in the block.  An
access outside of the block, or a read of a byte that was not written, gives `none`.

* `deref`, `load`, `toStr`, `strlen`, `strchr` — reading a byte and a C string.
* `write`, `store`, `memcpy` — writing a byte and several bytes.
* `store_append`, `store_fresh`, `store_malloc` — overwriting a part of a block, and filling up a
  fresh one from its beginning.
-/

/-- A block.  `none` is a byte that has not been written. -/
abbrev Mem := List (Option UInt8)

/-- `malloc`. -/
def malloc (n : Nat) : Mem := List.replicate n none

/-- The memory of a C string: its bytes and the terminator. -/
def cstr (s : List UInt8) : Mem := (s ++ [0]).map some

/-- `*p`. -/
def deref : Mem → Option UInt8
  | some c :: _ => some c
  | _           => none

/-- The C string at a pointer. -/
def toStr : Mem → Option (List UInt8)
  | some c :: m => if c = 0 then some [] else (toStr m).map (c :: ·)
  | _           => none

/-- `strlen`. -/
def strlen (m : Mem) : Option Nat := (toStr m).map List.length

/-- `m[i] = c`. -/
def write (m : Mem) (i : Nat) (c : UInt8) : Option Mem :=
  if i < m.length then some (m.set i (some c)) else none

/-- `m[i]`. -/
def load (m : Mem) (i : Nat) : Option UInt8 := deref (m.drop i)

/-- `strchr` for a character that is not the terminator: where it stands, if it does. -/
def strchr (c : UInt8) : Mem → Option (Option Nat)
  | some b :: m =>
    if b = c then some (some 0)
    else if b = 0 then some none
    else (strchr c m).map (Option.map (· + 1))
  | _           => none

/-- `memcpy(m + i, src, n)`, and `memmove` with a part of `m` as the source. -/
def memcpy (m : Mem) (i : Nat) (src : Mem) (n : Nat) : Option Mem :=
  if i + n ≤ m.length ∧ n ≤ src.length then some (m.take i ++ (src.take n ++ m.drop (i + n)))
  else none

/-- Writing bytes one after another, from `m[i]` on. -/
def store (m : Mem) (i : Nat) : List UInt8 → Option Mem
  | []      => some m
  | c :: cs => (write m i c).bind fun m => store m (i + 1) cs

/-- A string has one byte more than characters. -/
@[simp] theorem length_cstr (s : List UInt8) : (cstr s).length = s.length + 1 := by simp [cstr]

/-- The bytes of a string with what follows it: the terminator stands between them. -/
theorem cstr_append (s : List UInt8) (m : Mem) : cstr s ++ m = s.map some ++ some 0 :: m := by
  simp [cstr]

/-- The bytes of a longer string end with those of its end. -/
theorem cstr_of_append (s t : List UInt8) : cstr (s ++ t) = s.map some ++ cstr t := by simp [cstr]

/-- A C string ends at the first terminator. -/
theorem toStr_takeWhile (s : List UInt8) (m : Mem) :
    toStr (s.map some ++ some 0 :: m) = some (s.takeWhile (· ≠ 0)) := by
  induction s with
  | nil => simp [toStr]
  | cons c s ih =>
    rw [List.map_cons, List.cons_append, toStr, List.takeWhile_cons, ih]
    by_cases hc : c = 0
    · simp [hc]
    · simp [hc]

/-- The bytes in front of the only terminator are the string. -/
theorem toStr_append {s : List UInt8} (hs : 0 ∉ s) (m : Mem) :
    toStr (s.map some ++ some 0 :: m) = some s := by
  have hne : ∀ c ∈ s, decide (c ≠ 0) = true := fun c hc => decide_eq_true fun h0 => hs (h0 ▸ hc)
  rw [toStr_takeWhile, List.takeWhile_eq_self_iff.mpr hne]

/-- **A string is read back** if it has no zero in it. -/
theorem toStr_cstr {s : List UInt8} (hs : 0 ∉ s) : toStr (cstr s) = some s := by
  rw [cstr, List.map_append]
  exact toStr_append hs []

/-- `strlen` stops at the terminator, whatever follows it. -/
theorem strlen_append {s : List UInt8} (hs : 0 ∉ s) (m : Mem) :
    strlen (cstr s ++ m) = some s.length := by
  rw [strlen, cstr_append, toStr_append hs]
  rfl

/-- `strlen` of a string with nothing behind it. -/
theorem strlen_cstr {s : List UInt8} (hs : 0 ∉ s) : strlen (cstr s) = some s.length := by
  rw [strlen, toStr_cstr hs]
  rfl

/-- A list in front of a position, at it and behind it. -/
theorem exists_split {α : Type*} (m : List α) {k : Nat} (h : k < m.length) :
    ∃ pre x, m = pre ++ x :: m.drop (k + 1) ∧ pre.length = k := by
  refine ⟨m.take k, m.get ⟨k, h⟩, ?_, List.length_take_of_le (Nat.le_of_lt h)⟩
  rw [List.get_eq_getElem, ← List.drop_eq_getElem_cons, List.take_append_drop]

/-- The byte behind a piece of memory. -/
theorem load_append (pre : Mem) (b : UInt8) (post : Mem) :
    load (pre ++ some b :: post) pre.length = some b := by
  rw [load, List.drop_left]
  rfl

/-- There is nothing to read behind the end. -/
theorem load_eq_none {m : Mem} {i : Nat} (h : m.length ≤ i) : load m i = none := by
  rw [load, List.drop_eq_nil_of_le h]
  rfl

/-- `strchr` goes on behind characters that are neither the one it looks for nor the terminator. -/
theorem strchr_append {c : UInt8} {s : List UInt8} (hc : c ∉ s) (hs : 0 ∉ s) (m : Mem) :
    strchr c (s.map some ++ m) = (strchr c m).map (Option.map (· + s.length)) := by
  induction s with
  | nil => simp
  | cons b s ih =>
    rw [List.mem_cons, not_or] at hc hs
    rw [List.map_cons, List.cons_append, strchr, if_neg (Ne.symm hc.1), if_neg (Ne.symm hs.1),
      ih hc.2 hs.2, Option.map_map]
    congr
    funext o
    cases o with
    | none => rfl
    | some k => simp [Nat.add_assoc]

/-- **`memcpy` into the middle** of a block replaces as many bytes as it copies. -/
theorem memcpy_append (pre mid post src : Mem) (more : Mem) (h : mid.length = src.length) :
    memcpy (pre ++ (mid ++ post)) pre.length (src ++ more) src.length
      = some (pre ++ (src ++ post)) := by
  rw [memcpy, if_pos (by simp [h]), List.take_left, List.take_left, ← h, ← List.drop_drop,
    List.drop_left, List.drop_left]

/-- A byte is written inside of the block, which keeps its size. -/
theorem length_write {m m' : Mem} {i : Nat} {c : UInt8} (h : write m i c = some m') :
    i < m.length ∧ m'.length = m.length := by
  rw [write, Option.ite_none_right_eq_some, Option.some_inj] at h
  obtain ⟨hi, rfl⟩ := h
  exact ⟨hi, List.length_set⟩

/-- Overwriting a byte. -/
theorem write_append (pre : Mem) (x : Option UInt8) (post : Mem) (c : UInt8) :
    write (pre ++ x :: post) pre.length c = some (pre ++ some c :: post) := by
  unfold write
  rw [if_pos (by simp), List.set_append_right _ _ (Nat.le_refl _), Nat.sub_self,
    List.set_cons_zero]

/-- **Overwriting a part of a block**, which is given by what is in front of it and behind it: both
    stay as they are. -/
theorem store_append (pre mid post : Mem) {cs : List UInt8} (h : mid.length = cs.length) :
    store (pre ++ (mid ++ post)) pre.length cs = some (pre ++ (cs.map some ++ post)) := by
  induction cs generalizing pre mid with
  | nil =>
    rw [List.length_nil, List.length_eq_zero_iff] at h
    subst h
    rfl
  | cons c cs ih =>
    obtain ⟨x, mid, rfl⟩ := List.exists_cons_of_length_eq_add_one h
    have hnext := ih (pre ++ [some c]) mid (Nat.succ.inj h)
    rw [List.length_append, List.append_assoc, List.append_assoc] at hnext
    rw [store, List.cons_append, write_append, Option.bind_some]
    exact hnext

/-- The first byte that has not been written yet. -/
theorem write_fresh (w : List UInt8) (c : UInt8) (k : Nat) :
    write (w.map some ++ List.replicate (k + 1) none) w.length c
      = some ((w ++ [c]).map some ++ List.replicate k none) := by
  have h := write_append (w.map some) none (List.replicate k none) c
  rw [List.length_map] at h
  rw [List.replicate_succ, h, List.map_append, List.append_assoc]
  rfl

/-- **Filling up a block** whose first bytes are `w`: the bytes behind them are stored exactly if
    there is room for them. -/
theorem store_fresh (w cs : List UInt8) (k : Nat) :
    store (w.map some ++ List.replicate (cs.length + k) none) w.length cs
      = some ((w ++ cs).map some ++ List.replicate k none) := by
  have hlen : (List.replicate cs.length (none : Option UInt8)).length = cs.length :=
    List.length_replicate
  have h := store_append (w.map some) _ (List.replicate k none) hlen
  rwa [List.length_map, List.replicate_append_replicate, ← List.append_assoc,
    ← List.map_append] at h

/-- Bytes that do not fit. -/
theorem store_eq_none {m : Mem} {i : Nat} {cs : List UInt8} (hi : i ≤ m.length)
    (h : m.length < i + cs.length) : store m i cs = none := by
  induction cs generalizing m i with
  | nil => exact absurd h (Nat.not_lt.mpr hi)
  | cons c cs ih =>
    rw [store, write]
    split
    · rw [Option.bind_some, ih (by simp; omega) (by simp at h ⊢; omega)]
    · rfl

/-- **Storing bytes in a new block** is possible exactly if they fit, and leaves the rest
    unwritten. -/
theorem store_malloc (n : Nat) (cs : List UInt8) :
    store (malloc n) 0 cs = if cs.length ≤ n then
        some (cs.map some ++ List.replicate (n - cs.length) none)
      else none := by
  split
  · next h =>
    have hstore := store_fresh [] cs (n - cs.length)
    rwa [Nat.add_sub_cancel' h] at hstore
  · exact store_eq_none (Nat.zero_le _) (by simp [malloc]; omega)

end CPlayground.Memory
