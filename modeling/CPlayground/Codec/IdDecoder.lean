import CPlayground.Lib.Memory
import Mathlib.Algebra.Order.Ring.Int

namespace CPlayground.IdDecoder

open Memory

/-!
# Process names

`check` accepts the name of a process, `id_decode` reads the numbers in it.  Both look characters up
in a table `a` of 90 elements, which `reverse_table` fills before `main`.  The accesses are modelled
as the machine makes them, on the memory around the table, and every index is recorded.

* `mem_used_reverseTable` — the last letter has the index 90, which is not in the table.
* `check_of_suffix`, `check_of_not` — what `check` returns, and the characters that it looks up.
* `name_validation` — so a name is validated, without an access outside of the table, exactly if no
  character outside of it is looked up, and if its length is an `int`.
-/

/-! ### The table -/

/-- The memory around the table `a`, by index, and the indices that have been used. -/
structure Table where
  cell : Int → Int
  used : List Int

/-- `a[i]`. -/
def Table.read (t : Table) (i : Int) : Int × Table := (t.cell i, { t with used := t.used ++ [i] })

/-- `a[i] = v`. -/
def Table.write (t : Table) (i v : Int) : Table :=
  { cell := Function.update t.cell i v, used := t.used ++ [i] }

/-- A character as an index: a `char` is signed. -/
def index (c : UInt8) : Int := if c.toNat < 128 then c.toNat else c.toNat - 256

/-- `'$'`. -/
def dollar : UInt8 := 0x24

/-- `LASTCHAR`. -/
def lastChar : UInt8 := 0x5a

/-- The letters in front of the last one. -/
def letters : List UInt8 :=
  [0x30, 0x31, 0x32, 0x33, 0x34, 0x35, 0x36, 0x37, 0x38, 0x39,
    0x42, 0x43, 0x44, 0x45, 0x46, 0x47, 0x48, 0x4a, 0x4b, 0x4c, 0x4d,
    0x4e, 0x50, 0x51, 0x52, 0x53, 0x54, 0x56, 0x57, 0x58, 0x59]

/-- `table`. -/
def table : List UInt8 := letters ++ [lastChar]

/-- The second loop of `reverse_table`, for the letters from number `i` on. -/
def setLetters (t : Table) : List UInt8 → Nat → Table
  | [],      _ => t
  | c :: cs, i => setLetters (t.write (index c) i) cs (i + 1)

/-- The first `n` rounds of the first loop of `reverse_table`. -/
def fill (t : Table) : Nat → Table
  | 0     => t
  | n + 1 => (fill t n).write n (-1)

/-- `reverse_table()`. -/
def reverseTable (t : Table) : Table := setLetters (fill t 90) table 0

/-! ### The functions -/

/-- `(int)strlen(p)`. -/
def intLength (len : Nat) : Int := ((len : Int) + 2 ^ 31) % 2 ^ 32 - 2 ^ 31

/-- A result of arithmetic, if it is an `int`. -/
def int (z : Int) : Option Int := if -2 ^ 31 ≤ z ∧ z < 2 ^ 31 then some z else none

/-- `NAMELEN`. -/
def nameLen : Nat := 2 + 4 + 6

/-- `static char buf[NAMELEN]="$"`. -/
def buf : Mem := some dollar :: List.replicate (nameLen - 1) (some 0)

/-- The first part of `check`: the name to look at, with a `$`, or `none` for the jump to `err`. -/
def checkLength (p : Mem) : Option (Option Mem) :=
  (strlen p).bind fun len => (load p 0).bind fun c =>
    if c ≠ dollar then
      (int (intLength len + 1)).bind fun l =>
        if l ≠ nameLen then some none else (memcpy buf 1 p (nameLen - 1)).map some
    else if intLength len ≠ nameLen then some none else some (some p)

/-- The loop of `check`, with `k` characters to go from `p[i]` on. -/
def checkChars (t : Table) (p : Mem) : Nat → Nat → Option (Table × Int)
  | 0,     _ => some (t, 0)
  | k + 1, i => (load p i).bind fun c =>
      if (t.read (index c)).1 = -1 then some ((t.read (index c)).2, 1)
      else checkChars (t.read (index c)).2 p k (i + 1)

/-- `check(pp)`: the table, the name at `*pp` and the result. -/
def check (t : Table) (p : Mem) : Option (Table × Mem × Int) :=
  (checkLength p).bind fun
    | none => some (t, p, 1)
    | some p => (load p 1).bind fun z =>
        if z ≠ lastChar then some (t, p, 1)
        else (checkChars t p (nameLen - 2) 2).map fun r => (r.1, p, r.2)

/-- `id_decode(p, l + 1)`. -/
def decodeFrom (t : Table) (p : Mem) : Nat → Option (Table × Int)
  | 0     => (load p 0).map fun c => ((t.read (index c)).2, (t.read (index c)).1)
  | l + 1 => (decodeFrom t p l).bind fun r => (load p (l + 1)).bind fun c =>
      (int (r.2 * 32)).bind fun v => (int (v + (r.1.read (index c)).1)).map fun v =>
        ((r.1.read (index c)).2, v)

/-- `id_decode(p, l)`.  `--l` is unsigned. -/
def idDecode (t : Table) (p : Mem) (l : Nat) : Option (Table × Int) :=
  decodeFrom t p ((l + 2 ^ 32 - 1) % 2 ^ 32)

/-- `main`, for the argument if there is one: the table, the exit code, and the numbers printed. -/
def main (t : Table) (arg : Option Mem) : Option (Table × Int × Option (Int × Int)) :=
  match arg with
  | none => some (t, 1, none)
  | some p => (check t p).bind fun r =>
      if r.2.2 ≠ 0 then some (r.1, 1, none)
      else
        (idDecode r.1 (r.2.1.drop 2) 4).bind fun nid =>
          (idDecode nid.1 (r.2.1.drop (2 + 4)) 6).map fun pid => (pid.1, 0, some (nid.2, pid.2))

/-! ### Filling the table -/

variable {t : Table} {c : UInt8} {cs p : List UInt8}

/-- Characters with the same index are the same: the subtraction does not lose anything. -/
theorem index_injective {c c' : UInt8} (h : index c = index c') : c = c' := by
  have hc := c.toNat_lt
  have hc' := c'.toNat_lt
  apply UInt8.toNat_inj.mp
  unfold index at h
  split at h <;> split at h <;> omega

/-- A write changes one cell, in the table or around it. -/
theorem cell_write (t : Table) (i v x : Int) :
    (t.write i v).cell x = if x = i then v else t.cell x := Function.update_apply _ _ _ _

/-- The first loop sets the cells that it comes to, and no other one. -/
theorem cell_fill (t : Table) (n : Nat) (x : Int) :
    (fill t n).cell x = if 0 ≤ x ∧ x < n then -1 else t.cell x := by
  induction n with
  | zero =>
    rw [if_neg (by omega)]
    rfl
  | succ n ih =>
    rw [fill, cell_write, ih]
    by_cases hx : x = n
    · rw [if_pos hx, if_pos (by omega)]
    · rw [if_neg hx]
      congr 1
      exact propext (by omega)

/-- The accesses of the first loop. -/
theorem used_fill (t : Table) (n : Nat) :
    (fill t n).used = t.used ++ (List.range n).map Int.ofNat := by
  induction n with
  | zero => exact (List.append_nil _).symm
  | succ n ih =>
    rw [fill, Table.write, ih, List.range_succ, List.map_append, List.append_assoc]
    rfl

/-- The accesses of the second loop: the index of each letter. -/
theorem used_setLetters (t : Table) (cs : List UInt8) (i : Nat) :
    (setLetters t cs i).used = t.used ++ cs.map index := by
  induction cs generalizing t i with
  | nil => exact (List.append_nil _).symm
  | cons c cs ih =>
    rw [setLetters, ih, Table.write, List.append_assoc]
    rfl

/-- The second loop only sets the cells of the letters. -/
theorem cell_setLetters_of_not_mem {x : Int} (hx : x ∉ cs.map index) (i : Nat) :
    (setLetters t cs i).cell x = t.cell x := by
  induction cs generalizing t i with
  | nil => rfl
  | cons c cs ih =>
    rw [List.map_cons, List.mem_cons, not_or] at hx
    rw [setLetters, ih hx.2, cell_write, if_neg hx.1]

/-- Every letter has its number: the letters are distinct, so that a later assignment does not
    overwrite an earlier one. -/
theorem cell_setLetters (hcs : cs.Nodup) (hc : c ∈ cs) (i : Nat) :
    (setLetters t cs i).cell (index c) = (i + cs.idxOf c : Nat) := by
  induction cs generalizing t i with
  | nil => exact absurd hc List.not_mem_nil
  | cons c₀ cs ih =>
    rw [List.nodup_cons] at hcs
    rw [setLetters]
    by_cases heq : c = c₀
    · -- the letter does not come again, so its number stays
      have hnot : index c ∉ cs.map index := by
        rw [heq, List.mem_map]
        rintro ⟨c', hc', hidx⟩
        exact hcs.1 (index_injective hidx ▸ hc')
      rw [cell_setLetters_of_not_mem hnot, heq, cell_write, if_pos rfl, List.idxOf_cons_self]
      rfl
    · have hidx : (c₀ :: cs).idxOf c = cs.idxOf c + 1 := by
        rw [List.idxOf_cons, beq_false_of_ne (Ne.symm heq), cond_false]
      rw [ih hcs.2 (List.mem_of_ne_of_mem heq hc), hidx]
      omega

/-! ### The characters in the table -/

/-- The character has one of the 90 elements of the table. -/
def InTable (c : UInt8) : Prop := 0 ≤ index c ∧ index c < 90

instance (c : UInt8) : Decidable (InTable c) := inferInstanceAs (Decidable (_ ∧ _))

/-- The letters but the last one have an index in the table. -/
theorem inTable_of_mem (hc : c ∈ letters) : InTable c := by
  have hletters : ∀ c ∈ letters, InTable c := by
    simp only [letters, List.forall_mem_cons, List.not_mem_nil, false_implies, implies_true,
      and_true]
    decide
  exact hletters c hc

/-- The table of the letters is `letters` with the last character behind it. -/
theorem mem_table : c ∈ table ↔ c ∈ letters ∨ c = lastChar := by
  rw [table, List.mem_append, List.mem_singleton]

/-- The last character does not: its index is 90. -/
theorem not_inTable_lastChar : ¬ InTable lastChar := by decide

/-- The table that `reverse_table` makes, with no index used since then. -/
def reversed (around : Int → Int) : Table :=
  { cell := (reverseTable ⟨around, []⟩).cell, used := [] }

/-- What the loops leave for a letter is its number. -/
theorem cell_of_mem_table (around : Int → Int) (hc : c ∈ table) :
    (reversed around).cell (index c) = (table.idxOf c : Nat) := by
  rw [reversed, reverseTable, cell_setLetters (by decide) hc, Nat.zero_add]

/-- The numbers of the letters have five bits. -/
theorem cell_of_mem (around : Int → Int) (hc : c ∈ letters) :
    0 ≤ (reversed around).cell (index c) ∧ (reversed around).cell (index c) < 32 := by
  have hmem : c ∈ table := mem_table.mpr (.inl hc)
  have hlt : table.idxOf c < 32 := List.idxOf_lt_length_of_mem hmem
  rw [cell_of_mem_table around hmem]
  omega

/-- Any other character with an index in the table has a negative cell. -/
theorem cell_of_inTable (around : Int → Int) (h : InTable c) (hc : c ∉ letters) :
    (reversed around).cell (index c) = -1 := by
  have hnot : index c ∉ table.map index := by
    rw [List.mem_map]
    rintro ⟨c', hc', hidx⟩
    rw [index_injective hidx, mem_table] at hc'
    rcases hc' with hc' | rfl
    · exact hc hc'
    · exact not_inTable_lastChar h
  rw [reversed, reverseTable, cell_setLetters_of_not_mem hnot, cell_fill]
  exact if_pos h

/-- The characters that the loop of `check` looks up. -/
def scanned (cell : Int → Int) : List UInt8 → List UInt8
  | []      => []
  | c :: cs => if cell (index c) = -1 then [c] else c :: scanned cell cs

/-- Whether the loop of `check` comes to its end. -/
def accepts (cell : Int → Int) (cs : List UInt8) : Bool := cs.all fun c => cell (index c) != -1

/-- Up to the first character that is not a letter, the characters are in the table. -/
def Covered : List UInt8 → Prop
  | []      => True
  | c :: cs => InTable c ∧ (c ∈ letters → Covered cs)

/-- The first character is looked up in any case. -/
theorem head_mem_scanned (cell : Int → Int) (c : UInt8) (cs : List UInt8) :
    c ∈ scanned cell (c :: cs) := by
  rw [scanned]
  split
  · exact List.mem_singleton_self c
  · exact List.mem_cons_self

/-- Whether the loop leaves the table depends on the characters only: it goes on as long as the
    characters are letters of the alphabet. -/
theorem scanned_inTable_iff (around : Int → Int) (cs : List UInt8) :
    (∀ c ∈ scanned (reversed around).cell cs, InTable c) ↔ Covered cs := by
  induction cs with
  | nil => simp [scanned, Covered]
  | cons c cs ih =>
    rw [Covered]
    by_cases hc : InTable c
    · rw [scanned]
      by_cases hmem : c ∈ letters
      · have hcell : (reversed around).cell (index c) ≠ -1 := by
          have := cell_of_mem around hmem
          omega
        rw [if_neg hcell, List.forall_mem_cons, ih]
        simp [hmem]
      · rw [if_pos (cell_of_inTable around hc hmem), List.forall_mem_singleton]
        simp [hmem]
    · exact iff_of_false (fun h => hc (h c (head_mem_scanned _ c cs))) (fun h => hc h.1)

/-- As long as the loop stays in the table, it accepts the letters. -/
theorem accepts_iff_of_covered (around : Int → Int) (h : Covered cs) :
    accepts (reversed around).cell cs = true ↔ ∀ c ∈ cs, c ∈ letters := by
  induction cs with
  | nil => simp [accepts]
  | cons c cs ih =>
    rw [Covered] at h
    rw [accepts, List.all_cons, Bool.and_eq_true, bne_iff_ne, ← accepts, List.forall_mem_cons]
    by_cases hmem : c ∈ letters
    · -- a letter has its number, and the loop goes on
      have hcell := cell_of_mem around hmem
      rw [ih (h.2 hmem)]
      exact and_congr_left fun _ => iff_of_true (by omega) hmem
    · exact iff_of_false (fun hall => hall.1 (cell_of_inTable around h.1 hmem))
        (fun hall => hmem hall.1)

/-- The last letter is not in the table. -/
theorem letters_of_covered (h : Covered cs) (hcs : ∀ c ∈ cs, c ∈ table) :
    ∀ c ∈ cs, c ∈ letters := by
  induction cs with
  | nil => simp
  | cons c cs ih =>
    rw [Covered] at h
    rw [List.forall_mem_cons] at hcs ⊢
    have hc : c ∈ letters := by
      rcases mem_table.mp hcs.1 with hc | rfl
      · exact hc
      · exact absurd h.1 not_inTable_lastChar
    exact ⟨hc, ih (h.2 hc) hcs.2⟩

/-- Letters only: nothing outside of the table is looked up. -/
theorem covered_of_letters (hcs : ∀ c ∈ cs, c ∈ letters) : Covered cs := by
  induction cs with
  | nil => trivial
  | cons c cs ih =>
    rw [List.forall_mem_cons] at hcs
    exact ⟨inTable_of_mem hcs.1, fun _ => ih hcs.2⟩

/-! ### The loop of `check` -/

/-- **The loop of `check`** looks the characters up until it meets a negative cell, and returns
    whether it has come to the end. -/
theorem checkChars_eq (t : Table) (front back : Mem) (cs : List UInt8) :
    checkChars t (front ++ (cs.map some ++ back)) cs.length front.length
      = some ({ t with used := t.used ++ (scanned t.cell cs).map index },
          if accepts t.cell cs = true then 0 else 1) := by
  induction cs generalizing t front with
  | nil => simp [checkChars, scanned, accepts]
  | cons c cs ih =>
    have hnext := ih (t.read (index c)).2 (front ++ [some c])
    simp only [List.length_append, List.length_singleton, List.append_assoc, List.singleton_append]
      at hnext
    rw [List.map_cons, List.cons_append, List.length_cons, checkChars, load_append,
      Option.bind_some, scanned, accepts, List.all_cons, ← accepts]
    by_cases hc : t.cell (index c) = -1
    · have hread : (t.read (index c)).1 = -1 := hc
      rw [if_pos hread, if_pos hc, hc]
      rfl
    · have hread : (t.read (index c)).1 ≠ -1 := hc
      rw [if_neg hread, hnext, if_neg hc, bne_iff_ne.mpr hc, Bool.true_and]
      simp only [Table.read, List.map_cons, List.append_assoc, List.singleton_append]
      rfl

/-! ### What `check` looks at -/

/-- The argument has the form of a name with the ten characters `cs`, as far as `check` can tell
    from its length. -/
def Suffix (p cs : List UInt8) : Prop :=
  cs.length = 10 ∧ ∃ rest,
    (p = lastChar :: (cs ++ rest) ∧ intLength p.length = 11) ∨
    (p = dollar :: lastChar :: (cs ++ rest) ∧ intLength p.length = 12)

/-- `l+1` is an `int`, if it is used. -/
def NoOverflow (p : List UInt8) : Prop := p.head? = some dollar ∨ intLength p.length + 1 < 2 ^ 31

/-- A length that is converted to `int` does not become larger. -/
theorem le_of_intLength {len k : Nat} (h : intLength len = k) : k ≤ len := by
  unfold intLength at h
  omega

/-- The addition in `check` does not overflow for these lengths. -/
theorem int_eq {len : Nat} (h : intLength len + 1 < 2 ^ 31) :
    int (intLength len + 1) = some (intLength len + 1) := by
  rw [int, if_pos]
  unfold intLength at h ⊢
  omega

/-- The first eleven characters behind the `$` of `buf`. -/
theorem memcpy_buf {q : List UInt8} (hq : q.length = 11) (more : Mem) :
    memcpy buf 1 (q.map some ++ more) (nameLen - 1) = some (some dollar :: q.map some) := by
  have hmid : (List.replicate 11 (some (0 : UInt8))).length = (q.map some).length := by
    rw [List.length_replicate, List.length_map, hq]
  have hcopy := memcpy_append [some dollar] _ [] (q.map some) more hmid
  rw [List.length_map, hq, List.append_nil, List.append_nil] at hcopy
  exact hcopy

/-- The branches of `check` that look at the length of a name: without the sign one character is put
    in front of it. -/
theorem checkLength_cons {q : List UInt8} (h0 : 0 ∉ c :: q) :
    checkLength (cstr (c :: q)) =
      if c ≠ dollar then
        (int (intLength (c :: q).length + 1)).bind fun l =>
          if l ≠ nameLen then some none
          else (memcpy buf 1 (cstr (c :: q)) (nameLen - 1)).map some
      else if intLength (c :: q).length ≠ nameLen then some none
      else some (some (cstr (c :: q))) := by
  have hload : load (cstr (c :: q)) 0 = some c := load_append [] c (cstr q)
  rw [checkLength, strlen_cstr h0, Option.bind_some, hload, Option.bind_some]

/-- A name without a `$` is copied behind the one of `buf`. -/
theorem checkLength_copy {q rest : List UInt8} (h0 : 0 ∉ c :: (q ++ rest)) (hc : c ≠ dollar)
    (hq : q.length = 10) (hlen : intLength (c :: (q ++ rest)).length = 11) :
    checkLength (cstr (c :: (q ++ rest))) = some (some (some dollar :: (c :: q).map some)) := by
  have hint : int ((11 : Int) + 1) = some (11 + 1) := by decide
  have hname : ¬ ((11 : Int) + 1 ≠ nameLen) := by decide
  have hsplit : cstr (c :: (q ++ rest)) = (c :: q).map some ++ cstr rest :=
    cstr_of_append (c :: q) rest
  have hcopy := memcpy_buf (q := c :: q) (by rw [List.length_cons, hq]) (cstr rest)
  rw [checkLength_cons h0, if_pos hc, hlen, hint, Option.bind_some, if_neg hname, hsplit, hcopy,
    Option.map_some]

/-- What `check` does with a name of the right length. -/
theorem check_of_name {m : Mem} (h : checkLength (cstr p) = some (some m)) (t : Table) :
    check t (cstr p) = (load m 1).bind fun z =>
      if z ≠ lastChar then some (t, m, 1)
      else (checkChars t m 10 2).map fun r => (r.1, m, r.2) := by
  rw [check, h, Option.bind_some]
  rfl

/-- A name with a `$` stays where it is. -/
theorem checkLength_dollar {q : List UInt8} (h0 : 0 ∉ dollar :: q)
    (hlen : intLength (dollar :: q).length = 12) :
    checkLength (cstr (dollar :: q)) = some (some (cstr (dollar :: q))) := by
  rw [checkLength_cons h0, if_neg (not_not.mpr rfl), hlen, if_neg (by decide)]

/-- Names of another length are refused.  The length is converted to an `int`, which may make a very
    long name look short. -/
theorem checkLength_of_ne {q : List UInt8} (h0 : 0 ∉ c :: q) (hint : NoOverflow (c :: q))
    (hlen : intLength (c :: q).length ≠ if c = dollar then 12 else 11) :
    checkLength (cstr (c :: q)) = some none := by
  rw [checkLength_cons h0]
  by_cases hc : c = dollar
  · rw [if_pos hc] at hlen
    have hne : intLength (c :: q).length ≠ nameLen := hlen
    rw [if_neg (not_not.mpr hc), if_pos hne]
  · rw [if_neg hc] at hlen
    have hint' : intLength (c :: q).length + 1 < 2 ^ 31 :=
      hint.resolve_left fun hhead => hc (Option.some_inj.mp hhead)
    have hne : intLength (c :: q).length + 1 ≠ nameLen := by
      show _ ≠ (12 : Int)
      omega
    rw [if_pos hc, int_eq hint', Option.bind_some, if_pos hne]

/-- **`check` on a name** runs the loop on its ten characters, whether the sign and the first
    character were there or were put in front of it. -/
theorem check_of_suffix (h0 : 0 ∉ p) (h : Suffix p cs) (t : Table) :
    ∃ back, check t (cstr p)
      = (checkChars t ([some dollar, some lastChar] ++ (cs.map some ++ back)) 10 2).map
          fun r => (r.1, [some dollar, some lastChar] ++ (cs.map some ++ back), r.2) := by
  obtain ⟨hcs, rest, ⟨rfl, hlen⟩ | ⟨rfl, hlen⟩⟩ := h
  · refine ⟨[], ?_⟩
    rw [check_of_name (checkLength_copy h0 (by decide) hcs hlen), List.append_nil]
    rfl
  · refine ⟨cstr rest, ?_⟩
    have hsplit : cstr (dollar :: lastChar :: (cs ++ rest))
        = [some dollar, some lastChar] ++ (cs.map some ++ cstr rest) :=
      cstr_of_append (dollar :: lastChar :: cs) rest
    rw [check_of_name (checkLength_dollar h0 hlen), hsplit]
    rfl

/-- Another letter than the last one in front of the ten characters. -/
theorem check_of_letter {m : Mem} {z : UInt8} (h : checkLength (cstr p) = some (some m))
    (hload : load m 1 = some z) (hz : z ≠ lastChar) (t : Table) :
    check t (cstr p) = some (t, m, 1) := by
  rw [check_of_name h, hload, Option.bind_some, if_pos hz]

/-- The first ten characters. -/
theorem exists_take {q : List UInt8} (h : 10 ≤ q.length) :
    ∃ cs rest, q = cs ++ rest ∧ cs.length = 10 :=
  ⟨q.take 10, q.drop 10, (List.take_append_drop 10 q).symm, List.length_take_of_le h⟩

/-- **`check` on anything else** returns 1, and uses no index. -/
theorem check_of_not (h0 : 0 ∉ p) (hint : NoOverflow p) (h : ∀ cs, ¬ Suffix p cs) (t : Table) :
    ∃ m, check t (cstr p) = some (t, m, 1) := by
  cases p with
  | nil => exact ⟨_, rfl⟩
  | cons c q =>
    by_cases hlen : intLength (c :: q).length = if c = dollar then 12 else 11
    · -- the length is right, so the letter is not
      by_cases hc : c = dollar
      · subst hc
        rw [if_pos rfl] at hlen
        have hle := le_of_intLength (k := 12) hlen
        rw [List.length_cons] at hle
        obtain ⟨z, q, rfl⟩ := List.exists_cons_of_length_pos (l := q) (by omega)
        rw [List.length_cons] at hle
        obtain ⟨cs, rest, rfl, hcs⟩ := exists_take (q := q) (by omega)
        have hz : z ≠ lastChar := by
          rintro rfl
          exact h cs ⟨hcs, rest, .inr ⟨rfl, hlen⟩⟩
        exact ⟨_, check_of_letter (checkLength_dollar h0 hlen) (load_append [some dollar] z _) hz t⟩
      · rw [if_neg hc] at hlen
        have hle := le_of_intLength (k := 11) hlen
        rw [List.length_cons] at hle
        obtain ⟨cs, rest, rfl, hcs⟩ := exists_take (q := q) (by omega)
        have hz : c ≠ lastChar := by
          rintro rfl
          exact h cs ⟨hcs, rest, .inl ⟨rfl, hlen⟩⟩
        exact ⟨_, check_of_letter (checkLength_copy h0 hc hcs hlen) (load_append [some dollar] c _)
          hz t⟩
    · refine ⟨cstr (c :: q), ?_⟩
      rw [check, checkLength_of_ne h0 hint hlen, Option.bind_some]

/-- The `l+1` that is not an `int`. -/
theorem check_of_overflow (h0 : 0 ∉ p) (h : ¬ NoOverflow p) (t : Table) :
    check t (cstr p) = none := by
  rw [NoOverflow, not_or] at h
  cases p with
  | nil => exact absurd (by decide) h.2
  | cons c q =>
    have hc : c ≠ dollar := fun hc => h.1 (congrArg some hc)
    have hint : int (intLength (c :: q).length + 1) = none := by
      rw [int, if_neg]
      omega
    rw [check, checkLength_cons h0, if_pos hc, hint, Option.bind_none, Option.bind_none]

/-! ### The numbers in a name -/

/-- The indices that have been used are in the table. -/
def InRange (t : Table) : Prop := ∀ i ∈ t.used, 0 ≤ i ∧ i < 90

/-- An access for a letter stays in the table. -/
theorem inRange_read (ht : InRange t) (hc : c ∈ letters) : InRange (t.read (index c)).2 := by
  intro i hi
  rcases List.mem_append.mp hi with hi | hi
  · exact ht i hi
  · rw [List.mem_singleton.mp hi]
    exact inTable_of_mem hc

/-- A byte of a text that was stored. -/
theorem load_map_some (cs : List UInt8) (back : Mem) {i : Nat} (hi : i < cs.length) :
    ∃ c ∈ cs, load (cs.map some ++ back) i = some c := by
  obtain ⟨pre, c, hsplit, rfl⟩ := exists_split cs hi
  have hload := load_append (pre.map some) c ((cs.drop (pre.length + 1)).map some ++ back)
  refine ⟨c, hsplit ▸ List.mem_append_right _ List.mem_cons_self, ?_⟩
  rw [List.length_map, ← List.cons_append, ← List.append_assoc, ← List.map_cons, ← List.map_append,
    ← hsplit] at hload
  exact hload

/-- The rest of a text that was stored. -/
theorem drop_map_some {k : Nat} (hk : k ≤ cs.length) (back : Mem) :
    (cs.map some ++ back).drop k = (cs.drop k).map some ++ back := by
  rw [List.drop_append_of_le_length (by rwa [List.length_map]), List.map_drop]

/-- **`id_decode` on letters** stays in the table, and up to six of them make an `int`: every letter
    has five bits. -/
theorem decodeFrom_letters {m : Mem} {k : Nat} (hk : k ≤ 5) {around : Int → Int}
    (hcell : t.cell = (reversed around).cell) (ht : InRange t)
    (hm : ∀ i ≤ k, ∃ c ∈ letters, load m i = some c) :
    ∃ t' v, decodeFrom t m k = some (t', v) ∧ t'.cell = t.cell ∧ InRange t' ∧
      0 ≤ v ∧ v < 32 ^ (k + 1) := by
  induction k with
  | zero =>
    obtain ⟨c, hc, hload⟩ := hm 0 (Nat.le_refl 0)
    have hv := cell_of_mem around hc
    rw [← hcell] at hv
    refine ⟨(t.read (index c)).2, (t.read (index c)).1, ?_, rfl, inRange_read ht hc, hv.1, hv.2⟩
    rw [decodeFrom, hload, Option.map_some]
  | succ k ih =>
    obtain ⟨t', v, hdecode, hcell', ht', hv0, hv⟩ :=
      ih (by omega) fun i hi => hm i (Nat.le_succ_of_le hi)
    obtain ⟨c, hc, hload⟩ := hm (k + 1) (Nat.le_refl _)
    have hx := cell_of_mem around hc
    rw [← hcell, ← hcell'] at hx
    -- the result is less than `32 ^ 6`
    have hpow : (32 : Int) ^ (k + 1) * 32 ≤ 2 ^ 30 := by
      have hle : ∀ k ≤ 4, (32 : Int) ^ (k + 1) * 32 ≤ 2 ^ 30 := by decide
      exact hle k (by omega)
    have hmul : int (v * 32) = some (v * 32) := by
      rw [int, if_pos (by omega)]
    have hadd : int (v * 32 + (t'.read (index c)).1)
        = some (v * 32 + (t'.read (index c)).1) := by
      have hread : (t'.read (index c)).1 = t'.cell (index c) := rfl
      rw [int, if_pos (by omega)]
    refine ⟨(t'.read (index c)).2, v * 32 + (t'.read (index c)).1, ?_, hcell', inRange_read ht' hc,
      ?_, ?_⟩
    · rw [decodeFrom, hdecode, Option.bind_some, hload, Option.bind_some, hmul, Option.bind_some,
        hadd, Option.map_some]
    · show 0 ≤ v * 32 + t'.cell (index c)
      omega
    · show v * 32 + t'.cell (index c) < _
      rw [Int.pow_succ]
      omega

/-- **`main` on a name of letters** uses the table only, for the four characters of the first number
    and for the six of the second one. -/
theorem main_of_letters {around : Int → Int} {m : Mem} {back : Mem}
    (hcs : ∀ c ∈ cs, c ∈ letters) (hlen : cs.length = 10)
    (hm : m = [some dollar, some lastChar] ++ (cs.map some ++ back))
    (hcheck : check (reversed around) (cstr p) = some (t, m, 0))
    (hcell : t.cell = (reversed around).cell) (ht : InRange t) :
    ∃ r, main (reversed around) (some (cstr p)) = some r ∧ InRange r.1 := by
  -- the ten letters behind the first two characters: four of one id and six of the other
  have hdrop : m.drop 2 = cs.map some ++ back := by rw [hm]; rfl
  have hdrop' : m.drop (2 + 4) = (cs.drop 4).map some ++ back := by
    rw [← List.drop_drop, hdrop, drop_map_some (by omega)]
  have hload : ∀ i ≤ 3, ∃ c ∈ letters, load (m.drop 2) i = some c := by
    intro i hi
    obtain ⟨c, hc, hload⟩ := load_map_some cs back (i := i) (by omega)
    exact ⟨c, hcs c hc, hdrop ▸ hload⟩
  have hload' : ∀ i ≤ 5, ∃ c ∈ letters, load (m.drop (2 + 4)) i = some c := by
    intro i hi
    obtain ⟨c, hc, hload⟩ := load_map_some (cs.drop 4) back (i := i)
      (by rw [List.length_drop]; omega)
    exact ⟨c, hcs c (List.mem_of_mem_drop hc), hdrop' ▸ hload⟩
  -- the two calls of `id_decode`; the first one leaves the cells as they were
  obtain ⟨t₁, nid, hnid, hcell₁, ht₁, -⟩ := decodeFrom_letters (by decide) hcell ht hload
  obtain ⟨t₂, pid, hpid, -, ht₂, -⟩ :=
    decodeFrom_letters (by decide) (hcell₁.trans hcell) ht₁ hload'
  refine ⟨(t₂, 0, some (nid, pid)), ?_, ht₂⟩
  have hnid' : idDecode t (m.drop 2) 4 = some (t₁, nid) := hnid
  have hpid' : idDecode t₁ (m.drop (2 + 4)) 6 = some (t₂, pid) := hpid
  simp only [main, hcheck, Option.bind_some, hnid', hpid', Option.map_some, ne_eq,
    not_true_eq_false, if_false]

/-! ### Validation -/

/-- A process name: `Z` and ten characters of the alphabet, with or without a `$`. -/
def ValidName (p : List UInt8) : Prop :=
  ∃ cs, cs.length = 10 ∧ (∀ c ∈ cs, c ∈ table) ∧
    (p = lastChar :: cs ∨ p = dollar :: lastChar :: cs)

/-- A valid name has ten letters at its end. -/
theorem exists_suffix (h : ValidName p) : ∃ cs, Suffix p cs := by
  obtain ⟨cs, hlen, -, rfl | rfl⟩ := h
  · exact ⟨cs, hlen, [], .inl ⟨by rw [List.append_nil], by rw [List.length_cons, hlen]; rfl⟩⟩
  · exact ⟨cs, hlen, [], .inr ⟨by rw [List.append_nil], by
      rw [List.length_cons, List.length_cons, hlen]; rfl⟩⟩

/-- The ten characters are determined by the name. -/
theorem suffix_unique {cs' rest : List UInt8} (hlen : cs.length = cs'.length)
    (h : cs ++ rest = cs') : cs = cs' :=
  (List.append_inj (h.trans (List.append_nil cs').symm) hlen).1

/-- What makes an argument of the right form valid: its characters are in the alphabet, and its
    length is not only right modulo `2 ^ 32`. -/
theorem valid_iff_of_suffix (h : Suffix p cs) :
    ValidName p ↔ (∀ c ∈ cs, c ∈ table) ∧ p.length < 2 ^ 32 := by
  obtain ⟨hlen, rest, hform⟩ := h
  constructor
  · rintro ⟨cs', hlen', htable, hp⟩
    have hshort : p.length < 2 ^ 32 := by
      rcases hp with rfl | rfl
      · rw [List.length_cons]
        omega
      · rw [List.length_cons, List.length_cons]
        omega
    refine ⟨?_, hshort⟩
    rcases hform with ⟨rfl, -⟩ | ⟨rfl, -⟩
    · rcases hp with hp | hp
      · rw [List.cons.injEq] at hp
        rwa [suffix_unique (hlen.trans hlen'.symm) hp.2]
      · rw [List.cons.injEq] at hp
        exact absurd hp.1 (by decide)
    · rcases hp with hp | hp
      · rw [List.cons.injEq] at hp
        exact absurd hp.1 (by decide)
      · rw [List.cons.injEq, List.cons.injEq] at hp
        rwa [suffix_unique (hlen.trans hlen'.symm) hp.2.2]
  · rintro ⟨htable, hshort⟩
    refine ⟨cs, hlen, htable, ?_⟩
    -- without a wrap the length leaves no other characters
    have hrest : rest = [] := by
      rw [← List.length_eq_zero_iff]
      rcases hform with ⟨rfl, hint⟩ | ⟨rfl, hint⟩
      · simp only [List.length_cons, List.length_append, intLength] at hint hshort
        omega
      · simp only [List.length_cons, List.length_append, intLength] at hint hshort
        omega
    rw [hrest, List.append_nil] at hform
    exact hform.imp And.left And.left

/-- `check` on a name, with the indices that it uses. -/
theorem check_eq (h0 : 0 ∉ p) (h : Suffix p cs) (t : Table) :
    ∃ back, check t (cstr p)
      = some ({ t with used := t.used ++ (scanned t.cell cs).map index },
          [some dollar, some lastChar] ++ (cs.map some ++ back),
          if accepts t.cell cs = true then 0 else 1) := by
  obtain ⟨back, hcheck⟩ := check_of_suffix h0 h t
  have hloop := checkChars_eq t [some dollar, some lastChar] back cs
  rw [h.1] at hloop
  refine ⟨back, hcheck.trans ?_⟩
  exact congrArg (Option.map _) hloop

/-- The lookups of `check` stay in the table exactly if the characters that are looked up are in
    it. -/
theorem inRange_scanned_iff (around : Int → Int) (cs : List UInt8) :
    InRange { cell := (reversed around).cell
              used := (scanned (reversed around).cell cs).map index } ↔ Covered cs := by
  rw [← scanned_inTable_iff around, InRange, List.forall_mem_map]
  rfl

/-- What `check` and `id_decode` are for: they use the table only, whatever is around it, and
    `check` returns zero for the valid names. -/
def Validates (p : List UInt8) : Prop :=
  ∀ around,
    (∃ t m v, check (reversed around) (cstr p) = some (t, m, v) ∧ InRange t ∧
      (v = 0 ↔ ValidName p)) ∧
    ∃ r, main (reversed around) (some (cstr p)) = some r ∧ InRange r.1

/-- `main` prints nothing for a name that was not accepted. -/
theorem main_of_ne_zero {around : Int → Int} {m : Mem} {v : Int}
    (hcheck : check (reversed around) (cstr p) = some (t, m, v)) (hv : v ≠ 0) :
    main (reversed around) (some (cstr p)) = some (t, 1, none) := by
  simp only [main, hcheck, Option.bind_some, if_pos hv]

/-- **A name whose characters are covered** is validated without an access outside of the table;
    only for a valid one the length has to be an `int` as well. -/
theorem validates_of_covered {around : Int → Int} (h0 : 0 ∉ p) (h : Suffix p cs)
    (hcs : Covered cs) (hlen : (∀ c ∈ cs, c ∈ letters) → p.length < 2 ^ 32) :
    (∃ t m v, check (reversed around) (cstr p) = some (t, m, v) ∧ InRange t ∧
      (v = 0 ↔ ValidName p)) ∧
    ∃ r, main (reversed around) (some (cstr p)) = some r ∧ InRange r.1 := by
  obtain ⟨back, hcheck⟩ := check_eq h0 h (reversed around)
  have hrange := (inRange_scanned_iff around cs).mpr hcs
  have hvalid := valid_iff_of_suffix h
  -- in both cases what is around the table does not matter
  by_cases haccepts : accepts (reversed around).cell cs = true
  · have hletters := (accepts_iff_of_covered around hcs).mp haccepts
    rw [if_pos haccepts] at hcheck
    refine ⟨⟨_, _, _, hcheck, hrange, iff_of_true rfl (hvalid.mpr ⟨?_, hlen hletters⟩)⟩, ?_⟩
    · exact fun c hc => mem_table.mpr (.inl (hletters c hc))
    · exact main_of_letters hletters h.1 rfl hcheck rfl hrange
  · rw [if_neg haccepts] at hcheck
    refine ⟨⟨_, _, _, hcheck, hrange, iff_of_false Int.one_ne_zero fun hv => ?_⟩, ?_⟩
    · have hletters := letters_of_covered hcs (hvalid.mp hv).1
      exact haccepts ((accepts_iff_of_covered around hcs).mpr hletters)
    · exact ⟨_, main_of_ne_zero hcheck Int.one_ne_zero, hrange⟩

/-- All accesses of `reverse_table`. -/
theorem used_reverseTable (around : Int → Int) :
    (reverseTable ⟨around, []⟩).used = (List.range 90).map Int.ofNat ++ table.map index := by
  rw [reverseTable, used_setLetters, used_fill]
  rfl

/-- One of them is behind the end of the table. -/
theorem mem_used_reverseTable (around : Int → Int) : 90 ∈ (reverseTable ⟨around, []⟩).used := by
  rw [used_reverseTable, List.mem_append]
  exact .inr (List.mem_map.mpr ⟨lastChar, mem_table.mpr (.inr rfl), rfl⟩)

/-- **Validation of process names.**  `reverse_table` uses the index of the last letter, which is
    90, and no other one outside of the table.  `check` and `id_decode` use the table only, and
    validate the argument, exactly if they do not come to a character outside of it; the length of
    the argument is taken modulo $2^{32}$. -/
theorem name_validation (h0 : 0 ∉ p) :
    (∀ around, 90 ∈ (reverseTable ⟨around, []⟩).used ∧
      ∀ i ∈ (reverseTable ⟨around, []⟩).used, i ≠ 90 → 0 ≤ i ∧ i < 90) ∧
    (Validates p ↔ NoOverflow p ∧ ∀ cs, Suffix p cs → Covered cs ∧
      ((∀ c ∈ cs, c ∈ letters) → p.length < 2 ^ 32)) := by
  refine ⟨fun around => ⟨mem_used_reverseTable around, fun i hi hne => ?_⟩,
    fun hv => ⟨?_, fun cs hcs => ?_⟩, ?_⟩
  -- `reverse_table` writes the cells below 90, and one for each character of the table
  · rw [used_reverseTable, List.mem_append, List.mem_map, List.mem_map] at hi
    rcases hi with ⟨k, hk, rfl⟩ | ⟨c, hc, rfl⟩
    · rw [List.mem_range] at hk
      exact ⟨Int.natCast_nonneg k, Int.ofNat_lt.mpr hk⟩
    · rcases mem_table.mp hc with hc | rfl
      · exact inTable_of_mem hc
      · exact absurd rfl hne
  -- where `l+1` overflows there is no result, and else the suffix decides
  · by_contra hint
    obtain ⟨⟨t, m, v, hcheck, -⟩, -⟩ := hv fun _ => 0
    rw [check_of_overflow h0 hint] at hcheck
    simp only [reduceCtorEq] at hcheck
  · obtain ⟨⟨t, m, v, hcheck, hrange, hvalid⟩, -⟩ := hv fun _ => 0
    obtain ⟨back, heq⟩ := check_eq h0 hcs (reversed fun _ => 0)
    rw [heq, Option.some_inj, Prod.mk.injEq, Prod.mk.injEq] at hcheck
    obtain ⟨rfl, -, rfl⟩ := hcheck
    have hcovered := (inRange_scanned_iff _ cs).mp hrange
    refine ⟨hcovered, fun hletters => ?_⟩
    have haccepts := (accepts_iff_of_covered (fun _ => 0) hcovered).mpr hletters
    exact ((valid_iff_of_suffix hcs).mp (hvalid.mp (if_pos haccepts))).2
  -- a name of another form is rejected, and no cell is read for it
  · rintro ⟨hint, hsuffix⟩ around
    by_cases hform : ∃ cs, Suffix p cs
    · obtain ⟨cs, hcs⟩ := hform
      exact validates_of_covered h0 hcs (hsuffix cs hcs).1 (hsuffix cs hcs).2
    · obtain ⟨m, hcheck⟩ := check_of_not h0 hint (not_exists.mp hform) (reversed around)
      have hrange : InRange (reversed around) := fun i hi => absurd hi List.not_mem_nil
      refine ⟨⟨_, m, 1, hcheck, hrange, iff_of_false Int.one_ne_zero fun hv => ?_⟩, ?_⟩
      · exact hform (exists_suffix hv)
      · exact ⟨_, main_of_ne_zero hcheck Int.one_ne_zero, hrange⟩

/-- The ten characters stand behind the sign and the first character, or behind the first
    character. -/
theorem suffix_eq (h : Suffix p cs) : cs = (p.drop 1).take 10 ∨ cs = (p.drop 2).take 10 := by
  obtain ⟨hlen, rest, ⟨rfl, -⟩ | ⟨rfl, -⟩⟩ := h
  · exact .inl (List.take_left' hlen).symm
  · exact .inr (List.take_left' hlen).symm

/-- The name `Z0123456789`. -/
theorem name_validation_digits :
    Validates [0x5a, 0x30, 0x31, 0x32, 0x33, 0x34, 0x35, 0x36, 0x37, 0x38, 0x39] := by
  refine ((name_validation (by decide)).2).mpr ⟨.inr (by decide), fun cs hcs => ?_⟩
  have hletters : ∀ c ∈ cs, c ∈ letters := by
    rcases suffix_eq hcs with rfl | rfl
    · simp only [List.drop_succ_cons, List.drop_zero, List.take_succ_cons, List.take_zero,
        List.forall_mem_cons, List.not_mem_nil, false_implies, implies_true, and_true]
      decide
    · simp only [List.drop_succ_cons, List.drop_zero, List.take_succ_cons, List.take_nil,
        List.forall_mem_cons, List.not_mem_nil, false_implies, implies_true, and_true]
      decide
  exact ⟨covered_of_letters hletters, fun _ => by decide⟩

/-- The name `ZZ000000000`, with the last letter among the ten. -/
def lastLetter : List UInt8 := lastChar :: lastChar :: List.replicate 9 0x30

/-- The name `Zaaaaaaaaaa`. -/
def lowerCase : List UInt8 := lastChar :: List.replicate 10 0x61

/-- The valid name `ZZ000000000` is looked up outside of the table, where `reverse_table` has
    written before.  If the memory behind the table is zero, then `Zaaaaaaaaaa` is accepted. -/
theorem name_validation_failed :
    (∀ around, 90 ∈ (reverseTable ⟨around, []⟩).used) ∧
    (ValidName lastLetter ∧ ∀ around, ∃ t m v,
      check (reversed around) (cstr lastLetter) = some (t, m, v) ∧ 90 ∈ t.used) ∧
    (¬ ValidName lowerCase ∧ ∃ t m,
      check (reversed fun _ => 0) (cstr lowerCase) = some (t, m, 0) ∧ 97 ∈ t.used) := by
  refine ⟨mem_used_reverseTable, ⟨⟨lastChar :: List.replicate 9 0x30, rfl, ?_, .inl rfl⟩,
    fun around => ?_⟩, ?_, ?_⟩
  -- the last letter of the alphabet is valid, and its cell is outside
  · rw [List.forall_mem_cons]
    refine ⟨by decide, fun c hc => ?_⟩
    rw [List.eq_of_mem_replicate hc]
    decide
  · have hsuffix : Suffix lastLetter (lastChar :: List.replicate 9 0x30) :=
      ⟨rfl, [], .inl ⟨rfl, by decide⟩⟩
    obtain ⟨back, hcheck⟩ := check_eq (by decide) hsuffix (reversed around)
    exact ⟨_, _, _, hcheck, List.mem_map.mpr ⟨lastChar, head_mem_scanned _ _ _, rfl⟩⟩
  -- a lower-case letter is not valid, but with a cell that holds 0 it is accepted
  · rintro ⟨cs, -, htable, hp⟩
    have hmem : (0x61 : UInt8) ∈ cs := by
      rcases hp with hp | hp
      · rw [lowerCase, List.cons.injEq] at hp
        rw [← hp.2]
        exact List.mem_cons_self
      · rw [lowerCase, List.cons.injEq] at hp
        exact absurd hp.1 (by decide)
    exact absurd (htable _ hmem) (by decide)
  · have hsuffix : Suffix lowerCase (List.replicate 10 0x61) := ⟨rfl, [], .inl ⟨rfl, by decide⟩⟩
    obtain ⟨back, hcheck⟩ := check_eq (by decide) hsuffix (reversed fun _ => 0)
    have haccepts : accepts (reversed fun _ => 0).cell (List.replicate 10 0x61) = true := by
      decide +kernel
    rw [if_pos haccepts] at hcheck
    exact ⟨_, _, hcheck, List.mem_map.mpr ⟨0x61, head_mem_scanned _ _ _, rfl⟩⟩

end CPlayground.IdDecoder
