import CPlayground.Codec.Utf8
import CPlayground.Lib.Search

namespace CPlayground

open Memory Utf8

/-!
# `name_codec`

The program reads the code points of its argument one after another, looks each of them up with
`bsearch`, and prints the characters of the table behind the head of a link.

* `NameCodec.translate_reads` — the loop stores the characters of known code points, and
  `NameCodec.translate_unknown`, `NameCodec.translate_end` are its two ends.
* `NameCodec.translates_all_iff` — undecodable bytes end the loop like the end of the argument, and
  the array is not as long as the argument may be.
-/

namespace NameCodec

/-- `struct st_pair_t`. -/
structure Pair where
  x : UInt32
  c : Char
  deriving DecidableEq

/-- `pairs`. -/
def pairs : List Pair :=
  [⟨0x4e25, 'q'⟩, ⟨0x4e91, 'E'⟩, ⟨0x4efb, 'V'⟩, ⟨0x4f0d, '-'⟩, ⟨0x4f55, 'k'⟩, ⟨0x4f59, '_'⟩,
    ⟨0x4fde, 'U'⟩, ⟨0x51af, '8'⟩, ⟨0x51e4, 'R'⟩, ⟨0x534e, 'r'⟩, ⟨0x536b, 'b'⟩, ⟨0x5415, 'l'⟩,
    ⟨0x5434, '5'⟩, ⟨0x5468, '4'⟩, ⟨0x5510, 'Y'⟩, ⟨0x55bb, 'z'⟩, ⟨0x595a, 'I'⟩, ⟨0x59da, '/'⟩,
    ⟨0x59dc, 'v'⟩, ⟨0x5b54, 'o'⟩, ⟨0x5b59, '2'⟩, ⟨0x5b5f, '?'⟩, ⟨0x5c24, 'i'⟩, ⟨0x5c39, '%'⟩,
    ⟨0x5f20, 'n'⟩, ⟨0x5f6d, 'K'⟩, ⟨0x621a, 'w'⟩, ⟨0x65b9, 'T'⟩, ⟨0x65bd, 'm'⟩, ⟨0x660c, 'O'⟩,
    ⟨0x66f9, 'p'⟩, ⟨0x6731, 'g'⟩, ⟨0x674e, '3'⟩, ⟨0x6768, 'f'⟩, ⟨0x67f3, 'X'⟩, ⟨0x6c34, 'B'⟩,
    ⟨0x6c5f, '&'⟩, ⟨0x6c88, 'd'⟩, ⟨0x6f58, 'G'⟩, ⟨0x738b, '7'⟩, ⟨0x798f, 'A'⟩, ⟨0x79e6, 'h'⟩,
    ⟨0x7aa6, 'C'⟩, ⟨0x7ae0, 'D'⟩, ⟨0x7c73, '+'⟩, ⟨0x7f57, 'Z'⟩, ⟨0x82b1, 'S'⟩, ⟨0x82cf, 'F'⟩,
    ⟨0x82d7, 'Q'⟩, ⟨0x8303, 'J'⟩, ⟨0x845b, 'H'⟩, ⟨0x848b, 'c'⟩, ⟨0x859b, '.'⟩, ⟨0x8881, 'W'⟩,
    ⟨0x891a, 'a'⟩, ⟨0x8bb8, 'j'⟩, ⟨0x8c22, 'x'⟩, ⟨0x8d1d, '='⟩, ⟨0x8d75, '0'⟩, ⟨0x90b9, 'y'⟩,
    ⟨0x90ce, 'L'⟩, ⟨0x90d1, '6'⟩, ⟨0x91d1, 's'⟩, ⟨0x949f, '*'⟩, ⟨0x94b1, '1'⟩, ⟨0x9648, '9'⟩,
    ⟨0x9676, 'u'⟩, ⟨0x97e6, 'N'⟩, ⟨0x97e9, 'e'⟩, ⟨0x987e, '#'⟩, ⟨0x9a6c, 'P'⟩, ⟨0x9b4f, 't'⟩,
    ⟨0x9c81, 'M'⟩]

/-- `pair_cmp`: the difference as an `int`, if it is one. -/
def pairCmp (a b : UInt32) : Option Int :=
  let d := a.toInt32.toInt - b.toInt32.toInt
  if -2 ^ 31 ≤ d ∧ d < 2 ^ 31 then some d else none

/-- The loop of `main`, for at most `n` rounds: whether it ends with `break`, the position behind
    the last character, and the array. -/
def translate : Nat → Stream → Nat → Mem → Option (Bool × Nat × Mem)
  | 0,     _, _, _ => none
  | n + 1, s, p, a => (utf8StreamNext s).bind fun q =>
      -- the end of the argument and an error of the decoder are the same here
      if q.1 = minusOne then some (true, p, a)
      else (Search.bsearch (fun y => pairCmp q.1 y.x) pairs).bind fun
        -- `goto err`
        | none   => some (false, p, a)
        | some y => (write a p y.c.toUInt8).bind fun a => translate n q.2.2 (p + 1) a

/-- How the program ends. -/
structure Exit where
  code : Nat
  stdout : List UInt8 := []
  stderr : List UInt8 := []
  deriving DecidableEq

/-- The bytes of a literal. -/
def literal (s : String) : List UInt8 := s.toList.map Char.toUInt8

/-- `MAGNETPREFIX`. -/
def magnetPrefix : List UInt8 := literal "magnet:?xt=urn:btih:"

/-- What `main` does behind the loop. -/
def finish : Bool × Nat × Mem → Option Exit
  | (true, p, a)  => (write a p 0).bind fun a => (toStr a).map fun text =>
      { code := 0, stdout := magnetPrefix ++ text ++ literal "\n" }
  | (false, _, _) => some { code := 2, stderr := literal "invalid input\n" }

/-- `main`.  The length of the argument becomes an `unsigned`, and every round of the loop passes a
    byte of the argument or ends it. -/
def main : List (List UInt8) → Option Exit
  | []            => none
  | [name]        =>
    some { code := 1, stderr := literal "usage:" ++ name ++ literal " name-list\n" }
  | _ :: arg :: _ => (strlen (cstr arg)).bind fun len =>
    (translate (len + 1) (utf8StreamInit (cstr arg) (UInt32.ofNat len)) 0 (malloc 512)).bind finish

/-! ### Looking up a code point -/

/-- The character that is paired with a code point. -/
def paired (x : UInt32) : Option UInt8 := (pairs.find? fun y => y.x = x).map fun y => y.c.toUInt8

/-- A code point that occurs in the table. -/
def Known (x : UInt32) : Prop := x ∈ pairs.map Pair.x

instance (x : UInt32) : Decidable (Known x) := inferInstanceAs (Decidable (_ ∈ _))

/-- The table is sorted, as `bsearch` needs it. -/
theorem pairs_sorted : pairs.Pairwise fun a b => a.x.toNat < b.x.toNat := by decide +kernel

/-- Its code points are small, so that their differences are `int`s. -/
theorem pairs_lt : ∀ y ∈ pairs, y.x.toNat < 2 ^ 21 := by decide +kernel

/-- None of its characters is a NUL. -/
theorem pairs_ne_zero : ∀ y ∈ pairs, y.c.toUInt8 ≠ 0 := by decide +kernel

variable {x : UInt32}

/-- A small code point is the same as an `int`. -/
theorem toInt_toInt32 (hx : x.toNat < 2 ^ 21) : x.toInt32.toInt = x.toNat := by
  rw [UInt32.toInt32, Int32.toInt]
  show x.toBitVec.toInt = _
  rw [BitVec.toInt_eq_toNat_of_lt]
  · rfl
  · show 2 * x.toNat < _
    omega

/-- The comparison is the difference of the code points. -/
theorem pairCmp_eq {y : UInt32} (hx : x.toNat < 2 ^ 21) (hy : y.toNat < 2 ^ 21) :
    pairCmp x y = some ((x.toNat : Int) - y.toNat) := by
  rw [pairCmp, toInt_toInt32 hx, toInt_toInt32 hy]
  exact if_pos (by omega)

/-- **The binary search** finds the pair of a code point: the table is sorted, and no difference
    overflows. -/
theorem bsearch_pairs (hx : x.toNat < 2 ^ 21) :
    Search.bsearch (fun y => pairCmp x y.x) pairs = some (pairs.find? fun y => y.x = x) := by
  have hcmp : ∀ y ∈ pairs, pairCmp x y.x = some ((x.toNat : Int) - y.x.toNat) :=
    fun y hy => pairCmp_eq hx (pairs_lt y hy)
  rw [Search.bsearch_eq_find hcmp (pairs_sorted.imp fun _ _ => by omega)]
  congr
  funext y
  rw [Bool.eq_iff_iff, decide_eq_true_iff, decide_eq_true_iff, ← UInt32.toNat_inj]
  omega

/-- A known code point is found, with its character. -/
theorem find_of_known (hx : Known x) :
    ∃ y, pairs.find? (fun y => y.x = x) = some y ∧ paired x = some y.c.toUInt8 := by
  obtain ⟨y, hy, rfl⟩ := List.mem_map.mp hx
  cases hfind : pairs.find? (fun z => z.x = y.x) with
  | none => exact absurd (List.find?_eq_none.mp hfind y hy) (by simp)
  | some z => exact ⟨z, rfl, by rw [paired, hfind]; rfl⟩

/-- A code point that is not known is not found. -/
theorem find_of_not_known (hx : ¬ Known x) : pairs.find? (fun y => y.x = x) = none := by
  rw [List.find?_eq_none]
  intro y hy h
  exact hx (List.mem_map.mpr ⟨y, hy, by simpa using h⟩)

/-! ### The loop -/

/-- The stream of bytes that are a part of a longer block. -/
abbrev streamOf (bs : List UInt8) (extra : Mem) : Stream := ⟨bs.map some ++ extra, bs.length⟩

variable {bs rest : List UInt8} {xs : List UInt32} {extra a : Mem} {n p : Nat}

/-- At the end of the argument, or at bytes that are no code point, the loop ends. -/
theorem translate_end (hrest : firstCodePoint rest = none) :
    translate (n + 1) (streamOf rest extra) p a = some (true, p, a) := by
  rw [translate, utf8StreamNext_eq, hrest]
  rfl

/-- At a code point that is not known the program gives up. -/
theorem translate_unknown {c : Nat} (hrest : firstCodePoint rest = some (c, x)) (hx : ¬ Known x) :
    translate (n + 1) (streamOf rest extra) p a = some (false, p, a) := by
  have hlt := (firstCodePoint_bounds hrest).2.2.2
  rw [translate, utf8StreamNext_eq, hrest]
  simp only [Option.bind_some, ne_minusOne hlt, if_false, bsearch_pairs hlt, find_of_not_known hx]

/-- **The loop** over known code points stores their characters in the array, as long as there is
    room; the induction is on the code points that are read. -/
theorem translate_reads (h : Reads bs xs rest) (hxs : ∀ x ∈ xs, Known x) :
    translate (n + xs.length) (streamOf bs extra) p a
      = (store a p (xs.filterMap paired)).bind fun a =>
          translate n (streamOf rest extra) (p + xs.length) a := by
  induction h generalizing p a with
  | nil => rfl
  | cons hfirst _ ih =>
    rw [List.forall_mem_cons] at hxs
    have hlt := (firstCodePoint_bounds hfirst).2.2.2
    obtain ⟨y, hfind, hpaired⟩ := find_of_known hxs.1
    rw [List.length_cons, ← Nat.add_assoc, translate, utf8StreamNext_eq, hfirst]
    simp only [Option.bind_some, ne_minusOne hlt, if_false, bsearch_pairs hlt, hfind,
      List.filterMap_cons, hpaired, store, Option.bind_assoc]
    congr
    funext a
    rw [ih hxs.2]
    congr
    funext a
    rw [Nat.add_assoc, Nat.add_comm 1]

/-- There is one character for each known code point. -/
theorem length_paired (hxs : ∀ x ∈ xs, Known x) : (xs.filterMap paired).length = xs.length := by
  induction xs with
  | nil => rfl
  | cons x xs ih =>
    rw [List.forall_mem_cons] at hxs
    obtain ⟨y, -, hpaired⟩ := find_of_known hxs.1
    rw [List.filterMap_cons, hpaired]
    exact congrArg (· + 1) (ih hxs.2)

/-- The characters make a string. -/
theorem zero_not_mem_paired : 0 ∉ xs.filterMap paired := by
  intro h
  obtain ⟨x, -, hx⟩ := List.mem_filterMap.mp h
  obtain ⟨y, hfind, hy⟩ := Option.map_eq_some_iff.mp hx
  exact pairs_ne_zero y (List.mem_of_find?_eq_some hfind) hy

/-! ### The program -/

/-- The bytes of the argument that the stream has. -/
def seen (arg : List UInt8) : List UInt8 := arg.take (arg.length % 2 ^ 32)

variable {arg : List UInt8} (name : List UInt8) (more : List (List UInt8))

/-- `main` is the loop over the bytes of the argument that the stream has, and `finish`. -/
theorem main_eq (harg : 0 ∉ arg) : ∃ extra, main (name :: arg :: more)
    = (translate (arg.length + 1) (streamOf (seen arg) extra) 0 (malloc 512)).bind finish := by
  have hlen : (seen arg).length = arg.length % 2 ^ 32 := by
    rw [seen, List.length_take]
    exact Nat.min_eq_left (Nat.mod_le _ _)
  refine ⟨(arg.drop (arg.length % 2 ^ 32) ++ [0]).map some, ?_⟩
  rw [main, strlen_cstr harg, Option.bind_some, utf8StreamInit, streamOf, hlen, ← List.map_append,
    ← List.append_assoc, seen, List.take_append_drop, UInt32.toNat_ofNat']
  rfl

/-- The argument is a sequence of known code points that fit into the array. -/
def Accepted (arg : List UInt8) (xs : List UInt32) : Prop :=
  Reads arg xs [] ∧ (∀ x ∈ xs, Known x) ∧ xs.length ≤ 511

/-- The loop meets a code point that is not known, and the characters of those before it fit into
    the array. -/
def Refused (arg : List UInt8) (ks : List UInt32) : Prop :=
  (∃ u rest, Reads (seen arg) (ks ++ [u]) rest ∧ ¬ Known u) ∧ (∀ x ∈ ks, Known x) ∧ ks.length ≤ 512

/-- Every code point has a byte, so the rounds of the loop are enough for all of them. -/
theorem fuel_eq (h : Reads (seen arg) xs rest) :
    arg.length + 1 = arg.length - xs.length + 1 + xs.length := by
  have hlen := h.length_bounds.1
  have hle : (seen arg).length ≤ arg.length := List.length_take_le' _ _
  omega

/-- **Known code points up to the end** are printed, if there is room for their characters and the
    terminator behind them in the array. -/
theorem main_of_known (harg : 0 ∉ arg) (h : Reads (seen arg) xs rest)
    (hend : firstCodePoint rest = none) (hxs : ∀ x ∈ xs, Known x) :
    main (name :: arg :: more) = if xs.length ≤ 511 then
        some { code := 0, stdout := magnetPrefix ++ xs.filterMap paired ++ literal "\n" }
      else none := by
  obtain ⟨extra, hmain⟩ := main_eq name more harg
  have hfuel := fuel_eq h
  rw [hmain, hfuel, translate_reads h hxs, store_malloc, length_paired hxs]
  by_cases hlen : xs.length ≤ 511
  · have hroom : 512 - xs.length = 511 - xs.length + 1 := by omega
    have hwrite := write_fresh (xs.filterMap paired) 0 (511 - xs.length)
    rw [length_paired hxs] at hwrite
    rw [if_pos hlen, if_pos (by omega), Option.bind_some, translate_end hend, Option.bind_some,
      finish, Nat.zero_add, hroom, hwrite, Option.bind_some, List.map_append, List.append_assoc]
    exact congrArg _ (toStr_append zero_not_mem_paired _)
  · rw [if_neg hlen]
    split
    · -- the terminator is the byte that does not fit
      have hfull : xs.length = 512 := by omega
      rw [Option.bind_some, translate_end hend, Option.bind_some, finish, write, if_neg]
      · rfl
      · simp [length_paired hxs, hfull]
    · rfl

/-- **A code point that is not known**: the program prints its error, unless the code points before
    it do not fit into the array. -/
theorem main_of_unknown {c : Nat} (harg : 0 ∉ arg) (h : Reads (seen arg) xs rest)
    (hrest : firstCodePoint rest = some (c, x)) (hx : ¬ Known x) (hxs : ∀ x ∈ xs, Known x) :
    main (name :: arg :: more) = if xs.length ≤ 512 then
        some { code := 2, stderr := literal "invalid input\n" }
      else none := by
  obtain ⟨extra, hmain⟩ := main_eq name more harg
  have hfuel := fuel_eq h
  rw [hmain, hfuel, translate_reads h hxs, store_malloc, length_paired hxs]
  split
  · rw [Option.bind_some, translate_unknown hrest hx]
    rfl
  · rfl

/-- What is read of the part that the stream has, and of the whole argument. -/
theorem Accepted.isPrefix {ys : List UInt32} (hacc : Accepted arg ys)
    (h : Reads (seen arg) xs rest) : xs <+: ys := by
  refine h.isPrefix (arg.drop (arg.length % 2 ^ 32)) ?_ firstCodePoint_nil
  rw [seen, List.take_append_drop]
  exact hacc.1

/-- An argument that is accepted is short. -/
theorem Accepted.seen_eq (hacc : Accepted arg xs) : seen arg = arg := by
  have hlen := hacc.1.length_bounds.2
  have hshort := hacc.2.2
  rw [List.length_nil] at hlen
  rw [seen, Nat.mod_eq_of_lt (by omega), List.take_length]

/-- What is accepted is all that is read. -/
theorem Accepted.eq_of_maximal {ys : List UInt32} (hacc : Accepted arg ys)
    (h : Reads (seen arg) xs rest) (hend : firstCodePoint rest = none) : xs = ys := by
  have hreads := hacc.1
  rw [← hacc.seen_eq] at hreads
  exact h.unique hend hreads firstCodePoint_nil

/-- Behind at most as many known code points as here there is none that is not known. -/
theorem not_refused {ks : List UInt32} {u : UInt32} {rest' : List UInt8}
    (hends : firstCodePoint rest = none) (h : Reads (seen arg) xs rest)
    (hks : Reads (seen arg) (ks ++ [u]) rest') {j : Nat} (hj : ks.length < j)
    (hxs : ∀ x ∈ xs.take j, Known x) : Known u := by
  rw [← List.append_nil (seen arg)] at h
  obtain ⟨more, rfl⟩ := hks.isPrefix [] h hends
  refine hxs u (List.mem_take_iff_getElem.mpr ⟨ks.length, ?_, ?_⟩)
  · simp
    omega
  · simp

/-- The first code point that is not known. -/
theorem exists_first_unknown (h : ¬ ∀ x ∈ xs, Known x) :
    ∃ ks u zs, xs = ks ++ u :: zs ∧ (∀ x ∈ ks, Known x) ∧ ¬ Known u := by
  have hsome : (xs.find? fun x => ¬ Known x).isSome := by
    rw [List.find?_isSome]
    simpa using h
  obtain ⟨u, hu⟩ := Option.isSome_iff_exists.mp hsome
  obtain ⟨hunknown, ks, zs, hsplit, hks⟩ := List.find?_eq_some_iff_append.mp hu
  exact ⟨ks, u, zs, hsplit, by simpa using hks, by simpa using hunknown⟩

/-- What the program is for: it translates its whole argument, or it fails. -/
def TranslatesOrFails (name arg : List UInt8) (more : List (List UInt8)) : Prop :=
  ∃ exit, main (name :: arg :: more) = some exit ∧
    (exit.code = 0 ↔ ∃ xs, Accepted arg xs) ∧
    ∀ xs, Accepted arg xs → exit.stdout = magnetPrefix ++ xs.filterMap paired ++ literal "\n"

/-- The loop reads all of the code points, as each of them is known; whether these are the whole
    argument depends on the bytes that are left. -/
theorem translates_of_known (harg : 0 ∉ arg) (hreads : Reads (seen arg) xs rest)
    (hend : firstCodePoint rest = none) (hxs : ∀ x ∈ xs, Known x) :
    TranslatesOrFails name arg more ↔ (∃ xs, Accepted arg xs) ∨ ∃ ks, Refused arg ks := by
  have hmain := main_of_known name more harg hreads hend hxs
  have hnot : ¬ ∃ ks, Refused arg ks := by
    rintro ⟨ks, ⟨u, rest', hks, hu⟩, -⟩
    exact hu (not_refused hend hreads hks (Nat.lt_succ_self _)
      fun x hx => hxs x (List.mem_of_mem_take hx))
  rw [or_iff_left hnot]
  constructor
  · rintro ⟨exit, hexit, hcode, -⟩
    rw [hmain] at hexit
    split at hexit
    · cases hexit
      exact hcode.mp rfl
    · cases hexit
  · rintro ⟨ys, hacc⟩
    cases hacc.eq_of_maximal hreads hend
    rw [if_pos hacc.2.2] at hmain
    refine ⟨_, hmain, ⟨fun _ => ⟨_, hacc⟩, fun _ => rfl⟩, fun ys hys => ?_⟩
    rw [hys.eq_of_maximal hreads hend]

/-- The loop stops at the first code point that is not known; what comes behind it makes no
    difference. -/
theorem translates_of_unknown {ks zs : List UInt32} {u : UInt32} (harg : 0 ∉ arg)
    (hreads : Reads (seen arg) (ks ++ u :: zs) rest) (hend : firstCodePoint rest = none)
    (hks : ∀ x ∈ ks, Known x) (hu : ¬ Known u) :
    TranslatesOrFails name arg more ↔ (∃ xs, Accepted arg xs) ∨ ∃ ks, Refused arg ks := by
  obtain ⟨bs, hbefore, hbs⟩ := hreads.exists_of_append
  cases hbs with
  | cons hfirst hrest =>
    have hmain := main_of_unknown name more harg hbefore hfirst hu hks
    have hnot : ¬ ∃ ys, Accepted arg ys := by
      rintro ⟨ys, hacc⟩
      exact hu (hacc.2.1 u ((hacc.isPrefix hreads).subset (by simp)))
    rw [or_iff_right hnot]
    split at hmain
    · next hlen =>
      refine iff_of_true ⟨_, hmain, ⟨fun h => absurd h (by simp), fun h => absurd h hnot⟩,
        fun ys hacc => absurd ⟨ys, hacc⟩ hnot⟩ ?_
      exact ⟨ks, ⟨u, _, hbefore.append (.cons hfirst (.nil _)), hu⟩, hks, hlen⟩
    · -- the characters before it do not fit, and it is the first one
      next hlen =>
      refine iff_of_false ?_ ?_
      · rintro ⟨exit, hexit, -⟩
        rw [hmain] at hexit
        cases hexit
      · rintro ⟨ks', ⟨u', rest', hks', hu'⟩, -, hlen'⟩
        refine hu' (not_refused hend hreads hks' (j := ks.length) (by omega) ?_)
        rwa [List.take_left]

/-- **The program** does what it is for exactly if the argument is accepted or a code point that is
    not known comes behind at most as many known ones as the array has bytes.  Otherwise it is
    successful although there are bytes left that are no code point, or it writes behind the end of
    the array. -/
theorem translates_all_iff (harg : 0 ∉ arg) :
    TranslatesOrFails name arg more ↔ (∃ xs, Accepted arg xs) ∨ ∃ ks, Refused arg ks := by
  obtain ⟨xs, rest, hreads, hend⟩ := Reads.exists_maximal (seen arg)
  by_cases hxs : ∀ x ∈ xs, Known x
  · exact translates_of_known name more harg hreads hend hxs
  · obtain ⟨ks, u, zs, rfl, hks, hu⟩ := exists_first_unknown hxs
    exact translates_of_unknown name more harg hreads hend hks hu

/-- Two code points of the table. -/
theorem translates_all_iff_two :
    TranslatesOrFails (literal "name_codec") [0xe4, 0xb8, 0xa5, 0xe9, 0xb2, 0x81] [] ∧
    main [literal "name_codec", [0xe4, 0xb8, 0xa5, 0xe9, 0xb2, 0x81]]
      = some { code := 0, stdout := literal "magnet:?xt=urn:btih:qM\n" } := by
  have hknown : ∀ x ∈ ([0x4e25, 0x9c81] : List UInt32), Known x := by
    simp only [List.forall_mem_cons, List.not_mem_nil, false_implies, implies_true, and_true]
    decide
  refine ⟨(translates_all_iff _ _ (by decide)).mpr (.inl ⟨[0x4e25, 0x9c81], ?_⟩), by decide +kernel⟩
  exact ⟨.cons (c := 3) (by decide) (.cons (c := 3) (by decide) (.nil _)), hknown, by decide⟩

/-- A byte that begins no code point: the program is successful and prints the head alone. -/
theorem translates_all_invalid :
    main [literal "name_codec", [0xff]]
      = some { code := 0, stdout := literal "magnet:?xt=urn:btih:\n" } ∧
    ¬ TranslatesOrFails (literal "name_codec") [0xff] [] := by
  have hmain : main [literal "name_codec", [0xff]]
      = some { code := 0, stdout := literal "magnet:?xt=urn:btih:\n" } := by decide +kernel
  have hnone : firstCodePoint [0xff] = none := by decide
  refine ⟨hmain, ?_⟩
  rintro ⟨exit, hexit, hcode, -⟩
  cases hmain.symm.trans hexit
  obtain ⟨xs, hreads, -⟩ := hcode.mp rfl
  cases hreads with
  | cons hfirst _ => cases hnone.symm.trans hfirst

end NameCodec

end CPlayground
