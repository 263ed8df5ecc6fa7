import CPlayground.Lib.Bytes
import CPlayground.Lib.Loop
import CPlayground.Lib.Memory
import Mathlib.Data.List.GetD

namespace CPlayground

open Loop Memory

/-!
# Base64

`base64_encode` reads its string in groups of three bytes, the last of which may be shorter, and
`base64_decode` reads the text in groups of four characters.  Both write to memory of a size that
they compute before.

The text is specified by `rfc4648`: a group is a number of 24 bits, written as four digits of six
bits each, and the digits that a short group has no bits for are padding.

* `Base64.base64Encode_eq` — the memory of `base64_encode` is filled with the text, to its end.
* `Base64.base64Decode_eq` — the memory of `base64_decode` has the bytes of the groups.
* `base64_round_trip` — so decoding gives the string back.
-/

namespace Base64

/-! ### The tables -/

/-- `base64_table` and `base64_rtable`. -/
structure Tables where
  table : List UInt8 := List.replicate 256 0
  rtable : List UInt8 := List.replicate 256 0

/-- `ASSIGN`. -/
def Tables.assign (t : Tables) (x : Nat) (y : UInt8) : Tables :=
  ⟨t.table.set x y, t.rtable.set y.toNat (UInt8.ofNat x)⟩

/-- `base64_table_init`, which runs before `main`. -/
def base64TableInit : Tables :=
  let t := (List.range 26).foldl (fun (t : Tables) i =>
    (t.assign i ('A'.toUInt8 + UInt8.ofNat i)).assign (i + 26) ('a'.toUInt8 + UInt8.ofNat i)) {}
  let t := (List.range 10).foldl (fun (t : Tables) i =>
    t.assign (i + 52) ('0'.toUInt8 + UInt8.ofNat i)) t
  let t := (t.assign 62 '+'.toUInt8).assign 63 '/'.toUInt8
  { t with rtable := t.rtable.set '='.toUInt8.toNat 0 }

/-- `base64_table[x]`. -/
def base64Table (x : UInt8) : UInt8 := base64TableInit.table.getD x.toNat 0

/-- `base64_rtable[x]`. -/
def base64Rtable (x : UInt8) : UInt8 := base64TableInit.rtable.getD x.toNat 0

/-! ### Encoding -/

/-- `union base64_group_u`, whose last byte is not used. -/
structure Group where
  b0 : UInt8 := 0
  b1 : UInt8 := 0
  b2 : UInt8 := 0

/-- `group.a[n] = c`. -/
def Group.set (group : Group) (n : Nat) (c : UInt8) : Group :=
  match n with
  | 0 => { group with b0 := c }
  | 1 => { group with b1 := c }
  | _ => { group with b2 := c }

/-- `base64_group_b0`: the first six bits of a group. -/
def base64GroupB0 (group : Group) : UInt8 := group.b0 >>> 2

/-- `base64_group_b1`: two bits of the first byte and four of the second one. -/
def base64GroupB1 (group : Group) : UInt8 := ((group.b0 &&& 0x3) <<< 4) + (group.b1 >>> 4)

/-- `base64_group_b2`: four bits of the second byte and two of the third one. -/
def base64GroupB2 (group : Group) : UInt8 := ((group.b1 &&& 0xf) <<< 2) + (group.b2 >>> 6)

/-- `base64_group_b3`: the last six bits. -/
def base64GroupB3 (group : Group) : UInt8 := group.b2 &&& 0x3f

/-- The variables of `base64_encode`. -/
structure Encoding where
  done : Bool := false
  src : Mem
  p : Nat := 0
  dst : Mem

/-- The `for` loop that reads a group, with `k` rounds to go: `n`, the group, `done` and `src`. -/
def readGroup : Nat → Nat → Group → Mem → Option (Nat × Group × Bool × Mem)
  | 0,     n, group, src => some (n, group, false, src)
  | k + 1, n, group, src =>
    (deref src).bind fun c =>
      if c = 0 then some (n, group, true, src) else readGroup k (n + 1) (group.set n c) src.tail

/-- The characters of a group of `n` bytes. -/
def groupChars (n : Nat) (group : Group) : List UInt8 :=
  [base64Table (base64GroupB0 group), base64Table (base64GroupB1 group),
    if n < 2 then '='.toUInt8 else base64Table (base64GroupB2 group),
    if n < 3 then '='.toUInt8 else base64Table (base64GroupB3 group)]

/-- One round of `base64_encode`. -/
def encodeRound (s : Encoding) : Option Encoding :=
  (readGroup 3 0 {} s.src).bind fun (n, group, done, src) =>
    if n > 0 then
      (store s.dst s.p (groupChars n group)).map fun dst => ⟨done, src, s.p + 4, dst⟩
    else some { s with done := done, src := src }

/-- `base64_encode`: the memory that it returns. -/
def base64Encode (src : Mem) : Option Mem :=
  (strlen src).bind fun len =>
    (run (fun s => !s.done) encodeRound (len + 1)
      { src := src, dst := malloc ((len + 2) / 3 * 4 + 1) }).bind fun s => write s.dst s.p 0

/-! ### Decoding -/

/-- The variables of `base64_decode`. -/
structure Decoding where
  q : Mem
  p : Nat := 0
  dst : Mem

/-- The bytes of a group of characters. -/
def groupBytes (q0 q1 q2 q3 : UInt8) : List UInt8 :=
  [(base64Rtable q0 <<< 2) ||| (base64Rtable q1 >>> 4),
    ((base64Rtable q1 &&& 0xf) <<< 4) ||| (base64Rtable q2 >>> 2),
    ((base64Rtable q2 &&& 0x3) <<< 6) ||| base64Rtable q3]

/-- One round of `base64_decode`. -/
def decodeRound (s : Decoding) : Option Decoding := do
  let q0 ← deref s.q
  let q1 ← deref (s.q.drop 1)
  let q2 ← deref (s.q.drop 2)
  let q3 ← deref (s.q.drop 3)
  let dst ← store s.dst s.p (groupBytes q0 q1 q2 q3)
  return ⟨s.q.drop 4, s.p + 3, dst⟩

/-- `base64_decode`: the memory that it returns, or the null pointer.  The length is an `int`, and
    no memory has a negative size. -/
def base64Decode (src : Mem) : Option (Option Mem) :=
  (deref src).bind fun c =>
    if c = 0 then some none
    else (strlen src).bind fun len =>
      let sz := (Int32.ofNat len).toInt
      let size := Int.tdiv sz 4 * 3 + 1
      if sz % 4 ≠ 0 then some none
      else if size < 0 then some none
      else (run (fun s => deref s.q ≠ some 0) decodeRound len
        { q := src, dst := malloc size.toNat }).bind fun s => (write s.dst s.p 0).map some

/-! ### The text -/

/-- The digits of base 64. -/
def alphabet : List UInt8 :=
  "ABCDEFGHIJKLMNOPQRSTUVWXYZabcdefghijklmnopqrstuvwxyz0123456789+/".toList.map Char.toUInt8

/-- The digit for six bits. -/
def digit (n : Nat) : UInt8 := alphabet.getD (n % 64) 0

/-- The four digits of a group of 24 bits. -/
def digits (a b c : UInt8) : List UInt8 :=
  let n := a.toNat * 2 ^ 16 + b.toNat * 2 ^ 8 + c.toNat
  [digit (n / 2 ^ 18), digit (n / 2 ^ 12), digit (n / 2 ^ 6), digit n]

/-- The text of a string, with padding. -/
def rfc4648 : List UInt8 → List UInt8
  | []             => []
  | [a]            => (digits a 0 0).take 2 ++ ['='.toUInt8, '='.toUInt8]
  | [a, b]         => (digits a b 0).take 3 ++ ['='.toUInt8]
  | a :: b :: c :: s => digits a b c ++ rfc4648 s

/-- The groups of a string, the last of which is filled up with zeros. -/
def padded : List UInt8 → List UInt8
  | []             => []
  | [a]            => [a, 0, 0]
  | [a, b]         => [a, b, 0]
  | a :: b :: c :: s => a :: b :: c :: padded s

/-! ### Groups -/

/-- The table of the encoder has the digits. -/
theorem base64Table_eq {x : UInt8} {n : Nat} (h : x.toNat = n % 64) : base64Table x = digit n := by
  have htable : ∀ k : Fin 64, base64TableInit.table.getD k 0 = alphabet.getD k 0 := by
    decide +kernel
  unfold base64Table digit
  rw [h]
  exact htable ⟨n % 64, Nat.mod_lt _ (by decide)⟩

/-- The table of the decoder has their values. -/
theorem base64Rtable_digit (n : Nat) : (base64Rtable (digit n)).toNat = n % 64 := by
  have hrtable : ∀ k : Fin 64, (base64Rtable (alphabet.getD k 0)).toNat = k := by decide +kernel
  exact hrtable ⟨n % 64, Nat.mod_lt _ (by decide)⟩

/-- The padding is decoded as if it were the first digit. -/
theorem base64Rtable_pad : (base64Rtable '='.toUInt8).toNat = 0 := by decide +kernel

/-- No digit is a NUL. -/
theorem digit_ne_zero (n : Nat) : digit n ≠ 0 := by
  have halphabet : ∀ k : Fin 64, alphabet.getD k 0 ≠ 0 := by decide +kernel
  exact halphabet ⟨n % 64, Nat.mod_lt _ (by decide)⟩

/-- The shifts and masks of the encoder take the digits out of a group: a group is 24 bits, and each
    digit is six of them. -/
theorem base64Table_group (a b c : UInt8) :
    [base64Table (base64GroupB0 ⟨a, b, c⟩), base64Table (base64GroupB1 ⟨a, b, c⟩),
      base64Table (base64GroupB2 ⟨a, b, c⟩), base64Table (base64GroupB3 ⟨a, b, c⟩)]
      = digits a b c := by
  have ha := a.toNat_lt
  have hb := b.toNat_lt
  have hc := c.toNat_lt
  -- the masks are powers of two less one, so that `&&&` with one is a remainder
  have hmask2 : (0x3 : UInt8).toNat = 2 ^ 2 - 1 := rfl
  have hmask4 : (0xf : UInt8).toNat = 2 ^ 4 - 1 := rfl
  have hmask6 : (0x3f : UInt8).toNat = 2 ^ 6 - 1 := rfl
  simp only [digits, List.cons.injEq, and_true]
  refine ⟨base64Table_eq ?_, base64Table_eq ?_, base64Table_eq ?_, base64Table_eq ?_⟩
  -- the four digits: six bits each, of the 24 bits of the three bytes
  · simp only [base64GroupB0, UInt8.toNat_shiftRight, Nat.shiftRight_eq_div_pow, UInt8.reduceToNat,
      Nat.reduceMod]
    omega
  · simp only [base64GroupB1, UInt8.toNat_add, UInt8.toNat_shiftLeft, UInt8.toNat_shiftRight,
      UInt8.toNat_and, hmask2, Nat.and_two_pow_sub_one_eq_mod, Nat.shiftRight_eq_div_pow,
      Nat.shiftLeft_eq, UInt8.reduceToNat, Nat.reduceMod]
    omega
  · simp only [base64GroupB2, UInt8.toNat_add, UInt8.toNat_shiftLeft, UInt8.toNat_shiftRight,
      UInt8.toNat_and, hmask4, Nat.and_two_pow_sub_one_eq_mod, Nat.shiftRight_eq_div_pow,
      Nat.shiftLeft_eq, UInt8.reduceToNat, Nat.reduceMod]
    omega
  · simp only [base64GroupB3, UInt8.toNat_and, hmask6, Nat.and_two_pow_sub_one_eq_mod]
    omega

/-- The decoder puts a group together again.  The parts that it shifts do not overlap, so that the
    `|||` of them is their sum. -/
theorem groupBytes_eq {a b c q0 q1 q2 q3 : UInt8} {n : Nat}
    (hn : n = a.toNat * 2 ^ 16 + b.toNat * 2 ^ 8 + c.toNat)
    (h0 : (base64Rtable q0).toNat = n / 2 ^ 18 % 64)
    (h1 : (base64Rtable q1).toNat = n / 2 ^ 12 % 64)
    (h2 : (base64Rtable q2).toNat = n / 2 ^ 6 % 64) (h3 : (base64Rtable q3).toNat = n % 64) :
    groupBytes q0 q1 q2 q3 = [a, b, c] := by
  have ha := a.toNat_lt
  have hb := b.toNat_lt
  have hc := c.toNat_lt
  have hmask2 : (0x3 : UInt8).toNat = 2 ^ 2 - 1 := rfl
  have hmask4 : (0xf : UInt8).toNat = 2 ^ 4 - 1 := rfl
  simp only [groupBytes, List.cons.injEq, and_true]
  refine ⟨UInt8.toNat_inj.mp ?_, UInt8.toNat_inj.mp ?_, UInt8.toNat_inj.mp ?_⟩
  -- the shifted parts do not overlap, and their `|||` is a sum
  · simp only [UInt8.toNat_or, UInt8.toNat_shiftLeft, UInt8.toNat_shiftRight, h0, h1,
      Nat.shiftRight_eq_div_pow, Nat.shiftLeft_eq, UInt8.reduceToNat, Nat.reduceMod]
    rw [Bytes.or_eq_add 2 (by omega) (by omega)]
    omega
  · simp only [UInt8.toNat_or, UInt8.toNat_shiftLeft, UInt8.toNat_shiftRight, UInt8.toNat_and,
      h1, h2, hmask4, Nat.and_two_pow_sub_one_eq_mod, Nat.shiftRight_eq_div_pow, Nat.shiftLeft_eq,
      UInt8.reduceToNat, Nat.reduceMod]
    rw [Bytes.or_eq_add 4 (by omega) (by omega)]
    omega
  · simp only [UInt8.toNat_or, UInt8.toNat_shiftLeft, UInt8.toNat_and, h2, h3, hmask2,
      Nat.and_two_pow_sub_one_eq_mod, Nat.shiftLeft_eq, UInt8.reduceToNat, Nat.reduceMod]
    rw [Bytes.or_eq_add 6 (by omega) (by omega)]
    omega

/-! ### The encoder -/

/-- The text has four characters for each group. -/
theorem length_rfc4648 (s : List UInt8) : (rfc4648 s).length = (s.length + 2) / 3 * 4 := by
  fun_induction rfc4648 s with
  | case1 => rfl
  | case2 a => simp [digits]
  | case3 a b => simp [digits]
  | case4 a b c s ih =>
    rw [List.length_append, ih]
    simp only [digits, List.length_cons, List.length_nil]
    omega

/-- The text has no NUL in it, so it can be a string: neither the alphabet nor the padding has
    one. -/
theorem zero_notMem_rfc4648 (s : List UInt8) : 0 ∉ rfc4648 s := by
  have hdigits : ∀ a b c, 0 ∉ digits a b c := by
    intro a b c
    simp [digits, (digit_ne_zero _).symm]
  fun_induction rfc4648 s with
  | case1 => simp
  | case2 a =>
    rw [List.mem_append, not_or]
    exact ⟨fun h => hdigits _ _ _ (List.mem_of_mem_take h), by decide⟩
  | case3 a b =>
    rw [List.mem_append, not_or]
    exact ⟨fun h => hdigits _ _ _ (List.mem_of_mem_take h), by decide⟩
  | case4 a b c s ih =>
    rw [List.mem_append, not_or]
    exact ⟨hdigits _ _ _, ih⟩

/-- The bytes of the next group of a string. -/
def nextGroup (s : List UInt8) : Group := ⟨s.getD 0 0, s.getD 1 0, s.getD 2 0⟩

/-- A group is read up to the terminator; one that is shorter is the last, and its other bytes are
    those of an empty group. -/
theorem readGroup_cstr {s : List UInt8} (hs : 0 ∉ s) :
    readGroup 3 0 {} (cstr s)
      = some (min 3 s.length, nextGroup s, decide (s.length < 3), cstr (s.drop 3)) := by
  match s with
  | [] => rfl
  | [a] =>
    simp only [List.mem_singleton] at hs
    simp [readGroup, cstr, deref, nextGroup, Group.set, Ne.symm hs]
  | [a, b] =>
    simp only [List.mem_cons, List.not_mem_nil, or_false, not_or] at hs
    simp [readGroup, cstr, deref, nextGroup, Group.set, Ne.symm hs.1, Ne.symm hs.2]
  | a :: b :: c :: s =>
    simp only [List.mem_cons, not_or] at hs
    obtain ⟨ha, hb, hc, -⟩ := hs
    simp [readGroup, cstr, deref, nextGroup, Group.set, Ne.symm ha, Ne.symm hb, Ne.symm hc]

/-- The text of a string begins with the characters of its first group, and goes on with the text of
    the rest. -/
theorem rfc4648_eq {s : List UInt8} (hs : s ≠ []) :
    rfc4648 s = groupChars (min 3 s.length) (nextGroup s) ++ rfc4648 (s.drop 3) := by
  match s with
  | [] => exact absurd rfl hs
  | [a] =>
    have h := base64Table_group a 0 0
    simp only [digits, List.cons.injEq] at h
    simp [rfc4648, groupChars, nextGroup, digits, h]
  | [a, b] =>
    have h := base64Table_group a b 0
    simp only [digits, List.cons.injEq] at h
    simp [rfc4648, groupChars, nextGroup, digits, h]
  | a :: b :: c :: s =>
    have h := base64Table_group a b c
    simp only [digits, List.cons.injEq] at h
    simp [rfc4648, groupChars, nextGroup, digits, h]

/-- A block of which `w` is written, and that has room for `text` and a terminator. -/
def partly (text w : List UInt8) : Mem :=
  w.map some ++ List.replicate (text.length - w.length + 1) none

/-- The new block, in which nothing is written. -/
theorem malloc_eq_partly (text : List UInt8) : malloc (text.length + 1) = partly text [] := rfl

/-- The next characters of the text are written behind those that are there. -/
theorem store_partly {text w cs rest : List UInt8} (h : w ++ cs ++ rest = text) :
    store (partly text w) w.length cs = some (partly text (w ++ cs)) := by
  subst h
  have hsize : (w ++ cs ++ rest).length - w.length + 1
      = cs.length + ((w ++ cs ++ rest).length - (w ++ cs).length + 1) := by
    simp only [List.length_append]
    omega
  unfold partly
  rw [hsize, store_fresh]

/-- Finally the terminator has room behind the text. -/
theorem write_partly (text : List UInt8) :
    write (partly text text) text.length 0 = some (cstr text) := by
  have h := write_fresh text 0 0
  unfold partly
  rw [Nat.sub_self, h]
  simp [cstr]

/-- The state of the encoder: `w` is written, and the rest of the text is that of what is left to be
    read. -/
def Encoded (text : List UInt8) (s : Encoding) : Prop :=
  ∃ w rest, s.p = w.length ∧ s.dst = partly text w ∧ w ++ rfc4648 rest = text ∧
    (s.done = false → s.src = cstr rest ∧ 0 ∉ rest) ∧ (s.done = true → rest = [])

/-- How much the encoder has left to read. -/
def unread (s : Encoding) : Nat := if s.done then 0 else s.src.length

/-- One round of the encoder reads the next group and writes its four characters; what is left to
    read gets shorter. -/
theorem encodeRound_encoded {text : List UInt8} {s : Encoding} (hs : Encoded text s)
    (hdone : s.done = false) :
    ∃ t, encodeRound s = some t ∧ Encoded text t ∧ unread t < unread s := by
  obtain ⟨w, rest, hp, hdst, htext, hsrc, -⟩ := hs
  obtain ⟨hsrc, hrest⟩ := hsrc hdone
  have hread := readGroup_cstr hrest
  have hunread : unread s = rest.length + 1 := by simp [unread, hdone, hsrc]
  unfold encodeRound
  rw [hunread, hsrc, hread, Option.bind_some]
  by_cases hnil : rest = []
  · -- the last group was a whole one, and this round finds nothing but the terminator
    subst hnil
    exact ⟨_, rfl, ⟨w, [], hp, hdst, htext, by simp, by simp⟩, by simp [unread]⟩
  · have hpos : 0 < rest.length := List.length_pos_iff.mpr hnil
    rw [rfc4648_eq hnil, ← List.append_assoc] at htext
    simp only [if_pos (show min 3 rest.length > 0 by omega), hdst, hp, store_partly htext,
      Option.map_some]
    refine ⟨_, rfl, ⟨_, rest.drop 3, ?_, rfl, htext, ?_, ?_⟩, ?_⟩
    · rw [List.length_append]
      rfl
    · exact fun _ => ⟨rfl, fun h => hrest (List.mem_of_mem_drop h)⟩
    · intro hlt
      rw [List.drop_eq_nil_iff]
      exact (of_decide_eq_true hlt).le
    · simp only [unread, length_cstr, List.length_drop]
      split_ifs <;> omega

/-- **The encoder** writes the text of RFC 4648 and its terminator, and fills its memory with them:
    what is allocated is neither too small nor too large. -/
theorem base64Encode_eq {s : List UInt8} (hs : 0 ∉ s) :
    base64Encode (cstr s) = some (cstr (rfc4648 s)) := by
  have hloop : ∃ t, run (fun t => !t.done) encodeRound (s.length + 1)
      { src := cstr s, dst := partly (rfc4648 s) [] } = some t ∧
      Encoded (rfc4648 s) t ∧ (!t.done) = false := by
    apply run_total (v := unread)
    · intro t ht hdone
      exact encodeRound_encoded ht (by simpa using hdone)
    · exact ⟨[], s, rfl, rfl, rfl, fun _ => ⟨rfl, hs⟩, by simp⟩
    · simp [unread]
  obtain ⟨t, hrun, ⟨w, rest, hp, hdst, htext, -, hrest⟩, hdone⟩ := hloop
  have hdone : t.done = true := by simpa using hdone
  rw [hrest hdone, rfc4648, List.append_nil] at htext
  subst htext
  unfold base64Encode
  rw [strlen_cstr hs, Option.bind_some, ← length_rfc4648, malloc_eq_partly, hrun, Option.bind_some,
    hdst, hp, write_partly]

/-! ### The decoder -/

/-- The bytes of the groups, the filling included. -/
theorem length_padded (s : List UInt8) : (padded s).length = (s.length + 2) / 3 * 3 := by
  fun_induction padded s with
  | case1 => rfl
  | case2 a => simp
  | case3 a b => simp
  | case4 a b c s ih =>
    simp only [List.length_cons, ih]
    omega

/-- What is filled in are zeros at the end. -/
theorem padded_eq_append (s : List UInt8) : ∃ j, padded s = s ++ List.replicate j 0 := by
  fun_induction padded s with
  | case1 => exact ⟨0, rfl⟩
  | case2 a => exact ⟨2, rfl⟩
  | case3 a b => exact ⟨1, rfl⟩
  | case4 a b c s ih =>
    obtain ⟨j, hj⟩ := ih
    exact ⟨j, by rw [hj]; rfl⟩

/-- The first group and the others. -/
theorem padded_eq {s : List UInt8} (hs : s ≠ []) :
    padded s = [s.getD 0 0, s.getD 1 0, s.getD 2 0] ++ padded (s.drop 3) := by
  match s with
  | [] => exact absurd rfl hs
  | [a] => rfl
  | [a, b] => rfl
  | a :: b :: c :: s => rfl

/-- The characters of a group are decoded to its bytes, since there is padding only where the group
    has no bytes. -/
theorem groupBytes_groupChars {k : Nat} {a b c : UInt8} (h2 : k < 2 → b = 0) (h3 : k < 3 → c = 0) :
    ∃ q0 q1 q2 q3, groupChars k ⟨a, b, c⟩ = [q0, q1, q2, q3] ∧ q0 ≠ 0 ∧
      groupBytes q0 q1 q2 q3 = [a, b, c] := by
  have hdigits := base64Table_group a b c
  simp only [digits, List.cons.injEq, and_true] at hdigits
  obtain ⟨hd0, hd1, hd2, hd3⟩ := hdigits
  have hzero : (0 : UInt8).toNat = 0 := rfl
  refine ⟨_, _, _, _, rfl, ?_, groupBytes_eq rfl ?_ ?_ ?_ ?_⟩
  · rw [hd0]
    exact digit_ne_zero _
  · rw [hd0, base64Rtable_digit]
  · rw [hd1, base64Rtable_digit]
  · -- a padding character is decoded to the zeros that the group is filled up with
    split_ifs with hk
    · rw [base64Rtable_pad, h2 hk, h3 (by omega), hzero]
      omega
    · rw [hd2, base64Rtable_digit]
  · split_ifs with hk
    · rw [base64Rtable_pad, h3 hk, hzero]
      omega
    · rw [hd3, base64Rtable_digit]

/-- The text of a string begins with characters that stand for its first group. -/
theorem rfc4648_eq_cons {s : List UInt8} (hs : s ≠ []) :
    ∃ q0 q1 q2 q3, rfc4648 s = q0 :: q1 :: q2 :: q3 :: rfc4648 (s.drop 3) ∧ q0 ≠ 0 ∧
      groupBytes q0 q1 q2 q3 = [s.getD 0 0, s.getD 1 0, s.getD 2 0] := by
  obtain ⟨q0, q1, q2, q3, hchars, hq0, hbytes⟩ := @groupBytes_groupChars (min 3 s.length)
    (s.getD 0 0) (s.getD 1 0) (s.getD 2 0) (fun h => List.getD_eq_default _ _ (by omega))
    (fun h => List.getD_eq_default _ _ (by omega))
  refine ⟨q0, q1, q2, q3, ?_, hq0, hbytes⟩
  rw [rfc4648_eq hs]
  exact congrArg (· ++ _) hchars

/-- The state of the decoder: `w` is written, and the text of what is missing is left to be read. -/
def Decoded (s : List UInt8) (t : Decoding) : Prop :=
  ∃ w rest, t.p = w.length ∧ t.dst = partly (padded s) w ∧ w ++ padded rest = padded s ∧
    t.q = cstr (rfc4648 rest)

/-- One round of the decoder reads four characters and writes the bytes of their group, fewer of
    them for the last group. -/
theorem decodeRound_decoded {s : List UInt8} {t : Decoding} (ht : Decoded s t)
    (hq : deref t.q ≠ some 0) :
    ∃ u, decodeRound t = some u ∧ Decoded s u ∧ u.q.length + 4 = t.q.length := by
  obtain ⟨w, rest, hp, hdst, hw, htq⟩ := ht
  have hne : rest ≠ [] := by
    rintro rfl
    exact hq (by rw [htq]; rfl)
  obtain ⟨q0, q1, q2, q3, htext, -, hbytes⟩ := rfc4648_eq_cons hne
  rw [padded_eq hne, ← hbytes, ← List.append_assoc] at hw
  have hcells : t.q = some q0 :: some q1 :: some q2 :: some q3 :: cstr (rfc4648 (rest.drop 3)) := by
    rw [htq, htext]
    rfl
  refine ⟨⟨cstr (rfc4648 (rest.drop 3)), t.p + 3, partly (padded s) (w ++ _)⟩, ?_,
    ⟨w ++ _, rest.drop 3, ?_, rfl, hw, rfl⟩, ?_⟩
  · have hstore := store_partly hw
    rw [← hp, ← hdst] at hstore
    unfold decodeRound
    simp [hcells, deref, hstore]
  · rw [hp, List.length_append]
    rfl
  · rw [hcells]
    rfl

/-- **The decoder** gives the groups of the string back.  It does not stop at the padding, so a last
    group that was short comes back with zeros at its end. -/
theorem base64Decode_eq {s : List UInt8} (hne : s ≠ []) (hlen : s.length < 2 ^ 30) :
    base64Decode (cstr (rfc4648 s)) = some (some (cstr (padded s))) := by
  have hloop : ∃ t, run (fun t => deref t.q ≠ some 0) decodeRound (rfc4648 s).length
      { q := cstr (rfc4648 s), dst := partly (padded s) [] } = some t ∧
      Decoded s t ∧ decide (deref t.q ≠ some 0) = false := by
    apply run_total (v := fun t : Decoding => t.q.length / 4)
    · intro t ht hq
      obtain ⟨u, hround, hu, hlength⟩ := decodeRound_decoded ht (of_decide_eq_true hq)
      exact ⟨u, hround, hu, by omega⟩
    · exact ⟨[], s, rfl, rfl, rfl, rfl⟩
    · simp only [length_cstr]
      have hpos : 0 < s.length := List.length_pos_iff.mpr hne
      have htext := length_rfc4648 s
      omega
  obtain ⟨t, hrun, ⟨w, rest, hp, hdst, hw, hq⟩, hend⟩ := hloop
  -- the loop stops at a terminator, and no text begins with one
  have hrest : rest = [] := by
    by_contra hrest
    obtain ⟨q0, q1, q2, q3, htext, hq0, -⟩ := rfc4648_eq_cons hrest
    rw [hq, htext, decide_eq_false_iff_not, not_not] at hend
    exact hq0 (Option.some.inj hend)
  rw [hrest, padded, List.append_nil] at hw
  subst hw
  have htext := length_rfc4648 s
  have hpadded := length_padded s
  -- the length fits an `int`, and the memory has room for the bytes with their padding
  have hcast : (Int32.ofNat (rfc4648 s).length).toInt = (rfc4648 s).length :=
    Int32.toInt_ofNat_of_lt (by omega)
  have hsize : Int.tdiv (rfc4648 s).length 4 * 3 + 1 = ((padded s).length + 1 : Nat) := by
    rw [Int.tdiv_eq_ediv_of_nonneg (by omega)]
    omega
  obtain ⟨q0, q1, q2, q3, hq0, hne0, -⟩ := rfc4648_eq_cons hne
  have hfirst : deref (cstr (rfc4648 s)) = some q0 := by rw [hq0]; rfl
  unfold base64Decode
  rw [hfirst, Option.bind_some, if_neg hne0, strlen_cstr (zero_notMem_rfc4648 s), Option.bind_some]
  simp only [hcast, hsize]
  rw [if_neg (by omega), if_neg (by omega), Int.toNat_natCast, malloc_eq_partly, hrun,
    Option.bind_some, hdst, hp, write_partly]
  rfl

/-- **Base64 round trip.**  The encoder fills the memory that it has allocated with the text of the
    string and a terminator.  The decoder returns memory of the size that it has allocated, which
    begins with the string and a terminator. -/
theorem base64_round_trip {s : List UInt8} (hne : s ≠ []) (hnul : 0 ∉ s)
    (hlen : s.length < 2 ^ 30) :
    base64Encode (cstr s) = some (cstr (rfc4648 s)) ∧
      (cstr (rfc4648 s)).length = (s.length + 2) / 3 * 4 + 1 ∧
      ∃ dst, base64Decode (cstr (rfc4648 s)) = some (some dst) ∧ toStr dst = some s ∧
        dst.length = (s.length + 2) / 3 * 4 / 4 * 3 + 1 := by
  refine ⟨base64Encode_eq hnul, ?_, _, base64Decode_eq hne hlen, ?_, ?_⟩
  · rw [length_cstr, length_rfc4648]
  · -- the first of the zeros behind the string ends it
    obtain ⟨j, hj⟩ := padded_eq_append s
    have hzeros : List.replicate j 0 ++ [0] = (0 : UInt8) :: List.replicate j 0 := by
      rw [← List.replicate_succ', List.replicate_succ]
    rw [cstr, hj, List.append_assoc, hzeros, List.map_append]
    exact toStr_append hnul _
  · rw [length_cstr, length_padded]
    omega

/-- `"light w"` with the byte 255 behind it. -/
theorem base64_round_trip_padding :
    base64Encode (cstr [108, 105, 103, 104, 116, 32, 119, 255]) =
        some (cstr ("bGlnaHQgd/8=".toList.map Char.toUInt8)) ∧
      ∃ dst, base64Decode (cstr ("bGlnaHQgd/8=".toList.map Char.toUInt8)) = some (some dst) ∧
        toStr dst = some [108, 105, 103, 104, 116, 32, 119, 255] := by
  have htext : rfc4648 [108, 105, 103, 104, 116, 32, 119, 255]
      = "bGlnaHQgd/8=".toList.map Char.toUInt8 := by decide +kernel
  obtain ⟨hencode, -, dst, hdecode, hstr, -⟩ :=
    base64_round_trip (s := [108, 105, 103, 104, 116, 32, 119, 255]) (by decide) (by decide)
      (by decide)
  rw [htext] at hencode hdecode
  exact ⟨hencode, dst, hdecode, hstr⟩

end Base64

end CPlayground
