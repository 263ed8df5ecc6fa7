import CPlayground.Lib.Bytes
import CPlayground.Lib.Memory
import Mathlib.Data.UInt

namespace CPlayground

open Memory

/-!
# UTF-8

`utf8_encode` chooses the number of bytes from the number of bits of a code point, `utf8_decode`
from the first bits of a byte.  A stream is decoded code point by code point; the end of the stream
and an error have the same result.

* `Utf8.utf8` — the bytes of a code point.
* `Utf8.utf8Encode_eq`, `Utf8.utf8Decode_utf8`, `Utf8.utf8Decode_cut` — the encoder writes them, and
  the decoder reads them back if they are all there.
* `utf8_round_trip` — so code points that are encoded one after another are read back, up to where
  the bytes are cut off.
-/

namespace Utf8

/-! ### Encoding -/

/-- `n = 32 - __builtin_clz(x)`, for a number that is not zero. -/
def bitLength (x : UInt32) : Nat := x.toNat.log2 + 1

/-- `c` and the byte that is stored first, if there is one. -/
def lead (x : UInt32) : Nat × Option UInt8 :=
  if bitLength x < 8 then (0, some (x &&& 0xff).toUInt8)
  else if bitLength x < 12 then (1, some (((x >>> 6) &&& 0xff) ||| 0xc0).toUInt8)
  else if bitLength x < 17 then (2, some (((x >>> 12) &&& 0xff) ||| 0xe0).toUInt8)
  else if bitLength x < 22 then (3, some (((x >>> 18) &&& 0xff) ||| 0xf0).toUInt8)
  else (0, none)

/-- The byte that the loop stores in round `i`. -/
def suffix (x : UInt32) (i : Nat) : UInt8 :=
  (((x >>> UInt32.ofNat (i * 6)) &&& 0x3f) ||| 0x80).toUInt8

/-- The bytes of the loop, which counts down. -/
def suffixes (x : UInt32) (c : Nat) : List UInt8 := (List.range c).reverse.map (suffix x)

/-- `utf8_encode(p, e, x)` in a block of memory.  Nothing is defined for `__builtin_clz(0)`. -/
def utf8Encode (m : Mem) (p e : Nat) (x : UInt32) : Option (Nat × Mem) :=
  if x = 0 then none
  else
    -- the first byte is stored before the room is tested
    (store m p (lead x).2.toList).bind fun m =>
      if p + (lead x).1 ≥ e then some (0, m)
      else (store m (p + 1) (suffixes x (lead x).1)).map fun m => ((lead x).1 + 1, m)

/-! ### Decoding -/

/-- The tests of the first byte: `c`, and the bits of the code point in it. -/
def prefixTest (b : UInt8) : Option (Nat × UInt32) :=
  if b >>> 7 = 0 then some (0, b.toUInt32)
  else if b >>> 5 = 0x6 then some (1, (b &&& 0x1f).toUInt32)
  else if b >>> 4 = 0xe then some (2, (b &&& 0xf).toUInt32)
  else if b >>> 3 = 0x1e then some (3, (b &&& 0x7).toUInt32)
  else none

/-- The loop of `utf8_decode` with `c` rounds to go: the code point, if no byte is a wrong one. -/
def decodeSuffixes : Nat → Mem → UInt32 → Option (Option UInt32)
  | 0,     _, u => some (some u)
  | c + 1, m, u =>
    (deref m).bind fun b =>
      if b >>> 6 = 0x2 then decodeSuffixes c m.tail ((u <<< 6) ||| (b &&& 0x3f).toUInt32)
      else some none

/-- `utf8_decode`, with the memory from `p` on and the number of bytes up to `e`: the number of
    bytes and the code point, if it does not return 0. -/
def utf8Decode (m : Mem) (len : Nat) : Option (Option (Nat × UInt32)) :=
  (deref m).bind fun b =>
    match prefixTest b with
    | none        => some none
    | some (c, u) =>
      -- the last byte would be at `e` or behind it
      if c ≥ len then some none
      else (decodeSuffixes c m.tail u).map fun r => r.map fun u => (c + 1, u)

/-- `struct st_utf8_stream_t`: the memory from `p` on, and the number of bytes up to `e`. -/
structure Stream where
  m : Mem
  len : Nat

/-- `utf8_stream_init`. -/
def utf8StreamInit (p : Mem) (len : UInt32) : Stream := ⟨p, len.toNat⟩

/-- What `utf8_stream_next` returns at the end and for an error. -/
def minusOne : UInt32 := -1

/-- A code point is never taken for an error. -/
theorem ne_minusOne {x : UInt32} (hx : x.toNat < 2 ^ 21) : x ≠ minusOne := by
  rintro rfl
  exact absurd hx (by decide)

/-- `utf8_stream_next`: what it returns, what it stores in `*utf8size`, and the stream. -/
def utf8StreamNext (s : Stream) : Option (UInt32 × Option Nat × Stream) :=
  if 0 < s.len then
    (utf8Decode s.m s.len).map fun
      | some (c, u) => (u, some c, ⟨s.m.drop c, s.len - c⟩)
      | none        => (minusOne, none, s)
  else some (minusOne, none, s)

/-! ### The bytes of a code point -/

/-- The bytes of a code point, in the order in which they are stored. -/
def utf8 (x : UInt32) : List UInt8 := (lead x).2.toList ++ suffixes x (lead x).1

/-- The code points that `utf8_encode` has bytes for. -/
def CodePoint (x : UInt32) : Prop := 1 ≤ x.toNat ∧ x.toNat < 2 ^ 21

instance (x : UInt32) : Decidable (CodePoint x) := inferInstanceAs (Decidable (_ ∧ _))

variable {x : UInt32}

/-- The number of the bits tells how large a code point is. -/
theorem bitLength_lt (hx : CodePoint x) (k : Nat) : bitLength x < k + 1 ↔ x.toNat < 2 ^ k := by
  rw [bitLength, Nat.add_lt_add_iff_right]
  exact Nat.log2_lt (Nat.one_le_iff_ne_zero.mp hx.1)

/-- A mask that is put in front of a few bits. -/
theorem toNat_or_mask {a mask : UInt32} (i : Nat) (ha : a.toNat < 2 ^ i)
    (hmask : mask.toNat % 2 ^ i = 0) (hsum : mask.toNat + a.toNat < 256) :
    (a ||| mask).toUInt8.toNat = mask.toNat + a.toNat := by
  rw [UInt32.toNat_toUInt8, UInt32.toNat_or, Nat.or_comm, Bytes.or_eq_add i hmask ha,
    Nat.mod_eq_of_lt hsum]

/-- A byte behind the first one has six bits of the code point. -/
theorem toNat_suffix {i : Nat} (hi : i ≤ 3) : (suffix x i).toNat = 128 + x.toNat / 64 ^ i % 64 := by
  have hmask : (0x3f : UInt32).toNat = 2 ^ 6 - 1 := rfl
  have hshift : (UInt32.ofNat (i * 6)).toNat % 32 = 6 * i := by
    rw [UInt32.toNat_ofNat']
    omega
  have hbits : ((x >>> UInt32.ofNat (i * 6)) &&& 0x3f).toNat = x.toNat / 64 ^ i % 64 := by
    rw [UInt32.toNat_and, hmask, Nat.and_two_pow_sub_one_eq_mod, UInt32.toNat_shiftRight, hshift,
      Nat.shiftRight_eq_div_pow, Nat.pow_mul]
  have hlt : ((x >>> UInt32.ofNat (i * 6)) &&& 0x3f).toNat < 2 ^ 6 := by
    rw [hbits]
    exact Nat.mod_lt _ (by decide)
  rw [suffix, toNat_or_mask 6 hlt rfl (by show 128 + _ < 256; omega), hbits]
  rfl

/-- A round of the decoder puts six bits behind those that it has. -/
theorem toNat_shift_or {u : UInt32} {b : UInt8} (hu : u.toNat < 2 ^ 26) :
    ((u <<< 6) ||| (b &&& 0x3f).toUInt32).toNat = u.toNat * 64 + b.toNat % 64 := by
  have hhigh : (u <<< 6).toNat = u.toNat * 64 := by
    rw [UInt32.toNat_shiftLeft, Nat.shiftLeft_eq]
    show _ * 2 ^ 6 % 2 ^ 32 = _
    omega
  have hlow : (b &&& 0x3f).toUInt32.toNat = b.toNat % 64 := by
    have hmask : (0x3f : UInt8).toNat = 2 ^ 6 - 1 := rfl
    rw [UInt8.toNat_toUInt32, UInt8.toNat_and, hmask, Nat.and_two_pow_sub_one_eq_mod]
  rw [UInt32.toNat_or, hhigh, hlow, Bytes.or_eq_add 6 (by omega) (by omega)]

/-- **The loop of the decoder** puts the bits of the loop of the encoder behind those of the first
    byte. -/
theorem decodeSuffixes_suffixes {c : Nat} {u : UInt32} (hc : c ≤ 4)
    (hu : u.toNat = x.toNat / 64 ^ c) (rest : Mem) :
    decodeSuffixes c ((suffixes x c).map some ++ rest) u = some (some x) := by
  -- by induction on the suffixes that are left: `u` has the bits of `x` above them
  induction c generalizing u with
  | zero =>
    rw [pow_zero, Nat.div_one] at hu
    rw [decodeSuffixes, UInt32.toNat_inj.mp hu]
  | succ c ih =>
    have hcons : suffixes x (c + 1) = suffix x c :: suffixes x c := by
      simp [suffixes, List.range_succ]
    have hbyte := toNat_suffix (x := x) (i := c) (by omega)
    have htest : suffix x c >>> 6 = 0x2 := by
      apply UInt8.toNat_inj.mp
      rw [UInt8.toNat_shiftRight, Nat.shiftRight_eq_div_pow, hbyte]
      show _ / 2 ^ 6 = 2
      omega
    have hdiv : x.toNat / 64 ^ (c + 1) = x.toNat / 64 ^ c / 64 := by
      rw [pow_succ, Nat.div_div_eq_div_mul]
    have hle : x.toNat / 64 ^ c ≤ x.toNat := Nat.div_le_self _ _
    have hlt := x.toNat_lt
    have hnext : ((u <<< 6) ||| (suffix x c &&& 0x3f).toUInt32).toNat = x.toNat / 64 ^ c := by
      rw [toNat_shift_or (by omega), hbyte, hu, hdiv]
      omega
    rw [hcons, List.map_cons, List.cons_append, decodeSuffixes]
    show (if suffix x c >>> 6 = 0x2 then _ else _) = _
    rw [if_pos htest]
    exact ih (by omega) hnext

/-- The test of the first bits of a byte. -/
theorem shiftRight_eq_iff {b k v : UInt8} (hk : k.toNat < 8) :
    b >>> k = v ↔ b.toNat / 2 ^ k.toNat = v.toNat := by
  rw [← UInt8.toNat_inj, UInt8.toNat_shiftRight, Nat.shiftRight_eq_div_pow, Nat.mod_eq_of_lt hk]

/-- The other bits of it. -/
theorem toNat_and_mask {b mask : UInt8} {k : Nat} (hmask : mask.toNat = 2 ^ k - 1) :
    (b &&& mask).toUInt32.toNat = b.toNat % 2 ^ k := by
  rw [UInt8.toNat_toUInt32, UInt8.toNat_and, hmask, Nat.and_two_pow_sub_one_eq_mod]

/-- The first byte of a code point with `c` more bytes, which has the bits `v`. -/
def IsLead (b : UInt8) (c v : Nat) : Prop :=
  match c with
  | 0 => b.toNat = v ∧ v < 2 ^ 7
  | 1 => b.toNat = 0xc0 + v ∧ v < 2 ^ 5
  | 2 => b.toNat = 0xe0 + v ∧ v < 2 ^ 4
  | 3 => b.toNat = 0xf0 + v ∧ v < 2 ^ 3
  | _ => False

/-- The first byte of a code point passes exactly the test for its number of bytes. -/
theorem prefixTest_of_isLead {b : UInt8} {c v : Nat} (h : IsLead b c v) :
    ∃ u, prefixTest b = some (c, u) ∧ u.toNat = v := by
  have h7 : b >>> 7 = 0 ↔ b.toNat / 2 ^ 7 = 0 := shiftRight_eq_iff (by decide)
  have h5 : b >>> 5 = 0x6 ↔ b.toNat / 2 ^ 5 = 6 := shiftRight_eq_iff (by decide)
  have h4 : b >>> 4 = 0xe ↔ b.toNat / 2 ^ 4 = 14 := shiftRight_eq_iff (by decide)
  have h3 : b >>> 3 = 0x1e ↔ b.toNat / 2 ^ 3 = 30 := shiftRight_eq_iff (by decide)
  unfold prefixTest
  simp only [h7, h5, h4, h3]
  -- the four forms of a lead byte, which the tests tell apart from the top
  match c, h with
  | 0, h =>
    obtain ⟨hb, hv⟩ := h
    refine ⟨_, if_pos (by omega), ?_⟩
    rw [UInt8.toNat_toUInt32, hb]
  | 1, h =>
    obtain ⟨hb, hv⟩ := h
    rw [if_neg (by omega), if_pos (by omega)]
    refine ⟨_, rfl, ?_⟩
    rw [toNat_and_mask (k := 5) rfl]
    omega
  | 2, h =>
    obtain ⟨hb, hv⟩ := h
    rw [if_neg (by omega), if_neg (by omega), if_pos (by omega)]
    refine ⟨_, rfl, ?_⟩
    rw [toNat_and_mask (k := 4) rfl]
    omega
  | 3, h =>
    obtain ⟨hb, hv⟩ := h
    rw [if_neg (by omega), if_neg (by omega), if_neg (by omega), if_pos (by omega)]
    refine ⟨_, rfl, ?_⟩
    rw [toNat_and_mask (k := 3) rfl]
    omega

/-- A mask that is put in front of the bits from `k` on, of which there are `i`. -/
theorem toNat_shift_or_mask {k mask : UInt32} (i : Nat) (hk : k.toNat < 32)
    (hx : x.toNat / 2 ^ k.toNat < 2 ^ i) (hmask : mask.toNat % 2 ^ i = 0)
    (hsum : mask.toNat + 2 ^ i ≤ 256) :
    (((x >>> k) &&& 0xff) ||| mask).toUInt8.toNat = mask.toNat + x.toNat / 2 ^ k.toNat := by
  have hmask8 : (0xff : UInt32).toNat = 2 ^ 8 - 1 := rfl
  have hbits : ((x >>> k) &&& 0xff).toNat = x.toNat / 2 ^ k.toNat := by
    rw [UInt32.toNat_and, hmask8, Nat.and_two_pow_sub_one_eq_mod, UInt32.toNat_shiftRight,
      Nat.shiftRight_eq_div_pow, Nat.mod_eq_of_lt hk, Nat.mod_eq_of_lt (by omega)]
  rw [toNat_or_mask i (hbits ▸ hx) hmask (by omega), hbits]

/-- **The first byte** says how many bytes follow, and has the other bits of the code point. -/
theorem lead_eq (hx : CodePoint x) :
    ∃ b, (lead x).2 = some b ∧ (lead x).1 ≤ 3 ∧
      IsLead b (lead x).1 (x.toNat / 64 ^ (lead x).1) := by
  have h7 := bitLength_lt hx 7
  have h11 := bitLength_lt hx 11
  have h16 := bitLength_lt hx 16
  have h21 := bitLength_lt hx 21
  have hlt := hx.2
  unfold lead
  split_ifs with hb8 hb12 hb17 hb22
  · have hmask8 : (0xff : UInt32).toNat = 2 ^ 8 - 1 := rfl
    have hb : (x &&& 0xff).toUInt8.toNat = x.toNat := by
      rw [UInt32.toNat_toUInt8, UInt32.toNat_and, hmask8, Nat.and_two_pow_sub_one_eq_mod]
      omega
    exact ⟨_, rfl, Nat.zero_le _, by rw [hb]; exact (Nat.div_one _).symm,
      by rw [pow_zero]; omega⟩
  · have hdiv : x.toNat / 2 ^ 6 < 2 ^ 5 := by omega
    exact ⟨_, rfl, by omega, toNat_shift_or_mask 5 (by decide) hdiv (by decide) (by decide), hdiv⟩
  · have hdiv : x.toNat / 2 ^ 12 < 2 ^ 4 := by omega
    exact ⟨_, rfl, by omega, toNat_shift_or_mask 4 (by decide) hdiv (by decide) (by decide), hdiv⟩
  · have hdiv : x.toNat / 2 ^ 18 < 2 ^ 3 := by omega
    exact ⟨_, rfl, le_refl _, toNat_shift_or_mask 3 (by decide) hdiv (by decide) (by decide), hdiv⟩
  · omega

/-- The bytes of a code point are its first byte and those of the loop. -/
theorem utf8_eq (hx : CodePoint x) : ∃ b u, utf8 x = b :: suffixes x (lead x).1 ∧
    (lead x).2 = some b ∧ prefixTest b = some ((lead x).1, u) ∧
    u.toNat = x.toNat / 64 ^ (lead x).1 ∧ (lead x).1 ≤ 3 := by
  obtain ⟨b, hb, hc, hlead⟩ := lead_eq hx
  obtain ⟨u, htest, hu⟩ := prefixTest_of_isLead hlead
  refine ⟨b, u, ?_, hb, htest, hu, hc⟩
  rw [utf8, hb]
  rfl

/-- A code point has the first byte and the ones that it announces. -/
theorem length_utf8 (hx : CodePoint x) : (utf8 x).length = (lead x).1 + 1 := by
  obtain ⟨b, u, hutf8, -⟩ := utf8_eq hx
  simp [hutf8, suffixes]

/-- **The encoder** overwrites as many bytes as it returns, with those of the code point, and no
    others. -/
theorem utf8Encode_eq (hx : CodePoint x) {pre mid post : Mem} {e : Nat}
    (hmid : mid.length = (utf8 x).length) (he : pre.length + (utf8 x).length ≤ e) :
    utf8Encode (pre ++ (mid ++ post)) pre.length e x
      = some ((utf8 x).length, pre ++ ((utf8 x).map some ++ post)) := by
  obtain ⟨b, u, hutf8, hb, -⟩ := utf8_eq hx
  have hne : x ≠ 0 := by
    rintro rfl
    exact absurd hx.1 (by decide)
  have hlen := length_utf8 hx
  have hstore := store_append pre mid post hmid
  rw [hutf8, store, Option.bind_eq_some_iff] at hstore
  obtain ⟨m, hwrite, hstore⟩ := hstore
  unfold utf8Encode
  rw [if_neg hne, hb, Option.toList_some, store, hwrite]
  simp only [store, Option.bind_some]
  rw [if_neg (by omega), hstore, Option.map_some, hlen, hutf8]

/-- **The decoder** reads a code point if all its bytes are there, whatever follows them. -/
theorem utf8Decode_utf8 (hx : CodePoint x) {len : Nat} (hlen : (utf8 x).length ≤ len) (rest : Mem) :
    utf8Decode ((utf8 x).map some ++ rest) len = some (some ((utf8 x).length, x)) := by
  obtain ⟨b, u, hutf8, -, htest, hu, hc⟩ := utf8_eq hx
  have hlength := length_utf8 hx
  have hloop := decodeSuffixes_suffixes (c := (lead x).1) (by omega) hu rest
  rw [hlength, hutf8, List.map_cons, List.cons_append, utf8Decode]
  simp only [deref, Option.bind_some, htest]
  rw [if_neg (by omega), List.tail_cons, hloop]
  rfl

/-- A code point that is cut off is an error, and only its first byte is read. -/
theorem utf8Decode_cut (hx : CodePoint x) {k : Nat} (hpos : 0 < k) (hk : k < (utf8 x).length) :
    utf8Decode (((utf8 x).take k).map some) k = some none := by
  obtain ⟨b, u, hutf8, -, htest, -⟩ := utf8_eq hx
  have hlength := length_utf8 hx
  obtain ⟨k, rfl⟩ := Nat.exists_eq_add_of_lt hpos
  rw [hutf8, Nat.zero_add, List.take_succ_cons, List.map_cons, utf8Decode]
  simp only [deref, Option.bind_some, htest]
  rw [if_pos (by omega)]

/-! ### What the decoder accepts -/

/-- The first byte announces at most three bytes, and the number stays below `2 ^ 21` with them. -/
theorem prefixTest_bound {b : UInt8} {c : Nat} {u : UInt32} (h : prefixTest b = some (c, u)) :
    c ≤ 3 ∧ (u.toNat + 1) * 64 ^ c ≤ 2 ^ 21 := by
  have hmask (mask : UInt8) : (b &&& mask).toUInt32.toNat ≤ mask.toNat := by
    rw [UInt8.toNat_toUInt32, UInt8.toNat_and]
    exact Nat.and_le_right
  unfold prefixTest at h
  split_ifs at h <;> cases h
  · have : b.toUInt32.toNat < 256 := by
      rw [UInt8.toNat_toUInt32]
      exact b.toNat_lt
    omega
  · have : _ ≤ 31 := hmask 0x1f
    omega
  · have : _ ≤ 15 := hmask 0xf
    omega
  · have : _ ≤ 7 := hmask 0x7
    omega

/-- A round of the loop, which has room for the bits of the rounds to go. -/
theorem toNat_round {c : Nat} {u : UInt32} (b : UInt8)
    (hu : (u.toNat + 1) * 64 ^ (c + 1) ≤ 2 ^ 21) :
    ((u <<< 6) ||| (b &&& 0x3f).toUInt32).toNat = u.toNat * 64 + b.toNat % 64 ∧
      (((u <<< 6) ||| (b &&& 0x3f).toUInt32).toNat + 1) * 64 ^ c ≤ 2 ^ 21 := by
  have hpow : 0 < 64 ^ c := Nat.pow_pos (by decide)
  rw [pow_succ, Nat.mul_comm (64 ^ c), ← Nat.mul_assoc] at hu
  have hsmall : (u.toNat + 1) * 64 ≤ 2 ^ 21 := Nat.le_trans (Nat.le_mul_of_pos_right _ hpow) hu
  have hnext := toNat_shift_or (b := b) (u := u) (by omega)
  exact ⟨hnext, Nat.le_trans (Nat.mul_le_mul_right _ (by omega)) hu⟩

/-- The loop stays inside the bytes, and every round has six bits of the result. -/
theorem decodeSuffixes_bytes {c : Nat} {bs : List UInt8} {u : UInt32} (hc : c ≤ bs.length)
    (hu : (u.toNat + 1) * 64 ^ c ≤ 2 ^ 21) :
    ∃ r, (∀ extra, decodeSuffixes c (bs.map some ++ extra) u = some r) ∧
      ∀ v, r = some v → v.toNat < 2 ^ 21 := by
  induction c generalizing bs u with
  | zero => exact ⟨some u, fun _ => rfl, fun v hv => by cases hv; omega⟩
  | succ c ih =>
    obtain ⟨b, bs, rfl⟩ := List.exists_cons_of_length_pos (Nat.lt_of_lt_of_le (Nat.succ_pos c) hc)
    by_cases hb : b >>> 6 = 0x2
    · have hlen : c ≤ bs.length := Nat.le_of_succ_le_succ hc
      obtain ⟨r, hr, hbound⟩ := ih hlen (toNat_round b hu).2
      refine ⟨r, fun extra => ?_, hbound⟩
      rw [List.map_cons, List.cons_append, decodeSuffixes]
      simp only [deref, Option.bind_some, hb, if_true, List.tail_cons]
      exact hr extra
    · exact ⟨none, fun extra => by simp [decodeSuffixes, deref, hb], fun v hv => by cases hv⟩

/-- What `utf8_decode` gives for the bytes: how many there are of the first code point, and it. -/
def firstCodePoint (bs : List UInt8) : Option (Nat × UInt32) :=
  (utf8Decode (bs.map some) bs.length).join

/-- **Decoding in the bounds**: it has a result for any bytes, which does not depend on what follows
    them, and it never takes more bytes than there are. -/
theorem utf8Decode_bytes {bs : List UInt8} (hbs : bs ≠ []) :
    ∃ r, (∀ extra, utf8Decode (bs.map some ++ extra) bs.length = some r) ∧
      ∀ c x, r = some (c, x) → 1 ≤ c ∧ c ≤ 4 ∧ c ≤ bs.length ∧ x.toNat < 2 ^ 21 := by
  obtain ⟨b, bs, rfl⟩ := List.exists_cons_of_ne_nil hbs
  -- what is read is decided by the lead byte, and the bytes behind `bs` are not looked at
  cases htest : prefixTest b with
  | none =>
    refine ⟨none, fun extra => ?_, fun c x h => by cases h⟩
    simp [utf8Decode, deref, htest]
  | some q =>
    obtain ⟨c, u⟩ := q
    obtain ⟨hc, hu⟩ := prefixTest_bound htest
    by_cases hlen : c ≥ (b :: bs).length
    -- a byte sequence that is cut off
    · refine ⟨none, fun extra => ?_, fun c x h => by cases h⟩
      rw [List.map_cons, List.cons_append, utf8Decode]
      simp only [deref, Option.bind_some, htest, hlen, if_true]
    · rw [List.length_cons] at hlen
      obtain ⟨r, hr, hbound⟩ := decodeSuffixes_bytes (show c ≤ bs.length by omega) hu
      refine ⟨r.map fun u => (c + 1, u), fun extra => ?_, fun c' x h => ?_⟩
      · rw [List.map_cons, List.cons_append, utf8Decode]
        simp only [deref, Option.bind_some, htest, List.length_cons, hlen, if_false, List.tail_cons,
          hr extra, Option.map_some]
      · obtain ⟨v, hv, hpair⟩ := Option.map_eq_some_iff.mp h
        cases hpair
        have := hbound _ hv
        rw [List.length_cons]
        omega

/-- The decoder does not look behind the end. -/
theorem utf8Decode_eq {bs : List UInt8} (hbs : bs ≠ []) (extra : Mem) :
    utf8Decode (bs.map some ++ extra) bs.length = some (firstCodePoint bs) := by
  obtain ⟨r, hr, -⟩ := utf8Decode_bytes hbs
  have hnil := hr []
  rw [List.append_nil] at hnil
  rw [hr, firstCodePoint, hnil]
  rfl

/-- At the end of the stream there is no code point. -/
theorem firstCodePoint_nil : firstCodePoint [] = none := rfl

/-- A code point is in the bytes that it is read from. -/
theorem firstCodePoint_bounds {bs : List UInt8} {c : Nat} (h : firstCodePoint bs = some (c, x)) :
    1 ≤ c ∧ c ≤ 4 ∧ c ≤ bs.length ∧ x.toNat < 2 ^ 21 := by
  have hbs : bs ≠ [] := by
    rintro rfl
    cases h
  obtain ⟨r, hr, hbounds⟩ := utf8Decode_bytes hbs
  rw [← Option.some_inj.mp ((utf8Decode_eq hbs []).symm.trans (hr []))] at hbounds
  exact hbounds c x h

/-- A code point that is there is there whatever comes behind it: the first byte says how many more
    are looked at. -/
theorem firstCodePoint_append {bs : List UInt8} {r : Nat × UInt32} (h : firstCodePoint bs = some r)
    (more : List UInt8) : firstCodePoint (bs ++ more) = some r := by
  have hbs : bs ≠ [] := by
    rintro rfl
    cases h
  have hfirst := utf8Decode_eq hbs (more.map some)
  rw [h] at hfirst
  have hmore : utf8Decode (bs.map some ++ more.map some) (bs ++ more).length = some (some r) := by
    obtain ⟨b, bs, rfl⟩ := List.exists_cons_of_ne_nil hbs
    rw [List.map_cons, List.cons_append, utf8Decode] at hfirst ⊢
    simp only [deref, Option.bind_some] at hfirst ⊢
    split at hfirst
    · cases hfirst
    · split_ifs at hfirst with hlen
      · cases hfirst
      · rw [if_neg (by rw [List.length_append]; omega), hfirst]
  rw [firstCodePoint, List.map_append, hmore]
  rfl

/-- The decoder gives the code points `xs` one after another, and `rest` is left. -/
inductive Reads : List UInt8 → List UInt32 → List UInt8 → Prop
  | nil (bs : List UInt8) : Reads bs [] bs
  | cons {bs rest : List UInt8} {c : Nat} {x : UInt32} {xs : List UInt32}
      (h : firstCodePoint bs = some (c, x)) (hrest : Reads (bs.drop c) xs rest) :
      Reads bs (x :: xs) rest

namespace Reads

variable {bs rest bs' end_ : List UInt8} {xs ys : List UInt32}

/-- Reading as far as possible. -/
theorem exists_maximal (bs : List UInt8) :
    ∃ xs rest, Reads bs xs rest ∧ firstCodePoint rest = none := by
  induction hn : bs.length using Nat.strong_induction_on generalizing bs with
  | _ n ih =>
    cases hfirst : firstCodePoint bs with
    | none => exact ⟨[], bs, nil bs, hfirst⟩
    | some q =>
      have hbounds := firstCodePoint_bounds hfirst
      obtain ⟨xs, rest, hreads, hend⟩ :=
        ih (bs.drop q.1).length (by rw [List.length_drop]; omega) (bs.drop q.1) rfl
      exact ⟨q.2 :: xs, rest, cons hfirst hreads, hend⟩

/-- Two pieces of a stream, one after another. -/
theorem append (h : Reads bs xs bs') (h' : Reads bs' ys rest) : Reads bs (xs ++ ys) rest := by
  induction h with
  | nil => exact h'
  | cons hfirst _ ih => exact cons hfirst (ih h')

/-- A stream can be cut behind any code point. -/
theorem exists_of_append (h : Reads bs (xs ++ ys) rest) :
    ∃ bs', Reads bs xs bs' ∧ Reads bs' ys rest := by
  induction xs generalizing bs with
  | nil => exact ⟨bs, nil bs, h⟩
  | cons x xs ih =>
    cases h with
    | cons hfirst hrest =>
      obtain ⟨bs', hreads, hbs'⟩ := ih hrest
      exact ⟨bs', cons hfirst hreads, hbs'⟩

/-- A code point has one to four bytes. -/
theorem length_bounds (h : Reads bs xs rest) :
    xs.length + rest.length ≤ bs.length ∧ bs.length ≤ 4 * xs.length + rest.length := by
  induction h with
  | nil => simp
  | cons hfirst _ ih =>
    have hbounds := firstCodePoint_bounds hfirst
    rw [List.length_drop] at ih
    rw [List.length_cons]
    omega

/-- What is read of a part of the bytes is read of all of them. -/
theorem isPrefix (h : Reads bs xs rest) (more : List UInt8) (h' : Reads (bs ++ more) ys end_)
    (hend : firstCodePoint end_ = none) : xs <+: ys := by
  induction h generalizing ys with
  | nil => exact List.nil_prefix
  | cons hfirst _ ih =>
    -- the whole begins with the same code point, so it has been read there too
    have hmore := firstCodePoint_append hfirst more
    cases h' with
    | nil => exact absurd (hmore.symm.trans hend) (by simp)
    | cons hfirst' hrest' =>
      cases hfirst'.symm.trans hmore
      rw [List.drop_append_of_le_length (firstCodePoint_bounds hfirst).2.2.1] at hrest'
      exact (List.prefix_cons_inj _).mpr (ih hrest')

/-- A stream is read in one way only. -/
theorem unique {rest' : List UInt8} (h : Reads bs xs rest) (hend : firstCodePoint rest = none)
    (h' : Reads bs ys rest') (hend' : firstCodePoint rest' = none) : xs = ys := by
  rw [← List.append_nil bs] at h h'
  have hle := (h'.isPrefix [] (by rwa [List.append_nil]) hend).length_le
  exact (h.isPrefix [] (by rwa [List.append_nil]) hend').eq_of_length_le hle

end Reads

/-! ### Streams -/

/-- Calls of `utf8_encode`, each of which goes on where the one before has ended: what they return,
    and the memory. -/
def encodeAll (m : Mem) (p e : Nat) : List UInt32 → Option (List Nat × Mem)
  | []      => some ([], m)
  | x :: xs => (utf8Encode m p e x).bind fun q =>
      (encodeAll q.2 (p + q.1) e xs).map fun r => (q.1 :: r.1, r.2)

/-- Calls of `utf8_stream_next` up to the first one that returns -1, for at most `n` calls: what
    they return with the sizes, and the stream. -/
def nextAll : Nat → Stream → Option (List (UInt32 × Option Nat) × Stream)
  | 0,     _ => none
  | n + 1, s => (utf8StreamNext s).bind fun q =>
      if q.1 = minusOne then some ([], q.2.2)
      else (nextAll n q.2.2).map fun r => ((q.1, q.2.1) :: r.1, r.2)

/-- The stream of a list of bytes, behind which there is nothing. -/
def Stream.ofBytes (bs : List UInt8) : Stream := ⟨bs.map some, bs.length⟩

/-- The code points whose bytes are all among the first `k`. -/
def wholeBefore : List UInt32 → Nat → List UInt32
  | [],      _ => []
  | x :: xs, k => if (utf8 x).length ≤ k then x :: wholeBefore xs (k - (utf8 x).length) else []

variable {xs : List UInt32}

/-- `utf8_stream_next` on bytes that are a part of a longer block. -/
theorem utf8StreamNext_eq (bs : List UInt8) (extra : Mem) :
    utf8StreamNext ⟨bs.map some ++ extra, bs.length⟩ = some (match firstCodePoint bs with
      | some (c, u) => (u, some c, ⟨(bs.drop c).map some ++ extra, (bs.drop c).length⟩)
      | none        => (minusOne, none, ⟨bs.map some ++ extra, bs.length⟩)) := by
  by_cases hbs : bs = []
  · subst hbs
    rfl
  · rw [utf8StreamNext, if_pos (List.length_pos_iff.mpr hbs), utf8Decode_eq hbs]
    cases hfirst : firstCodePoint bs with
    | none => rfl
    | some q =>
      have hle := (firstCodePoint_bounds hfirst).2.2.1
      simp [List.drop_append_of_le_length, hle]

/-- **Encoding one after another** fills the memory with the bytes of the code points, and reports
    the length of each. -/
theorem encodeAll_eq (hxs : ∀ x ∈ xs, CodePoint x) (pre mid post : Mem) {e : Nat}
    (hmid : mid.length = (xs.flatMap utf8).length) (he : pre.length + mid.length ≤ e) :
    encodeAll (pre ++ (mid ++ post)) pre.length e xs
      = some (xs.map fun x => (utf8 x).length, pre ++ ((xs.flatMap utf8).map some ++ post)) := by
  induction xs generalizing pre mid with
  | nil =>
    rw [List.flatMap_nil, List.length_nil, List.length_eq_zero_iff] at hmid
    subst hmid
    rfl
  | cons x xs ih =>
    rw [List.forall_mem_cons] at hxs
    rw [List.flatMap_cons, List.length_append] at hmid
    -- the buffer is split behind the bytes of the first code point
    have hsplit : mid = mid.take (utf8 x).length ++ mid.drop (utf8 x).length :=
      (List.take_append_drop _ _).symm
    have hfirst : (mid.take (utf8 x).length).length = (utf8 x).length := by
      rw [List.length_take]
      omega
    have hrest : (mid.drop (utf8 x).length).length = (xs.flatMap utf8).length := by
      rw [List.length_drop]
      omega
    have hnext := ih hxs.2 (pre ++ (utf8 x).map some) _ hrest (by simp; omega)
    rw [List.length_append, List.length_map] at hnext
    rw [encodeAll, hsplit, List.append_assoc, utf8Encode_eq hxs.1 hfirst (by omega)]
    simp only [Option.bind_some]
    rw [← List.append_assoc, hnext]
    simp

/-- A code point that is all there is read back, whatever follows it. -/
theorem firstCodePoint_utf8 (hx : CodePoint x) (rest : List UInt8) :
    firstCodePoint (utf8 x ++ rest) = some ((utf8 x).length, x) := by
  rw [firstCodePoint, List.map_append, utf8Decode_utf8 hx (by simp)]
  rfl

/-- One whose bytes are cut off is not. -/
theorem firstCodePoint_cut (hx : CodePoint x) {k : Nat} (hk : k < (utf8 x).length) :
    firstCodePoint ((utf8 x).take k) = none := by
  cases k with
  | zero => rfl
  | succ k =>
    rw [firstCodePoint, List.length_take, Nat.min_eq_left (by omega),
      utf8Decode_cut hx (by omega) hk]
    rfl

/-- The calls go on until there is no code point. -/
theorem nextAll_succ (n : Nat) (bs : List UInt8) :
    nextAll (n + 1) (.ofBytes bs) = match firstCodePoint bs with
      | some (c, u) => (nextAll n (.ofBytes (bs.drop c))).map fun r => ((u, some c) :: r.1, r.2)
      | none        => some ([], .ofBytes bs) := by
  have hnext := utf8StreamNext_eq bs []
  rw [List.append_nil] at hnext
  rw [nextAll, Stream.ofBytes, hnext]
  cases hfirst : firstCodePoint bs with
  | none => rfl
  | some q =>
    simp only [Option.bind_some, List.append_nil,
      ne_minusOne (firstCodePoint_bounds hfirst).2.2.2, if_false]
    rfl

/-- **Iterating** over bytes that are cut off anywhere: the code points are read one after another,
    up to the first one that is not all there. -/
theorem nextAll_take (hxs : ∀ x ∈ xs, CodePoint x) (k : Nat) {n : Nat} (hn : xs.length < n) :
    ∃ rest, nextAll n (.ofBytes ((xs.flatMap utf8).take k))
        = some ((wholeBefore xs k).map fun x => (x, some (utf8 x).length), .ofBytes rest) ∧
      ((xs.flatMap utf8).length ≤ k → wholeBefore xs k = xs ∧ rest = []) := by
  induction xs generalizing k n with
  | nil =>
    obtain ⟨n, rfl⟩ : ∃ m, n = m + 1 := ⟨n - 1, by omega⟩
    exact ⟨[], by rw [List.flatMap_nil, List.take_nil, nextAll_succ]; rfl, fun _ => ⟨rfl, rfl⟩⟩
  | cons x xs ih =>
    rw [List.forall_mem_cons] at hxs
    rw [List.length_cons] at hn
    obtain ⟨n, rfl⟩ : ∃ m, n = m + 1 := ⟨n - 1, by omega⟩
    rw [List.flatMap_cons, wholeBefore, nextAll_succ]
    by_cases hk : (utf8 x).length ≤ k
    · -- the code point is read, and the cut is in the rest
      obtain ⟨rest, hrest, hall⟩ := ih hxs.2 (k - (utf8 x).length) (n := n) (by omega)
      refine ⟨rest, ?_, fun hlen => ?_⟩
      · rw [List.take_append, List.take_of_length_le hk, firstCodePoint_utf8 hxs.1, if_pos hk]
        simp only [List.drop_left, hrest, Option.map_some, List.map_cons]
      · rw [List.length_append] at hlen
        obtain ⟨hwhole, hnil⟩ := hall (by omega)
        rw [if_pos hk, hwhole]
        exact ⟨rfl, hnil⟩
    · rw [if_neg hk, List.take_append_of_le_length (by omega), firstCodePoint_cut hxs.1 (by omega)]
      refine ⟨(utf8 x).take k, rfl, fun hlen => ?_⟩
      rw [List.length_append] at hlen
      omega

/-- **The round trip.**  The encoder fills the buffer with the bytes of the code points one after
    the other; iterating over exactly those bytes gives the code points and their sizes, and over a
    part of them those that are complete.  A byte behind the part does not exist: reading it would
    have no value. -/
theorem utf8_round_trip (hxs : ∀ x ∈ xs, CodePoint x) {m : Mem} {p e : Nat}
    (hroom : p + (xs.flatMap utf8).length ≤ e) (he : e ≤ m.length) :
    encodeAll m p e xs
      = some (xs.map fun x => (utf8 x).length,
          m.take p ++ ((xs.flatMap utf8).map some ++ m.drop (p + (xs.flatMap utf8).length))) ∧
    ∀ n, xs.length < n →
      nextAll n (.ofBytes (xs.flatMap utf8))
        = some (xs.map fun x => (x, some (utf8 x).length), .ofBytes []) ∧
      ∀ k, ∃ rest, nextAll n (.ofBytes ((xs.flatMap utf8).take k))
        = some ((wholeBefore xs k).map fun x => (x, some (utf8 x).length), .ofBytes rest) := by
  constructor
  -- the buffer is what is in front of `p`, the room for the bytes, and the rest
  · have hsplit : m = m.take p ++ ((m.drop p).take (xs.flatMap utf8).length ++
        m.drop (p + (xs.flatMap utf8).length)) := by
      rw [← List.drop_drop, List.take_append_drop, List.take_append_drop]
    have hp : (m.take p).length = p := by
      rw [List.length_take]
      omega
    have hmid : ((m.drop p).take (xs.flatMap utf8).length).length = (xs.flatMap utf8).length := by
      rw [List.length_take, List.length_drop]
      omega
    have h := encodeAll_eq hxs (m.take p) _ (m.drop (p + (xs.flatMap utf8).length)) hmid (e := e)
      (by omega)
    rwa [← hsplit, hp] at h
  · intro n hn
    constructor
    · obtain ⟨rest, hnext, hall⟩ := nextAll_take hxs (xs.flatMap utf8).length hn
      obtain ⟨hwhole, rfl⟩ := hall (Nat.le_refl _)
      rwa [List.take_length, hwhole] at hnext
    · intro k
      obtain ⟨rest, hnext, -⟩ := nextAll_take hxs k hn
      exact ⟨rest, hnext⟩

/-- One code point of each size; the cut is inside the third one. -/
theorem utf8_round_trip_sizes :
    encodeAll (malloc 10) 0 10 [0x24, 0xa2, 0x20ac, 0x10348]
      = some ([1, 2, 3, 4],
          [some 0x24, some 0xc2, some 0xa2, some 0xe2, some 0x82, some 0xac, some 0xf0, some 0x90,
            some 0x8d, some 0x88]) ∧
    ∃ rest, nextAll 5 (.ofBytes [0x24, 0xc2, 0xa2, 0xe2, 0x82])
      = some ([(0x24, some 1), (0xa2, some 2)], .ofBytes rest) := by
  have hxs : ∀ x ∈ ([0x24, 0xa2, 0x20ac, 0x10348] : List UInt32), CodePoint x := by
    simp only [List.forall_mem_cons, List.not_mem_nil, false_implies, implies_true, and_true]
    decide
  have h := utf8_round_trip hxs (m := malloc 10) (p := 0) (e := 10) (by decide) (by decide)
  exact ⟨h.1, (h.2 5 (by decide)).2 5⟩

end Utf8

end CPlayground
