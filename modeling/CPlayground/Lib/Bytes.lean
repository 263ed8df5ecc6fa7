import Mathlib.Algebra.Order.Ring.Nat
import Mathlib.Tactic.Ring

namespace CPlayground.Bytes

/-!
# Fixed-width little-endian words

The memory image of a scalar on a little-endian machine, as a list of bytes.

* `encode k n` — the `k` bytes of `n`, least significant first.
* `decode bs` — the number a byte list stands for.
* `decode_encode` — a number below `256 ^ k` survives the round trip through `k` bytes.
* `int16` / `ofInt16` — the two bytes of a 16-bit `short` and back.
* `int32` / `ofInt32` — the four bytes of a 32-bit `int` and back.
* `word32` / `ofWord32` — the four bytes of a 32-bit word and back.
* `word64` / `ofWord64` — the eight bytes of a 64-bit word and back.
-/

/-- The `k` low bytes of `n`, least significant first. -/
def encode (k n : Nat) : List UInt8 :=
  match k with
  | 0     => []
  | k + 1 => UInt8.ofNat n :: encode k (n / 256)

/-- The number whose little-endian bytes are `bs`. -/
def decode (bs : List UInt8) : Nat := bs.foldr (fun b n => b.toNat + 256 * n) 0

/-- An encoding has as many bytes as it is asked for. -/
@[simp] theorem length_encode (k n : Nat) : (encode k n).length = k := by
  induction k generalizing n with
  | zero => rfl
  | succ k ih => rw [encode, List.length_cons, ih]

/-- Encoding in `k` bytes and decoding reduces modulo `256 ^ k`. -/
theorem decode_encode_mod (k n : Nat) : decode (encode k n) = n % 256 ^ k := by
  induction k generalizing n with
  | zero => simp [encode, decode, Nat.mod_one]
  | succ k ih =>
    have hcons : decode (encode (k + 1) n)
        = (UInt8.ofNat n).toNat + 256 * decode (encode k (n / 256)) := rfl
    rw [hcons, ih, pow_succ', Nat.mod_mul, UInt8.toNat_ofNat']

/-- A number that fits in `k` bytes survives the round trip. -/
theorem decode_encode {k n : Nat} (h : n < 256 ^ k) : decode (encode k n) = n := by
  rw [decode_encode_mod, Nat.mod_eq_of_lt h]

/-- The number that is in `k` bytes is below `256 ^ k`. -/
theorem decode_lt (bs : List UInt8) : decode bs < 256 ^ bs.length := by
  induction bs with
  | nil => decide
  | cons b bs ih =>
    have hb := b.toNat_lt
    have hcons : decode (b :: bs) = b.toNat + 256 * decode bs := rfl
    rw [hcons, List.length_cons, pow_succ']
    omega

/-- The bytes of the number that `k` bytes stand for are these bytes, so that `encode` and `decode`
    are inverse to each other. -/
theorem encode_decode {k : Nat} {bs : List UInt8} (h : bs.length = k) :
    encode k (decode bs) = bs := by
  induction bs generalizing k with
  | nil =>
    subst h
    rfl
  | cons b bs ih =>
    subst h
    have hb := b.toNat_lt
    have hcons : decode (b :: bs) = b.toNat + 256 * decode bs := rfl
    have hlow : UInt8.ofNat (b.toNat + 256 * decode bs) = b := by
      apply UInt8.toNat_inj.mp
      rw [UInt8.toNat_ofNat']
      omega
    have hhigh : (b.toNat + 256 * decode bs) / 256 = decode bs := by omega
    rw [List.length_cons, encode, hcons, hlow, hhigh, ih rfl]

/-- Only bytes that are all zero have the number zero in them. -/
theorem decode_eq_zero_iff (bs : List UInt8) : decode bs = 0 ↔ ∀ b ∈ bs, b = 0 := by
  induction bs with
  | nil => simp [decode]
  | cons b bs ih =>
    have hcons : decode (b :: bs) = b.toNat + 256 * decode bs := rfl
    have hzero : b = 0 ↔ b.toNat = 0 := UInt8.toNat_inj.symm
    rw [List.forall_mem_cons, ← ih, hcons, hzero]
    omega

/-- Numbers that have no bit in common. -/
theorem or_eq_add {a b : Nat} (i : Nat) (ha : a % 2 ^ i = 0) (hb : b < 2 ^ i) :
    a ||| b = a + b := by
  obtain ⟨k, rfl⟩ := Nat.dvd_of_mod_eq_zero ha
  exact (Nat.two_pow_add_eq_or_of_lt hb k).symm

/-- The two bytes of a 16-bit signed integer. -/
def int16 (x : Int16) : List UInt8 := encode 2 x.toBitVec.toNat

/-- The 16-bit signed integer held by two bytes. -/
def ofInt16 (bs : List UInt8) : Int16 := Int16.ofBitVec (BitVec.ofNat 16 (decode bs))

/-- A `short` has two bytes. -/
@[simp] theorem length_int16 (x : Int16) : (int16 x).length = 2 := length_encode 2 _

/-- **Round trip** of a `short`. -/
@[simp] theorem ofInt16_int16 (x : Int16) : ofInt16 (int16 x) = x := by
  have hlt : x.toBitVec.toNat < 256 ^ 2 := x.toBitVec.isLt
  rw [ofInt16, int16, decode_encode hlt, BitVec.ofNat_toNat]
  simp

/-- Two bytes are those of the `short` that is in them. -/
theorem int16_ofInt16 {bs : List UInt8} (h : bs.length = 2) : int16 (ofInt16 bs) = bs := by
  have hlt : decode bs < 256 ^ 2 := h ▸ decode_lt bs
  have hval : (ofInt16 bs).toBitVec.toNat = decode bs := Nat.mod_eq_of_lt hlt
  rw [int16, hval, encode_decode h]

/-- A number that is not negative as a `short`. -/
theorem toInt_ofInt16_encode {n : Nat} (h : n < 2 ^ 15) : (ofInt16 (encode 2 n)).toInt = n := by
  have hlt : n < 256 ^ 2 := h.trans (by decide)
  have hval : (BitVec.ofNat 16 n).toNat = n := Nat.mod_eq_of_lt (h.trans (by decide))
  rw [ofInt16, decode_encode hlt]
  show (BitVec.ofNat 16 n).toInt = n
  rw [BitVec.toInt_eq_toNat_of_lt (by omega), hval]

/-- The four bytes of a 32-bit signed integer. -/
def int32 (x : Int32) : List UInt8 := encode 4 x.toBitVec.toNat

/-- The 32-bit signed integer held by four bytes. -/
def ofInt32 (bs : List UInt8) : Int32 := Int32.ofBitVec (BitVec.ofNat 32 (decode bs))

/-- An `int` has four bytes. -/
@[simp] theorem length_int32 (x : Int32) : (int32 x).length = 4 := length_encode 4 _

/-- **Round trip** of an `int`. -/
@[simp] theorem ofInt32_int32 (x : Int32) : ofInt32 (int32 x) = x := by
  have hlt : x.toBitVec.toNat < 256 ^ 4 := x.toBitVec.isLt
  rw [ofInt32, int32, decode_encode hlt, BitVec.ofNat_toNat]
  simp

/-- A number that is not negative as an `int`. -/
theorem toInt_ofInt32_encode {n : Nat} (h : n < 2 ^ 31) : (ofInt32 (encode 4 n)).toInt = n := by
  have hlt : n < 256 ^ 4 := h.trans (by decide)
  have hval : (BitVec.ofNat 32 n).toNat = n := Nat.mod_eq_of_lt (h.trans (by decide))
  rw [ofInt32, decode_encode hlt]
  show (BitVec.ofNat 32 n).toInt = n
  rw [BitVec.toInt_eq_toNat_of_lt (by omega), hval]

/-- The four bytes of a 32-bit word. -/
def word32 (x : UInt32) : List UInt8 := encode 4 x.toNat

/-- The 32-bit word held by four bytes. -/
def ofWord32 (bs : List UInt8) : UInt32 := UInt32.ofNat (decode bs)

/-- An `unsigned` has four bytes. -/
@[simp] theorem length_word32 (x : UInt32) : (word32 x).length = 4 := length_encode 4 _

/-- **Round trip** of an `unsigned`. -/
@[simp] theorem ofWord32_word32 (x : UInt32) : ofWord32 (word32 x) = x := by
  have hlt : x.toNat < 256 ^ 4 := x.toNat_lt
  rw [ofWord32, word32, decode_encode hlt, UInt32.ofNat_toNat]

/-- The bytes of an `unsigned` have its value in them. -/
theorem decode_word32 (x : UInt32) : decode (word32 x) = x.toNat := decode_encode x.toNat_lt

/-- The four bytes. -/
theorem word32_eq (x : UInt32) : ∃ a b c d : UInt8, word32 x = [a, b, c, d] := by
  have hlen := length_word32 x
  match h : word32 x, hlen with
  | [a, b, c, d], _ => exact ⟨a, b, c, d, rfl⟩

/-- The eight bytes of a 64-bit word. -/
def word64 (x : UInt64) : List UInt8 := encode 8 x.toNat

/-- The 64-bit word held by eight bytes. -/
def ofWord64 (bs : List UInt8) : UInt64 := UInt64.ofNat (decode bs)

/-- A word has eight bytes. -/
@[simp] theorem length_word64 (x : UInt64) : (word64 x).length = 8 := length_encode 8 _

/-- **Round trip** of a word. -/
@[simp] theorem ofWord64_word64 (x : UInt64) : ofWord64 (word64 x) = x := by
  have hlt : x.toNat < 256 ^ 8 := x.toNat_lt
  rw [ofWord64, word64, decode_encode hlt, UInt64.ofNat_toNat]

/-- The word in eight bytes has the value that is in the bytes. -/
theorem toNat_ofWord64 {bs : List UInt8} (h : bs.length = 8) : (ofWord64 bs).toNat = decode bs :=
  Nat.mod_eq_of_lt (h ▸ decode_lt bs : decode bs < 256 ^ 8)

/-- Eight bytes are those of the word that is in them. -/
theorem word64_ofWord64 {bs : List UInt8} (h : bs.length = 8) : word64 (ofWord64 bs) = bs := by
  rw [word64, toNat_ofWord64 h, encode_decode h]

end CPlayground.Bytes
